import EquationCompiler.Expr.Derivative
import EquationCompiler.Expr.Substitute
import EquationCompiler.Formula.Compile
import EquationCompiler.Proofs.Grammar

/-!
# Recipes

A recipe tells how an expression is put together by the simplifying constructors from
expressions that are given. Parsing, substituting and differentiating do nothing but
follow recipes, so what the constructors keep, they keep.
-/
namespace EquationCompiler

/-- How to put together an expression. -/
inductive Recipe (α : Type) where
  | given (e : Expr α)
  | sum (terms : List (Recipe α))
  | product (factors : List (Recipe α))
  | power (base exponent : Recipe α)
  | call (f : Elementary) (args : List (Recipe α))

namespace Recipe
variable {α : Type}

mutual
/-- All expressions that are given have the property. -/
def From (P : Expr α → Prop) : Recipe α → Prop
  | given e => P e
  | sum rs | product rs | call _ rs => FromAll P rs
  | power b e => b.From P ∧ e.From P
def FromAll (P : Expr α → Prop) : List (Recipe α) → Prop
  | [] => True
  | r :: rs => r.From P ∧ FromAll P rs
end

variable [Scalar α]

mutual
/-- The expression that the simplifying constructors put together. -/
def build : Recipe α → Expr α
  | given e => e
  | sum rs => .add (buildAll rs)
  | product rs => .mul (buildAll rs)
  | power b e => .pow b.build e.build
  | call f rs => .apply f (buildAll rs)
def buildAll : List (Recipe α) → List (Expr α)
  | [] => []
  | r :: rs => r.build :: buildAll rs
end

@[simp] lemma length_buildAll (rs : List (Recipe α)) : (buildAll rs).length = rs.length := by
  induction rs with
  | nil => rfl
  | cons r rs ih => simp [buildAll, ih]

/-- The number minus one. -/
def minusOne : Recipe α := given (.number (-Scalar.one))

def neg (r : Recipe α) : Recipe α := product [minusOne, r]

def sub (r s : Recipe α) : Recipe α := sum [r, neg s]

def div (r s : Recipe α) : Recipe α := product [r, power s minusOne]

def square (r : Recipe α) : Recipe α := power r (given (.number Scalar.two))

section
variable (r s : Recipe α)

@[simp] lemma build_neg : (neg r).build = r.build.neg := rfl

@[simp] lemma build_sub : (sub r s).build = r.build.sub s.build := rfl

@[simp] lemma build_div : (div r s).build = r.build.div s.build := rfl

@[simp] lemma build_square : (square r).build = Expr.square r.build := rfl

end

end Recipe

namespace Formula
variable {α : Type} [Numeral α]

/-- How a function is applied. -/
def applicationRecipe (v : Vocabulary) (f : String) (args : List (Recipe α)) :
    Except ExprFault (Recipe α) :=
  if v.contains f then .error (.notCallable f)
  else if f = "sqrt" then
    match args with
    | [r] => .ok (.power r (.given (.number Scalar.half)))
    | _ => .error (.arity f 1 args.length)
  else match Elementary.ofName? f with
    | none => .error (.unknownFunction f)
    | some g =>
      if args.length = g.arity then .ok (.call g args) else .error (.arity f g.arity args.length)

mutual
/-- How the expression that a formula denotes is put together. -/
def recipe (v : Vocabulary) : Formula → Except ExprFault (Recipe α)
  | number literal =>
    match literalValue? literal with
    | some x => .ok (.given (.number x))
    | none => .error (.invalidNumber literal)
  | name s => .ok (.given (identifier v s))
  | call f args => do
    let args ← recipes v args
    applicationRecipe v f args
  | negation f => do
    let a ← recipe v f
    return a.neg
  | sum f g => do
    let a ← recipe v f
    let b ← recipe v g
    return .sum [a, b]
  | difference f g => do
    let a ← recipe v f
    let b ← recipe v g
    return a.sub b
  | product f g => do
    let a ← recipe v f
    let b ← recipe v g
    return .product [a, b]
  | quotient f g => do
    let a ← recipe v f
    let b ← recipe v g
    return a.div b
  | power f g => do
    let a ← recipe v f
    let b ← recipe v g
    return .power a b
def recipes (v : Vocabulary) : List Formula → Except ExprFault (List (Recipe α))
  | [] => .ok []
  | f :: fs => do
    let e ← recipe v f
    let es ← recipes v fs
    return e :: es
end

lemma application_buildAll (v : Vocabulary) (f : String) (args : List (Recipe α)) :
    application v f (Recipe.buildAll args) = (applicationRecipe v f args).map Recipe.build := by
  unfold application applicationRecipe
  split_ifs
  · rfl
  · match args with
    | [] | [r] => rfl
    | _ :: _ :: _ => simp [Recipe.buildAll, Except.map]
  · rw [Recipe.length_buildAll]
    cases Elementary.ofName? f with
    | none => rfl
    | some g =>
      dsimp only
      split_ifs <;> rfl

mutual
/-- Formulas are compiled by their recipes. -/
theorem compile_eq_map (v : Vocabulary) (f : Formula) :
    (f.compile v : Except ExprFault (Expr α)) = (f.recipe v).map Recipe.build := by
  match f with
  | number literal =>
    rw [compile, recipe]
    cases (literalValue? literal : Option α) <;> rfl
  | name s => rfl
  | call f args =>
    rw [compile, recipe, compileAll_eq_map v args]
    cases (recipes v args : Except ExprFault (List (Recipe α))) with
    | error cause => rfl
    | ok rs => exact application_buildAll v f rs
  | negation f =>
    rw [compile, recipe, compile_eq_map v f]
    cases (f.recipe v : Except ExprFault (Recipe α)) <;> rfl
  | sum f g | difference f g | product f g | quotient f g | power f g =>
    rw [compile, recipe, compile_eq_map v f, compile_eq_map v g]
    cases (f.recipe v : Except ExprFault (Recipe α)) <;>
      cases (g.recipe v : Except ExprFault (Recipe α)) <;> rfl
theorem compileAll_eq_map (v : Vocabulary) (fs : List Formula) :
    (compileAll v fs : Except ExprFault (List (Expr α))) =
      (recipes v fs).map Recipe.buildAll := by
  match fs with
  | [] => rfl
  | f :: fs =>
    rw [compileAll, recipes, compile_eq_map v f, compileAll_eq_map v fs]
    cases (f.recipe v : Except ExprFault (Recipe α)) <;>
      cases (recipes v fs : Except ExprFault (List (Recipe α))) <;> rfl
end

lemma from_applicationRecipe {P : Expr α → Prop} (hnumber : ∀ x, P (.number x)) {v : Vocabulary}
    {f : String} {args : List (Recipe α)} (hargs : Recipe.FromAll P args) {r : Recipe α}
    (h : applicationRecipe v f args = .ok r) : r.From P := by
  unfold applicationRecipe at h
  split_ifs at h
  · split at h
    · cases h
      exact ⟨hargs.1, hnumber _⟩
    · cases h
  · split at h
    · cases h
    · split_ifs at h
      cases h
      exact hargs

mutual
/-- What a formula is put together from are numbers and names. -/
theorem from_recipe {P : Expr α → Prop} {v : Vocabulary} (hnumber : ∀ x, P (.number x))
    (hname : ∀ s, P (identifier v s)) {f : Formula} {r : Recipe α} (h : f.recipe v = .ok r) :
    r.From P := by
  match f with
  | number literal =>
    rw [recipe] at h
    split at h
    · cases h
      exact hnumber _
    · cases h
  | name s =>
    cases h
    exact hname s
  | call f args =>
    obtain ⟨rs, hrs, h⟩ := bind_eq_ok.mp h
    exact from_applicationRecipe hnumber (from_recipes hnumber hname hrs) h
  | negation f =>
    obtain ⟨r, hr, h⟩ := bind_eq_ok.mp h
    cases h
    exact ⟨hnumber _, from_recipe hnumber hname hr, trivial⟩
  | sum f g | product f g =>
    obtain ⟨r, hr, h⟩ := bind_eq_ok.mp h
    obtain ⟨s, hs, h⟩ := bind_eq_ok.mp h
    cases h
    exact ⟨from_recipe hnumber hname hr, from_recipe hnumber hname hs, trivial⟩
  | difference f g =>
    obtain ⟨r, hr, h⟩ := bind_eq_ok.mp h
    obtain ⟨s, hs, h⟩ := bind_eq_ok.mp h
    cases h
    exact ⟨from_recipe hnumber hname hr,
      ⟨hnumber _, from_recipe hnumber hname hs, trivial⟩, trivial⟩
  | quotient f g =>
    obtain ⟨r, hr, h⟩ := bind_eq_ok.mp h
    obtain ⟨s, hs, h⟩ := bind_eq_ok.mp h
    cases h
    exact ⟨from_recipe hnumber hname hr,
      ⟨from_recipe hnumber hname hs, hnumber _⟩, trivial⟩
  | power f g =>
    obtain ⟨r, hr, h⟩ := bind_eq_ok.mp h
    obtain ⟨s, hs, h⟩ := bind_eq_ok.mp h
    cases h
    exact ⟨from_recipe hnumber hname hr, from_recipe hnumber hname hs⟩
theorem from_recipes {P : Expr α → Prop} {v : Vocabulary} (hnumber : ∀ x, P (.number x))
    (hname : ∀ s, P (identifier v s)) {fs : List Formula} {rs : List (Recipe α)}
    (h : recipes v fs = .ok rs) : Recipe.FromAll P rs := by
  match fs with
  | [] =>
    cases h
    trivial
  | f :: fs =>
    obtain ⟨r, hr, h⟩ := bind_eq_ok.mp h
    obtain ⟨rs, hrs, h⟩ := bind_eq_ok.mp h
    cases h
    exact ⟨from_recipe hnumber hname hr, from_recipes hnumber hname hrs⟩
end

end Formula

namespace Expr
variable {α : Type}

/-- How the expression that a text denotes is put together. -/
def parseRecipe [Numeral α] (v : Vocabulary) (text : String) : Except ExprFault (Recipe α) := do
  let f ← Formula.read text
  f.recipe v

theorem parse_eq_map [Numeral α] (v : Vocabulary) (text : String) :
    (parse v text : Except ExprFault (Expr α)) = (parseRecipe v text).map Recipe.build := by
  rw [parse, parseRecipe]
  cases Formula.read text with
  | error cause => rfl
  | ok f => exact Formula.compile_eq_map v f

mutual
/-- How an expression with a replacement for a symbol is put together. -/
def substituteRecipe (e : Expr α) (name : String) (replacement : Expr α) : Recipe α :=
  match e with
  | number x => .given (number x)
  | constant c => .given (constant c)
  | symbol s => .given (if s == name then replacement else symbol s)
  | sum ts =>
    if containsAny name ts then .sum (substituteRecipes ts name replacement) else .given (sum ts)
  | product fs =>
    if containsAny name fs then .product (substituteRecipes fs name replacement)
    else .given (product fs)
  | power b e =>
    if b.contains name || e.contains name then
      .power (substituteRecipe b name replacement) (substituteRecipe e name replacement)
    else .given (power b e)
  | call f args =>
    if containsAny name args then .call f (substituteRecipes args name replacement)
    else .given (call f args)
def substituteRecipes (es : List (Expr α)) (name : String) (replacement : Expr α) :
    List (Recipe α) :=
  match es with
  | [] => []
  | e :: es => substituteRecipe e name replacement :: substituteRecipes es name replacement
end

section
variable [Scalar α]

mutual
theorem build_substituteRecipe (e : Expr α) (name : String) (r : Expr α) :
    (e.substituteRecipe name r).build = e.substitute name r := by
  match e with
  | number x | constant c | symbol s => rfl
  | sum ts | product ts | call _ ts =>
    rw [substituteRecipe, substitute]
    split_ifs
    · rw [Recipe.build, buildAll_substituteRecipes]
    · rfl
  | power b e =>
    rw [substituteRecipe, substitute]
    split_ifs
    · rw [Recipe.build, build_substituteRecipe, build_substituteRecipe]
    · rfl
theorem buildAll_substituteRecipes (es : List (Expr α)) (name : String) (r : Expr α) :
    Recipe.buildAll (substituteRecipes es name r) = substituteAll es name r := by
  match es with
  | [] => rfl
  | e :: es =>
    rw [substituteRecipes, Recipe.buildAll, substituteAll, build_substituteRecipe,
      buildAll_substituteRecipes]
end

end

/-- The property passes to all parts, and all numbers have it. -/
structure PassesDown (P : Expr α → Prop) : Prop where
  number (x : α) : P (number x)
  of_sum {ts : List (Expr α)} (h : P (Expr.sum ts)) : ∀ t ∈ ts, P t
  of_product {fs : List (Expr α)} (h : P (Expr.product fs)) : ∀ f ∈ fs, P f
  of_power {b e : Expr α} (h : P (Expr.power b e)) : P b ∧ P e
  of_call {f : Elementary} {args : List (Expr α)} (h : P (Expr.call f args)) : ∀ a ∈ args, P a

namespace PassesDown
variable {P : Expr α → Prop}

mutual
theorem from_substituteRecipe (H : PassesDown P) {name : String} {r : Expr α} (hr : P r)
    {e : Expr α} (h : P e) : (e.substituteRecipe name r).From P := by
  match e with
  | .number x | .constant c => exact h
  | .symbol s =>
    rw [substituteRecipe]
    split_ifs
    · exact hr
    · exact h
  | .sum ts =>
    rw [substituteRecipe]
    split_ifs
    · exact fromAll_substituteRecipes H hr (H.of_sum h)
    · exact h
  | .product fs =>
    rw [substituteRecipe]
    split_ifs
    · exact fromAll_substituteRecipes H hr (H.of_product h)
    · exact h
  | .power b e =>
    rw [substituteRecipe]
    split_ifs
    · exact ⟨from_substituteRecipe H hr (H.of_power h).1, from_substituteRecipe H hr (H.of_power h).2⟩
    · exact h
  | .call f args =>
    rw [substituteRecipe]
    split_ifs
    · exact fromAll_substituteRecipes H hr (H.of_call h)
    · exact h
theorem fromAll_substituteRecipes (H : PassesDown P) {name : String} {r : Expr α} (hr : P r)
    {es : List (Expr α)} (h : ∀ e ∈ es, P e) : Recipe.FromAll P (substituteRecipes es name r) := by
  match es with
  | [] => trivial
  | e :: es =>
    rw [List.forall_mem_cons] at h
    exact ⟨from_substituteRecipe H hr h.1, fromAll_substituteRecipes H hr h.2⟩
end

end PassesDown

section
variable [Scalar α]

def productRecipes (before : List (Expr α)) : List (Expr α) → List (Recipe α) → List (Recipe α)
  | f :: fs, d :: ds =>
    let later := productRecipes (before ++ [f]) fs ds
    if d.build.isZero then later else .product ((before ++ fs).map .given ++ [d]) :: later
  | _, _ => []

def powerRecipe (b e : Expr α) (db : Recipe α) : Recipe α :=
  .product [.given e, .power (.given b) (.sum [.given e, .minusOne]), db]

def exponentialRecipe (b e : Expr α) (db de : Recipe α) : Recipe α :=
  let logTerm := .product [de, .call .log [.given b]]
  let ratioTerm := .product [.given e, db, .power (.given b) .minusOne]
  .product [.power (.given b) (.given e), .sum [logTerm, ratioTerm]]

def outerRecipe (f : Elementary) (x : Expr α) : Recipe α :=
  let arg := .given x
  let rootArg := .sub (.given (.number Scalar.one)) (.square arg)
  match f with
  | .sin => .call .cos [arg]
  | .cos => .neg (.call .sin [arg])
  | .tan => .power (.call .cos [arg]) (.given (.number (-Scalar.two)))
  | .asin => .power rootArg (.given (.number (-Scalar.half)))
  | .acos => .neg (.power rootArg (.given (.number (-Scalar.half))))
  | .atan => .power (.sum [.given (.number Scalar.one), .square arg]) .minusOne
  | .sinh => .call .cosh [arg]
  | .cosh => .call .sinh [arg]
  | .tanh => .power (.call .cosh [arg]) (.given (.number (-Scalar.two)))
  | .exp => .call .exp [arg]
  | .log => .power arg .minusOne
  | .abs => .div arg (.call .abs [arg])
  | .atan2 => .given (.number Scalar.zero)

def angleRecipe (y x : Expr α) (dy dx : Recipe α) : Recipe α :=
  .div (.sub (.product [.given x, dy]) (.product [.given y, dx]))
    (.sum [.square (.given x), .square (.given y)])

def chainRecipe (f : Elementary) (args : List (Expr α)) (derivatives : List (Recipe α)) :
    Recipe α :=
  match f, args, derivatives with
  | .atan2, [y, x], [dy, dx] => angleRecipe y x dy dx
  | .atan2, _, _ => .given (.number Scalar.zero)
  | f, x :: _, dx :: _ => .product [outerRecipe f x, dx]
  | _, _, _ => .given (.number Scalar.zero)

mutual
/-- How the partial derivative by a symbol is put together. -/
def derivativeRecipe (name : String) : Expr α → Recipe α
  | number _ | constant _ => .given (number Scalar.zero)
  | symbol s => .given (number (if s == name then Scalar.one else Scalar.zero))
  | sum ts =>
    if containsAny name ts then .sum (derivativeRecipes name ts)
    else .given (number Scalar.zero)
  | product fs =>
    if containsAny name fs then .sum (productRecipes [] fs (derivativeRecipes name fs))
    else .given (number Scalar.zero)
  | power b e =>
    if e.contains name then
      exponentialRecipe b e (derivativeRecipe name b) (derivativeRecipe name e)
    else if b.contains name then powerRecipe b e (derivativeRecipe name b)
    else .given (number Scalar.zero)
  | call f args =>
    if containsAny name args then chainRecipe f args (derivativeRecipes name args)
    else .given (number Scalar.zero)
def derivativeRecipes (name : String) : List (Expr α) → List (Recipe α)
  | [] => []
  | e :: es => derivativeRecipe name e :: derivativeRecipes name es
end

lemma buildAll_productRecipes (before fs : List (Expr α)) (ds : List (Recipe α)) :
    Recipe.buildAll (productRecipes before fs ds) = productTerms before fs (Recipe.buildAll ds) := by
  have hgiven (es : List (Expr α)) (d : Recipe α) :
      Recipe.buildAll (es.map .given ++ [d]) = es ++ [d.build] := by
    induction es with
    | nil => rfl
    | cons e es ih => simp [Recipe.buildAll, Recipe.build, ih]
  fun_induction productRecipes before fs ds with
  | case1 before f fs d ds later hzero ih => simpa [productTerms, Recipe.buildAll, hzero] using ih
  | case2 before f fs d ds later hzero ih =>
    rw [Recipe.buildAll, Recipe.build, hgiven, Recipe.buildAll, productTerms, ih]
    simp [hzero]
  | case3 before fs ds h =>
    cases fs <;> cases ds <;> simp_all [productTerms, Recipe.buildAll]

lemma build_outerRecipe (f : Elementary) (x : Expr α) :
    (outerRecipe f x).build = outerDerivative f x := by
  cases f <;> rfl

lemma build_chainRecipe (f : Elementary) (args : List (Expr α)) (ds : List (Recipe α)) :
    (chainRecipe f args ds).build = chainRule f args (Recipe.buildAll ds) := by
  cases f with
  | atan2 =>
    match args, ds with
    | [_, _], [_, _] => rfl
    | [], _ | [_], _ | _ :: _ :: _ :: _, _ => rfl
    | [_, _], [] | [_, _], [_] | [_, _], _ :: _ :: _ :: _ => rfl
  | _ =>
    match args, ds with
    | [], _ | _ :: _, [] => rfl
    | x :: _, d :: _ =>
      simp only [chainRecipe, chainRule, Recipe.build, Recipe.buildAll, build_outerRecipe]

mutual
theorem build_derivativeRecipe (name : String) (e : Expr α) :
    (derivativeRecipe name e).build = derivative name e := by
  match e with
  | number x | constant c | symbol s => rfl
  | sum ts =>
    rw [derivativeRecipe, derivative]
    split_ifs
    · rw [Recipe.build, buildAll_derivativeRecipes]
    · rfl
  | product fs =>
    rw [derivativeRecipe, derivative]
    split_ifs
    · rw [Recipe.build, buildAll_productRecipes, buildAll_derivativeRecipes]
    · rfl
  | power b e =>
    rw [derivativeRecipe, derivative, ← build_derivativeRecipe name b,
      ← build_derivativeRecipe name e]
    split_ifs <;> rfl
  | call f args =>
    rw [derivativeRecipe, derivative]
    split_ifs
    · rw [build_chainRecipe, buildAll_derivativeRecipes]
    · rfl
theorem buildAll_derivativeRecipes (name : String) (es : List (Expr α)) :
    Recipe.buildAll (derivativeRecipes name es) = derivativeAll name es := by
  match es with
  | [] => rfl
  | e :: es =>
    rw [derivativeRecipes, Recipe.buildAll, derivativeAll, build_derivativeRecipe,
      buildAll_derivativeRecipes]
end

namespace PassesDown
variable {P : Expr α → Prop}

lemma fromAll_productRecipes {before fs : List (Expr α)} {ds : List (Recipe α)}
    (hbefore : ∀ f ∈ before, P f) (hfs : ∀ f ∈ fs, P f) (hds : Recipe.FromAll P ds) :
    Recipe.FromAll P (productRecipes before fs ds) := by
  have hgiven (es : List (Expr α)) (d : Recipe α) (hes : ∀ e ∈ es, P e) (hd : d.From P) :
      Recipe.FromAll P (es.map .given ++ [d]) := by
    induction es with
    | nil => exact ⟨hd, trivial⟩
    | cons e es ih =>
      rw [List.forall_mem_cons] at hes
      exact ⟨hes.1, ih hes.2⟩
  fun_induction productRecipes before fs ds with
  | case1 before f fs d ds later hzero ih =>
    rw [List.forall_mem_cons] at hfs
    exact ih (by simpa [or_imp, forall_and] using ⟨hbefore, hfs.1⟩) hfs.2 hds.2
  | case2 before f fs d ds later hzero ih =>
    rw [List.forall_mem_cons] at hfs
    refine ⟨hgiven _ _ ?_ hds.1, ih ?_ hfs.2 hds.2⟩
    · simpa [or_imp, forall_and] using ⟨hbefore, hfs.2⟩
    · simpa [or_imp, forall_and] using ⟨hbefore, hfs.1⟩
  | case3 => trivial

variable (H : PassesDown P)
include H

lemma from_powerRecipe {b e : Expr α} {db : Recipe α} (hb : P b) (he : P e) (hdb : db.From P) :
    (powerRecipe b e db).From P :=
  ⟨he, ⟨hb, he, H.number _, trivial⟩, hdb, trivial⟩

lemma from_exponentialRecipe {b e : Expr α} {db de : Recipe α} (hb : P b) (he : P e)
    (hdb : db.From P) (hde : de.From P) : (exponentialRecipe b e db de).From P :=
  ⟨⟨hb, he⟩, ⟨⟨hde, ⟨hb, trivial⟩, trivial⟩, ⟨he, hdb, ⟨hb, H.number _⟩, trivial⟩, trivial⟩, trivial⟩

lemma from_outerRecipe (f : Elementary) {x : Expr α} (h : P x) : (outerRecipe f x).From P := by
  cases f <;>
    simp [outerRecipe, Recipe.From, Recipe.FromAll, Recipe.neg, Recipe.sub, Recipe.div,
      Recipe.square, Recipe.minusOne, H.number, h]

lemma from_angleRecipe {y x : Expr α} {dy dx : Recipe α} (hy : P y) (hx : P x) (hdy : dy.From P)
    (hdx : dx.From P) : (angleRecipe y x dy dx).From P := by
  simp [angleRecipe, Recipe.From, Recipe.FromAll, Recipe.neg, Recipe.sub, Recipe.div,
    Recipe.square, Recipe.minusOne, H.number, hy, hx, hdy, hdx]

lemma from_chainRecipe {f : Elementary} {args : List (Expr α)} {ds : List (Recipe α)}
    (hargs : ∀ a ∈ args, P a) (hds : Recipe.FromAll P ds) : (chainRecipe f args ds).From P := by
  unfold chainRecipe
  split
  · simp only [List.mem_cons, List.not_mem_nil, or_false, forall_eq_or_imp, forall_eq] at hargs
    exact H.from_angleRecipe hargs.1 hargs.2 hds.1 hds.2.1
  · exact H.number _
  · rw [List.forall_mem_cons] at hargs
    exact ⟨H.from_outerRecipe _ hargs.1, hds.1, trivial⟩
  · exact H.number _

omit H

mutual
theorem from_derivativeRecipe (H : PassesDown P) (name : String) {e : Expr α} (h : P e) :
    (derivativeRecipe name e).From P := by
  match e with
  | .number x | .constant c | .symbol s => exact H.number _
  | .sum ts =>
    rw [derivativeRecipe]
    split_ifs
    · exact fromAll_derivativeRecipes H name (H.of_sum h)
    · exact H.number _
  | .product fs =>
    rw [derivativeRecipe]
    split_ifs
    · exact fromAll_productRecipes (by simp) (H.of_product h)
        (fromAll_derivativeRecipes H name (H.of_product h))
    · exact H.number _
  | .power b e =>
    obtain ⟨hb, he⟩ := H.of_power h
    rw [derivativeRecipe]
    split_ifs
    · exact H.from_exponentialRecipe hb he (from_derivativeRecipe H name hb)
        (from_derivativeRecipe H name he)
    · exact H.from_powerRecipe hb he (from_derivativeRecipe H name hb)
    · exact H.number _
  | .call f args =>
    rw [derivativeRecipe]
    split_ifs
    · exact H.from_chainRecipe (H.of_call h) (fromAll_derivativeRecipes H name (H.of_call h))
    · exact H.number _
theorem fromAll_derivativeRecipes (H : PassesDown P) (name : String) {es : List (Expr α)}
    (h : ∀ e ∈ es, P e) : Recipe.FromAll P (derivativeRecipes name es) := by
  match es with
  | [] => trivial
  | e :: es =>
    rw [List.forall_mem_cons] at h
    exact ⟨from_derivativeRecipe H name h.1, fromAll_derivativeRecipes H name h.2⟩
end

end PassesDown

end

end Expr

end EquationCompiler
