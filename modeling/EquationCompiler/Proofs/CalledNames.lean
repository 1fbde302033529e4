import EquationCompiler.Number.Machine
import EquationCompiler.Proofs.Construction
import EquationCompiler.Proofs.MachineText
import EquationCompiler.Proofs.ResolveSteps
import EquationCompiler.Proofs.WrittenFormula
import EquationCompiler.Record.Line

/-!
# The names that a text calls

A formula may only apply functions whose names are not taken by parameters. The text
of an equation has more applications than that: powers and square roots are calls in
C++, an absolute value has another name there, and derivatives bring in functions of
their own. The names of these may be those of parameters, and no others are.
-/
namespace EquationCompiler

namespace Expr
variable {α : Type}

mutual
/-- The functions that are applied, in order of occurrence. -/
def functions : Expr α → List Elementary
  | number _ | constant _ | symbol _ => []
  | sum es | product es => functionsAll es
  | power b e => b.functions ++ e.functions
  | call f es => f :: functionsAll es
def functionsAll : List (Expr α) → List Elementary
  | [] => []
  | e :: es => e.functions ++ functionsAll es
end

lemma mem_functionsAll {f : Elementary} {es : List (Expr α)} :
    f ∈ functionsAll es ↔ ∃ e ∈ es, f ∈ e.functions := by
  induction es with
  | nil => simp [functionsAll]
  | cons e es ih => simp [functionsAll, ih]

/-- All functions in the expression have a property. -/
def OnlyApplies (F : Elementary → Prop) (e : Expr α) : Prop := ∀ f ∈ e.functions, F f

section
variable {F G : Elementary → Prop}

lemma OnlyApplies.mono {e : Expr α} (h : e.OnlyApplies F) (hFG : ∀ f, F f → G f) :
    e.OnlyApplies G := fun f hf => hFG f (h f hf)

lemma onlyApplies_call {f : Elementary} {args : List (Expr α)} :
    (call f args).OnlyApplies F ↔ F f ∧ ∀ a ∈ args, a.OnlyApplies F := by
  simp only [OnlyApplies, functions, List.forall_mem_cons, mem_functionsAll]
  exact and_congr_right' ⟨fun h a ha f hf => h f ⟨a, ha, hf⟩, fun h f ⟨a, ha, hf⟩ => h a ha f hf⟩

lemma inherited_onlyApplies (F : Elementary → Prop) :
    Inherited (OnlyApplies F : Expr α → Prop) where
  number x := by simp [OnlyApplies, functions]
  sum hne h f hf := by
    obtain ⟨t, ht, hft⟩ := mem_functionsAll.mp hf
    exact h t ht f hft
  of_sum h t ht f hf := h f (mem_functionsAll.mpr ⟨t, ht, hf⟩)
  product h f hf := by
    obtain ⟨g, hg, hfg⟩ := mem_functionsAll.mp hf
    exact h g hg f hfg
  of_product h g hg f hf := h f (mem_functionsAll.mpr ⟨g, hg, hf⟩)
  power hb he f hf := (List.mem_append.mp hf).elim (hb f) (he f)
  of_power h := ⟨fun f hf => h f (List.mem_append_left _ hf),
    fun f hf => h f (List.mem_append_right _ hf)⟩
  of_call h := (onlyApplies_call.mp h).2

variable [Scalar α]

lemma OnlyApplies.substitute {name : String} {e r : Expr α} (he : e.OnlyApplies F)
    (hr : r.OnlyApplies F) : (e.substitute name r).OnlyApplies F := by
  refine (inherited_onlyApplies F).substitute (inherited_onlyApplies F) ?_ (fun h _ => h) hr he
  intro f args args' h _ hargs
  exact onlyApplies_call.mpr ⟨(onlyApplies_call.mp h).1, hargs⟩

/-- The functions that derivatives bring in. -/
def derivativeFunctions : List Elementary := [.sin, .cos, .sinh, .cosh, .log]

lemma OnlyApplies.derivative (name : String) {e : Expr α} (h : e.OnlyApplies F) :
    (derivative name e).OnlyApplies fun f => F f ∨ f ∈ derivativeFunctions := by
  have hnew : ∀ f g : Elementary, g ∈ outerFunctions f → g = f ∨ g ∈ derivativeFunctions := by
    intro f g hg
    cases f <;> simp_all [outerFunctions, derivativeFunctions]
  have H : Differential (OnlyApplies (fun f => F f ∨ f ∈ derivativeFunctions) : Expr α → Prop) := by
    refine ⟨inherited_onlyApplies _, ?_, ?_⟩
    · intro e he
      exact onlyApplies_call.mpr ⟨.inr (by simp [derivativeFunctions]), by simpa using he⟩
    · intro f g x args hg hcall
      obtain ⟨hf, hargs⟩ := onlyApplies_call.mp hcall
      refine onlyApplies_call.mpr ⟨?_, by simpa using hargs x List.mem_cons_self⟩
      rcases hnew f g hg with rfl | hg
      · exact hf
      · exact .inr hg
  exact H.derivative name (h.mono fun _ => .inl)

end

/-- No function has been read whose name is in the vocabulary. -/
theorem onlyApplies_parse [Numeral α] {v : Vocabulary} {text : String} {e : Expr α}
    (h : parse v text = .ok e) : e.OnlyApplies fun f => v.contains f.name = false := by
  obtain ⟨f, -, hcompile⟩ := Formula.bind_eq_ok.mp h
  have H := inherited_onlyApplies (α := α) fun f => v.contains f.name = false
  refine Formula.algebraic_compile H.toAlgebraic ?_ ?_ hcompile
  · intro g args e hargs happlication
    unfold Formula.application at happlication
    split_ifs at happlication with hv hsqrt
    · split at happlication
      · cases happlication
        exact H.pow (hargs _ (by simp)) (H.number _)
      · cases happlication
    · split at happlication
      · cases happlication
      · next k hk =>
        split_ifs at happlication
        cases happlication
        refine H.apply_of_call (onlyApplies_call.mpr ⟨?_, hargs⟩)
        rw [Formula.name_of_elementary_ofName? hk]
        exact Bool.eq_false_iff.mpr hv
  · intro s hs
    unfold Formula.identifier
    split_ifs
    · simp [OnlyApplies, functions]
    · split <;> simp [OnlyApplies, functions]

end Expr

/-- All names that are applied have a property. -/
def Formula.OnlyCalls (A : String → Prop) (f : Formula) : Prop := ∀ s, ⟨s, true⟩ ∈ f.uses → A s

namespace Formula
variable {A : String → Prop}

@[simp] lemma onlyCalls_number (literal : String) : (number literal).OnlyCalls A := by
  simp [OnlyCalls, uses]

@[simp] lemma onlyCalls_name (s : String) : (name s).OnlyCalls A := by
  simp [OnlyCalls, uses]

@[simp] lemma onlyCalls_negation {f : Formula} : (negation f).OnlyCalls A ↔ f.OnlyCalls A := Iff.rfl

@[simp] lemma onlyCalls_sum {f g : Formula} :
    (sum f g).OnlyCalls A ↔ f.OnlyCalls A ∧ g.OnlyCalls A := by
  simp [OnlyCalls, uses, or_imp, forall_and]

@[simp] lemma onlyCalls_difference {f g : Formula} :
    (difference f g).OnlyCalls A ↔ f.OnlyCalls A ∧ g.OnlyCalls A := by
  simp [OnlyCalls, uses, or_imp, forall_and]

@[simp] lemma onlyCalls_product {f g : Formula} :
    (product f g).OnlyCalls A ↔ f.OnlyCalls A ∧ g.OnlyCalls A := by
  simp [OnlyCalls, uses, or_imp, forall_and]

@[simp] lemma onlyCalls_quotient {f g : Formula} :
    (quotient f g).OnlyCalls A ↔ f.OnlyCalls A ∧ g.OnlyCalls A := by
  simp [OnlyCalls, uses, or_imp, forall_and]

@[simp] lemma onlyCalls_power {f g : Formula} :
    (power f g).OnlyCalls A ↔ f.OnlyCalls A ∧ g.OnlyCalls A := by
  simp [OnlyCalls, uses, or_imp, forall_and]

lemma mem_usesAll {u : NameUse} {fs : List Formula} : u ∈ usesAll fs ↔ ∃ f ∈ fs, u ∈ f.uses := by
  induction fs with
  | nil => simp [usesAll]
  | cons f fs ih => simp [usesAll, ih]

@[simp] lemma onlyCalls_call {s : String} {args : List Formula} :
    (call s args).OnlyCalls A ↔ A s ∧ ∀ a ∈ args, a.OnlyCalls A := by
  simp only [OnlyCalls, uses, List.mem_cons, NameUse.mk.injEq, and_true, or_imp, forall_and,
    forall_eq, mem_usesAll]
  refine and_congr_right' ⟨fun h a ha s hs => h s ⟨a, ha, hs⟩, fun h s hs => ?_⟩
  obtain ⟨a, ha, hs⟩ := hs
  exact h a ha s hs

end Formula

lemma Formula.compositional_onlyCalls (A : String → Prop) : Compositional (OnlyCalls A) where
  negation h := h
  sum hf hg := onlyCalls_sum.mpr ⟨hf, hg⟩
  difference hf hg := onlyCalls_difference.mpr ⟨hf, hg⟩
  product hf hg := onlyCalls_product.mpr ⟨hf, hg⟩
  quotient hf hg := onlyCalls_quotient.mpr ⟨hf, hg⟩

/-- The same for a formula as it stands in a text. -/
def Layout.OnlyCalls (A : String → Prop) (l : Layout) : Prop :=
  l.head.OnlyCalls A ∧ ∀ i ∈ l.tail, i.2.OnlyCalls A

lemma Layout.OnlyCalls.formula {A : String → Prop} {l : Layout} (h : l.OnlyCalls A) :
    l.formula.OnlyCalls A :=
  All.formula (Formula.compositional_onlyCalls A) (all_iff.mpr h)

namespace Expr
variable {α : Type} [Numeral α] {d : Dialect} {A : String → Prop}

lemma onlyCalls_numeral (x : α) (divides : Bool) : (d.numeral x divides).OnlyCalls A := by
  have hunsigned (cs : List Char) : (Dialect.unsignedFormula cs).OnlyCalls A := by
    unfold Dialect.unsignedFormula
    split_ifs <;> simp
  unfold Dialect.numeral Dialect.numberFormula
  split
  · exact hunsigned _
  · exact hunsigned _

/-- Powers and roots are calls, and functions are called by their names in the dialect. -/
def CallNames (d : Dialect) (F : Elementary → Prop) (s : String) : Prop :=
  s = "pow" ∨ s = "sqrt" ∨ ∃ f, F f ∧ s = d.function f

lemma writing_onlyCalls (d : Dialect) (F : Elementary → Prop) :
    Writing d (OnlyApplies F : Expr α → Prop) (Formula.OnlyCalls (CallNames d F)) where
  toCompositional := Formula.compositional_onlyCalls _
  inherited := inherited_onlyApplies F
  numeral := onlyCalls_numeral
  symbol _ := Formula.onlyCalls_name _
  constant _ := Formula.onlyCalls_name _
  empty _ := Formula.onlyCalls_name _
  root h := by simpa using ⟨.inr (.inl rfl), h⟩
  power hf hg := by
    cases d with
    | cpp => simpa using ⟨.inl rfl, hf, hg⟩
    | formula => simpa using ⟨hf, hg⟩
  call h _ hgs := Formula.onlyCalls_call.mpr ⟨.inr (.inr ⟨_, (onlyApplies_call.mp h).1, rfl⟩), hgs⟩

/-- What is written for an expression calls nothing else. -/
theorem onlyCalls_written [SignedScalar α] {F : Elementary → Prop} {e : Expr α}
    (he : e.OnlyApplies F) : (e.written d).OnlyCalls (CallNames d F) := by
  have hlayout : (layoutIn d (2 * e.weight + 2) e).OnlyCalls (CallNames d F) :=
    Layout.all_iff.mp ((writing_onlyCalls d F).layoutIn he e.bulk_lt_rounds)
  exact hlayout.formula

/-- The names that the C++ text of an expression calls. -/
theorem calls_toCpp [Legible α] {F : Elementary → Prop} {e : Expr α} {cpp s : String}
    (hwritable : e.Writable) (he : e.OnlyApplies F) (hcpp : e.toCpp = .ok cpp)
    (hs : ⟨s, true⟩ ∈ Token.uses (Token.tokens cpp.toList)) : CallNames .cpp F s := by
  have htext : cpp = (e.print .cpp).text := by
    unfold toCpp at hcpp
    split at hcpp
    · cases hcpp
    · exact (Except.ok.inj hcpp).symm
  rw [htext, Formula.uses_of_isSum (Formula.isSum_of_read (read_print .cpp hwritable))] at hs
  exact onlyCalls_written he s hs

end Expr

namespace Equation
variable {α : Type} [Numeral α]

/-- No function of the expression is called like a parameter. -/
theorem onlyApplies_resolve {r : Record} {e : Equation α} (h : resolve r = .ok e) :
    e.expression.OnlyApplies fun f => f.name ∉ e.parameters := by
  rw [parameters_resolve h]
  refine resolve_induction (fun _ hv hparse => ?_) (fun he hr => he.substitute hr) h
  refine (Expr.onlyApplies_parse hparse).mono fun f hf hmem => ?_
  rw [hv _ hmem] at hf
  cases hf

lemma formed_resolve {r : Record} {e : Equation α} (h : resolve r = .ok e) :
    Expr.Formed (fun s => Token.IsName s.toList) e.expression :=
  resolve_induction (fun _ _ hparse => Expr.formed_parse hparse) (fun he hr => hr.substitute he) h

lemma writable_resolve {r : Record} {e : Equation α} (h : resolve r = .ok e) :
    e.expression.Writable :=
  (formed_resolve h).writable

lemma function_of_not_mem {f : Elementary} {names : List String} (hf : f.name ∉ names)
    (hmem : Dialect.cpp.function f ∈ names) : Dialect.cpp.function f = "fabs" := by
  cases f with
  | abs => rfl
  | _ => exact absurd hmem hf

/-- A text of an equation calls a name that a parameter shadows only where it says a power, a square
root or an absolute value in C++, and a derivative also where it has brought in a function. -/
theorem shadowed_calls [Legible α] {r : Record} {e : Equation α} (h : resolve r = .ok e)
    {d : Expr α} (hd : d = e.expression ∨ d ∈ e.gradient) {cpp : String} (hcpp : d.toCpp = .ok cpp)
    {s : String} (hs : s ∈ e.parameters)
    (hcall : ⟨s, true⟩ ∈ Token.uses (Token.tokens cpp.toList)) :
    s ∈ ["pow", "sqrt", "fabs"] ∨
      d ∈ e.gradient ∧ s ∈ ["sin", "cos", "sinh", "cosh", "log"] := by
  have hfunctions := onlyApplies_resolve h
  have hwritable := writable_resolve h
  rcases hd with rfl | hd
  · left
    rcases Expr.calls_toCpp hwritable hfunctions hcpp hcall with rfl | rfl | ⟨f, hf, rfl⟩
    · simp
    · simp
    · simp [function_of_not_mem hf hs]
  · obtain ⟨name, -, rfl⟩ := List.mem_map.mp hd
    have hderivative := Expr.hereditary_writable.derivative name hwritable
    rcases Expr.calls_toCpp hderivative (hfunctions.derivative name) hcpp hcall
      with rfl | rfl | ⟨f, hf | hf, rfl⟩
    · simp
    · simp
    · simp [function_of_not_mem hf hs]
    · refine .inr ⟨hd, ?_⟩
      revert hf
      cases f <;> simp [Expr.derivativeFunctions, Dialect.function, Elementary.name]

/-- In this line the parameter `pow` shadows the power, which the expression calls, and `log` the
logarithm, which only the derivative by it calls. -/
theorem shadowed_calls_power :
    ∃ (line : List Char) (r : Record) (e : Equation Float) (d : Expr Float),
      Line.classify "f(pow, log) = pow**3 + 2**log".toList = .record line ∧
        Record.split 1 line = .ok r ∧ resolve r = .ok e ∧ e.parameters = ["pow", "log"] ∧
        e.expression.toCpp = .ok "pow(pow, 3) + pow(2, log)" ∧ d.toCpp = .ok "pow(2, log)*log(2)" ∧
        "pow" ∈ ["pow", "sqrt", "fabs"] ∧
        d ∈ e.gradient ∧ "log" ∈ ["sin", "cos", "sinh", "cosh", "log"] := by
  let r : Record := ⟨1, "f", ["pow", "log"], [], "pow**3 + 2**log"⟩
  have htexts : ((resolve r : Except Failure (Equation Float)).toOption.map fun e =>
      (e.parameters, e.expression.toCpp.toOption, e.gradient.map fun d => d.toCpp.toOption)) =
      some (["pow", "log"], some "pow(pow, 3) + pow(2, log)",
        [some "3*pow(pow, 2)", some "pow(2, log)*log(2)"]) := by decide +kernel
  obtain ⟨e, he, heq⟩ := Option.map_eq_some_iff.mp htexts
  have hresolve := Formula.eq_ok_of_toOption he
  simp only [Prod.mk.injEq] at heq
  obtain ⟨hparameters, hexpression, hgradient⟩ := heq
  obtain ⟨d', ds, hds, -, hrest⟩ := List.map_eq_cons_iff.mp hgradient
  obtain ⟨d, ds', rfl, hd, -⟩ := List.map_eq_cons_iff.mp hrest
  have hmem : d ∈ e.gradient := by simp [hds]
  have hcpp := Formula.eq_ok_of_toOption hexpression
  have hdcpp := Formula.eq_ok_of_toOption hd
  have hpow := shadowed_calls hresolve (.inl rfl) hcpp (s := "pow") (by simp [hparameters])
    (by decide +kernel)
  have hlog := shadowed_calls hresolve (.inr hmem) hdcpp (s := "log") (by simp [hparameters])
    (by decide +kernel)
  refine ⟨"f(pow, log) = pow**3 + 2**log".toList, r, e, d, by decide +kernel, by decide +kernel,
    hresolve, hparameters, hcpp, hdcpp, ?_, hmem, ?_⟩
  · exact hpow.elim id fun h => absurd h.2 (by decide)
  · exact hlog.elim (fun h => absurd h (by decide)) And.right

end Equation

end EquationCompiler
