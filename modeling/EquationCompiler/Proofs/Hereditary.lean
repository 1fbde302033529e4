import EquationCompiler.Expr.Derivative
import EquationCompiler.Expr.Substitute
import EquationCompiler.Formula.Compile
import EquationCompiler.Proofs.Identifiers

/-!
# Hereditary properties

A property that passes from an expression to its parts and back, and that all
numbers have, passes from the operands of the simplifying constructors to their
results, and from an expression to its derivatives. The proofs follow the
constructors step by step and are made once for all such properties.

Sums, products and powers only need the property to be algebraic, which leaves open
what it says on functions.
-/
namespace EquationCompiler.Expr
variable {α : Type}

/-- The property passes to the parts of sums, products and powers and back. Going back, a sum has
to have terms. -/
structure Algebraic (P : Expr α → Prop) : Prop where
  number (x : α) : P (number x)
  sum {ts : List (Expr α)} (hne : ts ≠ []) (h : ∀ t ∈ ts, P t) : P (sum ts)
  of_sum {ts : List (Expr α)} (h : P (Expr.sum ts)) : ∀ t ∈ ts, P t
  product {fs : List (Expr α)} (h : ∀ f ∈ fs, P f) : P (product fs)
  of_product {fs : List (Expr α)} (h : P (Expr.product fs)) : ∀ f ∈ fs, P f
  power {b e : Expr α} (hb : P b) (he : P e) : P (power b e)
  of_power {b e : Expr α} (h : P (Expr.power b e)) : P b ∧ P e

/-- The property passes to all parts, and back unless they are arguments. -/
structure Inherited (P : Expr α → Prop) : Prop extends Algebraic P where
  of_call {f : Elementary} {args : List (Expr α)} (h : P (Expr.call f args)) : ∀ a ∈ args, P a

/-- The property passes to all parts and back. Going back, a function has to have as many arguments
as it takes. -/
structure Hereditary (P : Expr α → Prop) : Prop extends Inherited P where
  call {f : Elementary} {args : List (Expr α)} (hlength : args.length = f.arity)
    (h : ∀ a ∈ args, P a) : P (call f args)

/-- The functions that the outer derivative of a function is made of. -/
def outerFunctions : Elementary → List Elementary
  | .sin | .tan => [.cos]
  | .cos => [.sin]
  | .sinh | .tanh => [.cosh]
  | .cosh => [.sinh]
  | .exp => [.exp]
  | .abs => [.abs]
  | .asin | .acos | .atan | .atan2 | .log => []

lemma arity_of_mem_outerFunctions {f g : Elementary} (h : g ∈ outerFunctions f) : g.arity = 1 := by
  cases f <;> simp only [outerFunctions, List.mem_singleton, List.not_mem_nil] at h <;> subst h <;>
    rfl

lemma length_substituteAll [Scalar α] (es : List (Expr α)) (name : String) (r : Expr α) :
    (substituteAll es name r).length = es.length := by
  induction es with
  | nil => rfl
  | cons e es ih => simp [substituteAll, ih]

lemma Collected.insert_of_ne_number [Scalar α] {e : Expr α} (h : ∀ x, e ≠ number x) (s : Collected α) :
    s.insert e = ⟨s.constant,
      collectTerm (splitCoefficient e).1 (splitCoefficient e).2 s.terms⟩ := by
  cases e with
  | number x => exact absurd rfl (h x)
  | _ => rfl

lemma Powers.insert_of_ne_number [Scalar α] {e : Expr α} (h : ∀ x, e ≠ number x)
    (add : List (Expr α) → Expr α) (p : Powers α) :
    p.insert add e = ⟨p.coefficient,
      collectPower add (splitPower e).1 (splitPower e).2 p.powers⟩ := by
  cases e with
  | number x => exact absurd rfl (h x)
  | _ => rfl

/-- What all collected terms have in common is kept when one is added. -/
lemma forall_mem_collectTerm [Scalar α] {P : Expr α → Prop} {c : α} {rest : Expr α}
    {ts : List (α × Expr α)} (hrest : P rest) (hts : ∀ t ∈ ts, P t.2) :
    ∀ t ∈ collectTerm c rest ts, P t.2 := by
  induction ts with
  | nil => simpa [collectTerm] using hrest
  | cons t ts ih =>
    rw [List.forall_mem_cons] at hts
    simp only [collectTerm]
    split_ifs
    · exact List.forall_mem_cons.mpr hts
    · exact List.forall_mem_cons.mpr ⟨hts.1, ih hts.2⟩

mutual
/-- What passes to the terms of a sum passes to the terms of these, and so on. -/
lemma of_mem_terms {P : Expr α → Prop} (hsum : ∀ {ts}, P (sum ts) → ∀ t ∈ ts, P t) {e t : Expr α}
    (he : P e) (ht : t ∈ e.terms) : P t := by
  cases e with
  | sum ts => exact of_mem_termsAll hsum (hsum he) ht
  | _ => rwa [List.mem_singleton.mp ht]
lemma of_mem_termsAll {P : Expr α → Prop} (hsum : ∀ {ts}, P (sum ts) → ∀ t ∈ ts, P t)
    {es : List (Expr α)} {t : Expr α} (hes : ∀ e ∈ es, P e) (ht : t ∈ termsAll es) : P t := by
  match es with
  | [] => cases ht
  | e :: es =>
    rw [List.forall_mem_cons] at hes
    rcases List.mem_append.mp ht with ht | ht
    · exact of_mem_terms hsum hes.1 ht
    · exact of_mem_termsAll hsum hes.2 ht
end

mutual
/-- What passes to the factors of a product passes to the factors of these, and so on. -/
lemma of_mem_factors {P : Expr α → Prop} (hproduct : ∀ {fs}, P (product fs) → ∀ f ∈ fs, P f)
    {e f : Expr α} (he : P e) (hf : f ∈ e.factors) : P f := by
  cases e with
  | product fs => exact of_mem_factorsAll hproduct (hproduct he) hf
  | _ => rwa [List.mem_singleton.mp hf]
lemma of_mem_factorsAll {P : Expr α → Prop} (hproduct : ∀ {fs}, P (product fs) → ∀ f ∈ fs, P f)
    {es : List (Expr α)} {f : Expr α} (hes : ∀ e ∈ es, P e) (hf : f ∈ factorsAll es) : P f := by
  match es with
  | [] => cases hf
  | e :: es =>
    rw [List.forall_mem_cons] at hes
    rcases List.mem_append.mp hf with hf | hf
    · exact of_mem_factors hproduct hes.1 hf
    · exact of_mem_factorsAll hproduct hes.2 hf
end

namespace Algebraic
variable {P : Expr α → Prop}

section
variable (H : Algebraic P)
include H

lemma collapse_product {es : List (Expr α)} (h : ∀ e ∈ es, P e) :
    P (collapse Expr.product es) := by
  unfold collapse
  split
  · simpa using h
  · exact H.product h

lemma collapse_sum {es : List (Expr α)} (hne : es ≠ []) (h : ∀ e ∈ es, P e) :
    P (collapse Expr.sum es) := by
  unfold collapse
  split
  · simpa using h
  · exact H.sum hne h

variable [Scalar α]

lemma splitCoefficient {e : Expr α} (h : P e) : P (splitCoefficient e).2 := by
  unfold Expr.splitCoefficient
  split
  · exact H.collapse_product (List.forall_mem_cons.mp (H.of_product h)).2
  · exact h

lemma collect {ts : List (Expr α)} (h : ∀ t ∈ ts, P t) : ∀ t ∈ (collect ts).terms, P t.2 := by
  have hinsert (ts : List (Expr α)) (s : Collected α) (hts : ∀ t ∈ ts, P t)
      (hs : ∀ t ∈ s.terms, P t.2) : ∀ t ∈ (ts.foldl Collected.insert s).terms, P t.2 := by
    induction ts generalizing s with
    | nil => exact hs
    | cons t ts ih =>
      rw [List.forall_mem_cons] at hts
      refine ih _ hts.2 ?_
      unfold Collected.insert
      split
      · exact hs
      · exact forall_mem_collectTerm (H.splitCoefficient hts.1) hs
  exact hinsert _ _ (fun t ht => of_mem_termsAll H.of_sum h ht) (by simp)

section
variable {mul : List (Expr α) → Expr α} (hmul : ∀ fs, (∀ f ∈ fs, P f) → P (mul fs))
include hmul

lemma addWith {ts : List (Expr α)} (h : ∀ t ∈ ts, P t) : P (addWith mul ts) := by
  have hkept : ∀ t ∈ (Expr.collect ts).terms.filterMap (restoreTerm mul), P t := by
    intro t ht
    obtain ⟨⟨c, rest⟩, hmem, hrestore⟩ := List.mem_filterMap.mp ht
    have hrest := H.collect h _ hmem
    simp only [restoreTerm] at hrestore
    split_ifs at hrestore
    · rwa [← Option.some.inj hrestore]
    · rw [← Option.some.inj hrestore]
      exact hmul _ (by simpa using ⟨H.number c, hrest⟩)
  unfold Expr.addWith
  dsimp only
  split
  · exact H.number _
  · next es hes =>
    refine H.collapse_sum (by simpa using hes) ?_
    split_ifs
    · exact hkept
    · exact List.forall_mem_cons.mpr ⟨H.number _, hkept⟩

end

lemma numberPower (b : α) {e : Expr α} (h : P e) : P (numberPower b e) := by
  have hpower := H.power (H.number b) h
  unfold Expr.numberPower
  split
  · dsimp only
    split
    · exact H.number _
    · split_ifs
      · exact H.number _
      · exact hpower
  · exact hpower

lemma powWith {mul : List (Expr α) → Expr α} (hmul : ∀ fs, (∀ f ∈ fs, P f) → P (mul fs))
    {b e : Expr α} (hb : P b) (he : P e) : P (powWith mul b e) := by
  fun_induction Expr.powWith mul b e with
  | case1 => exact H.number _
  | case2 => exact hb
  | case3 exponent _ b => exact H.numberPower b he
  | case4 exponent _ inner e p hp _ ih =>
    obtain ⟨hinner, he'⟩ := H.of_power hb
    exact ih hinner (hmul _ (by simpa using ⟨he', he⟩))
  | case5 | case6 => exact H.power hb he

omit H in
lemma collectPower {add : List (Expr α) → Expr α} (hadd : ∀ ts, (∀ t ∈ ts, P t) → P (add ts))
    {b e : Expr α} (hb : P b) (he : P e) {ps : List (Expr α × Expr α)}
    (hps : ∀ p ∈ ps, P p.1 ∧ P p.2) : ∀ p ∈ collectPower add b e ps, P p.1 ∧ P p.2 := by
  induction ps with
  | nil => simpa [Expr.collectPower] using ⟨hb, he⟩
  | cons p ps ih =>
    obtain ⟨hp, hps⟩ := List.forall_mem_cons.mp hps
    simp only [Expr.collectPower]
    split_ifs
    · exact List.forall_mem_cons.mpr ⟨⟨hp.1, hadd _ (by simpa using ⟨hp.2, he⟩)⟩, hps⟩
    · exact List.forall_mem_cons.mpr ⟨hp, ih hps⟩

lemma splitPower {e : Expr α} (h : P e) : P (splitPower e).1 ∧ P (splitPower e).2 := by
  unfold Expr.splitPower
  split
  · exact H.of_power h
  · exact ⟨h, H.number _⟩

lemma collectPowers {add : List (Expr α) → Expr α} (hadd : ∀ ts, (∀ t ∈ ts, P t) → P (add ts))
    {fs : List (Expr α)} (h : ∀ f ∈ fs, P f) :
    ∀ p ∈ (collectPowers add fs).powers, P p.1 ∧ P p.2 := by
  have hinsert (fs : List (Expr α)) (p : Powers α) (hfs : ∀ f ∈ fs, P f)
      (hp : ∀ q ∈ p.powers, P q.1 ∧ P q.2) :
      ∀ q ∈ (fs.foldl (Powers.insert add) p).powers, P q.1 ∧ P q.2 := by
    induction fs generalizing p with
    | nil => exact hp
    | cons f fs ih =>
      rw [List.forall_mem_cons] at hfs
      refine ih _ hfs.2 ?_
      unfold Powers.insert
      split
      · exact hp
      · obtain ⟨hb, he⟩ := H.splitPower hfs.1
        exact collectPower hadd hb he hp
  exact hinsert _ _ (fun f hf => of_mem_factorsAll H.of_product h hf) (by simp)

omit H in
lemma push {pow : Expr α → Expr α → Expr α} (hpow : ∀ b e, P b → P e → P (pow b e))
    {f : Folded α} {p : Expr α × Expr α} (hf : ∀ e ∈ f.factors, P e) (hp : P p.1 ∧ P p.2) :
    ∀ e ∈ (f.push pow p).factors, P e := by
  unfold Folded.push
  dsimp only
  split
  · exact hf
  · split
    · exact hf
    · intro e he
      rcases List.mem_append.mp he with he | he
      · exact hf e he
      · rw [List.mem_singleton.mp he]
        exact hpow _ _ hp.1 hp.2

lemma mulWith {add : List (Expr α) → Expr α} (hadd : ∀ ts, (∀ t ∈ ts, P t) → P (add ts))
    {pow : Expr α → Expr α → Expr α} (hpow : ∀ b e, P b → P e → P (pow b e))
    {fs : List (Expr α)} (h : ∀ f ∈ fs, P f) : P (mulWith add pow fs) := by
  have hpush (ps : List (Expr α × Expr α)) (f : Folded α) (hps : ∀ p ∈ ps, P p.1 ∧ P p.2)
      (hf : ∀ e ∈ f.factors, P e) : ∀ e ∈ (ps.foldl (Folded.push pow) f).factors, P e := by
    induction ps generalizing f with
    | nil => exact hf
    | cons p ps ih =>
      rw [List.forall_mem_cons] at hps
      exact ih _ hps.2 (push hpow hf hps.1)
  unfold Expr.mulWith
  dsimp only
  split_ifs
  · exact H.number _
  · have hfactors := hpush _ ⟨(Expr.collectPowers add fs).coefficient, []⟩
      (H.collectPowers hadd h) (by simp)
    unfold Folded.toExpr
    split_ifs
    · exact H.number _
    · exact H.number _
    · exact H.collapse_product hfactors
    · exact H.product (List.forall_mem_cons.mpr ⟨H.number _, hfactors⟩)

lemma mulAt (level : ℕ) {fs : List (Expr α)} (h : ∀ f ∈ fs, P f) : P (mulAt level fs) := by
  induction level generalizing fs with
  | zero => exact H.product h
  | succ level ih =>
    exact H.mulWith (fun _ => H.addWith fun _ => ih) (fun _ _ => H.powWith fun _ => ih) h

theorem mul {fs : List (Expr α)} (h : ∀ f ∈ fs, P f) : P (mul fs) := H.mulAt _ h

theorem add {ts : List (Expr α)} (h : ∀ t ∈ ts, P t) : P (add ts) := H.addWith (fun _ => H.mulAt _) h

theorem pow {b e : Expr α} (hb : P b) (he : P e) : P (pow b e) := H.powWith (fun _ => H.mulAt _) hb he

/-- If the function may be called, its folded application may be built. -/
lemma apply_of_call {f : Elementary} {args : List (Expr α)} (h : P (Expr.call f args)) :
    P (apply f args) := by
  unfold Expr.apply
  split
  · split
    · exact H.number _
    · exact h
  · exact h

theorem neg {e : Expr α} (h : P e) : P (neg e) := H.mul (by simpa using ⟨H.number _, h⟩)

theorem sub {a b : Expr α} (ha : P a) (hb : P b) : P (sub a b) :=
  H.add (by simpa using ⟨ha, H.neg hb⟩)

theorem div {a b : Expr α} (ha : P a) (hb : P b) : P (div a b) :=
  H.mul (by simpa using ⟨ha, H.pow hb (H.number _)⟩)

lemma productTerms {before fs ds : List (Expr α)} (hbefore : ∀ f ∈ before, P f)
    (hfs : ∀ f ∈ fs, P f) (hds : ∀ d ∈ ds, P d) : ∀ t ∈ productTerms before fs ds, P t := by
  fun_induction Expr.productTerms before fs ds with
  | case1 before f fs d ds later hz ih =>
    rw [List.forall_mem_cons] at hfs hds
    exact ih (by simpa [or_imp, forall_and] using ⟨hbefore, hfs.1⟩) hfs.2 hds.2
  | case2 before f fs d ds later hz ih =>
    rw [List.forall_mem_cons] at hfs hds
    refine List.forall_mem_cons.mpr ⟨H.mul ?_, ?_⟩
    · simpa [or_imp, forall_and] using ⟨hbefore, hfs.2, hds.1⟩
    · exact ih (by simpa [or_imp, forall_and] using ⟨hbefore, hfs.1⟩) hfs.2 hds.2
  | case3 => simp

lemma square {e : Expr α} (h : P e) : P (square e) := H.pow h (H.number _)

lemma powerRule {b e db : Expr α} (hb : P b) (he : P e) (hdb : P db) : P (powerRule b e db) := by
  have hlowered : P (Expr.add [e, Expr.number (-Scalar.one)]) := H.add (by simpa using ⟨he, H.number _⟩)
  exact H.mul (by simpa using ⟨he, H.pow hb hlowered, hdb⟩)

lemma exponentialRule {b e db de : Expr α} (hlogarithm : P (Expr.call .log [b])) (hb : P b)
    (he : P e) (hdb : P db) (hde : P de) : P (exponentialRule b e db de) := by
  have hlog : P (Expr.mul [de, Expr.apply .log [b]]) :=
    H.mul (by simpa using ⟨hde, H.apply_of_call hlogarithm⟩)
  have hratio : P (Expr.mul [e, db, Expr.pow b (Expr.number (-Scalar.one))]) :=
    H.mul (by simpa using ⟨he, hdb, H.pow hb (H.number _)⟩)
  exact H.mul (by simpa using ⟨H.pow hb he, H.add (by simpa using ⟨hlog, hratio⟩)⟩)

lemma outerDerivative {f : Elementary} {e : Expr α} (hf : ∀ g ∈ outerFunctions f, P (Expr.call g [e]))
    (h : P e) : P (outerDerivative f e) := by
  have hroot := H.pow (H.sub (H.number Scalar.one) (H.square h)) (H.number (-Scalar.half))
  cases f with
  | sin | sinh | cosh | exp => exact H.apply_of_call (hf _ (by simp [outerFunctions]))
  | cos => exact H.neg (H.apply_of_call (hf _ (by simp [outerFunctions])))
  | tan | tanh =>
    exact H.pow (H.apply_of_call (hf _ (by simp [outerFunctions]))) (H.number _)
  | asin => exact hroot
  | acos => exact H.neg hroot
  | atan => exact H.pow (H.add (by simpa using ⟨H.number _, H.square h⟩)) (H.number _)
  | log => exact H.pow h (H.number _)
  | abs => exact H.div h (H.apply_of_call (hf _ (by simp [outerFunctions])))
  | atan2 => exact H.number _

lemma chainRule {f : Elementary} {args ds : List (Expr α)}
    (hf : ∀ x ∈ args.head?, ∀ g ∈ outerFunctions f, P (Expr.call g [x]))
    (hargs : ∀ a ∈ args, P a) (hds : ∀ d ∈ ds, P d) : P (chainRule f args ds) := by
  unfold Expr.chainRule
  split
  · simp only [List.mem_cons, List.not_mem_nil, or_false, forall_eq_or_imp, forall_eq] at hargs hds
    exact H.div (H.sub (H.mul (by simpa using ⟨hargs.2, hds.1⟩)) (H.mul (by simpa using ⟨hargs.1, hds.2⟩)))
      (H.add (by simpa using ⟨H.square hargs.2, H.square hargs.1⟩))
  · exact H.number _
  · rw [List.forall_mem_cons] at hargs hds
    have houter := H.outerDerivative (hf _ rfl) hargs.1
    exact H.mul (by simpa using ⟨houter, hds.1⟩)
  · exact H.number _

end

end Algebraic

/-- The property admits the functions that derivatives are made of. -/
structure Differential (P : Expr α → Prop) : Prop extends Inherited P where
  log {e : Expr α} (h : P e) : P (call .log [e])
  outer {f g : Elementary} {x : Expr α} {args : List (Expr α)} (hg : g ∈ outerFunctions f)
    (h : P (call f (x :: args))) : P (call g [x])

namespace Differential
variable {P : Expr α → Prop}

mutual
theorem derivative [Scalar α] (H : Differential P) (name : String) {e : Expr α} (h : P e) :
    P (derivative name e) := by
  cases e with
  | number c | constant c | symbol s => exact H.number _
  | sum ts =>
    rw [Expr.derivative]
    split_ifs
    · exact H.add (derivativeAll H name (H.of_sum h))
    · exact H.number _
  | product fs =>
    rw [Expr.derivative]
    split_ifs
    · have hfs := H.of_product h
      exact H.add (H.productTerms (by simp) hfs (derivativeAll H name hfs))
    · exact H.number _
  | power b e =>
    obtain ⟨hb, he⟩ := H.of_power h
    have hdb := derivative H name hb
    rw [Expr.derivative]
    split_ifs
    · exact H.exponentialRule (H.log hb) hb he hdb (derivative H name he)
    · exact H.powerRule hb he hdb
    · exact H.number _
  | call f args =>
    rw [Expr.derivative]
    split_ifs
    · have hargs := H.of_call h
      refine H.chainRule ?_ hargs (derivativeAll H name hargs)
      cases args with
      | nil => simp
      | cons x args => simpa using fun g hg => H.outer hg h
    · exact H.number _
theorem derivativeAll [Scalar α] (H : Differential P) (name : String) {es : List (Expr α)}
    (h : ∀ e ∈ es, P e) : ∀ d ∈ derivativeAll name es, P d := by
  match es with
  | [] => simp [Expr.derivativeAll]
  | e :: es =>
    rw [List.forall_mem_cons] at h
    exact List.forall_mem_cons.mpr ⟨derivative H name h.1, derivativeAll H name h.2⟩
end

end Differential

namespace Hereditary
variable {P : Expr α → Prop}

theorem apply [Scalar α] (H : Hereditary P) {f : Elementary} {args : List (Expr α)}
    (hlength : args.length = f.arity) (h : ∀ a ∈ args, P a) : P (apply f args) :=
  H.apply_of_call (H.call hlength h)

lemma differential (H : Hereditary P) : Differential P where
  toInherited := H.toInherited
  log h := H.call rfl (by simpa using h)
  outer {f g x args} hg h := by
    have hx := H.of_call h x List.mem_cons_self
    exact H.call (arity_of_mem_outerFunctions hg).symm (by simpa using hx)

theorem derivative [Scalar α] (H : Hereditary P) (name : String) {e : Expr α} (h : P e) :
    P (derivative name e) := H.differential.derivative name h

end Hereditary

section
variable [Scalar α] {P Q : Expr α → Prop} {name : String} {r : Expr α}

mutual
/-- An expression with the property `Q` gets the property `P`, if the replacement has it and those
parts that stay as they are. -/
theorem Algebraic.substitute (H : Algebraic P) (HQ : Inherited Q)
    (hcall : ∀ {f args args'}, Q (call f args) → args'.length = args.length →
      (∀ a ∈ args', P a) → P (call f args'))
    (hkeep : ∀ {e}, Q e → e.contains name = false → P e) (hr : P r) {e : Expr α} (he : Q e) :
    P (e.substitute name r) := by
  cases e with
  | number x => exact H.number x
  | constant c => exact hkeep he rfl
  | symbol s =>
    rw [Expr.substitute]
    split_ifs with hs
    · exact hr
    · exact hkeep he (by simpa [contains] using hs)
  | sum ts =>
    rw [Expr.substitute]
    split_ifs with hts
    · exact H.add (H.substituteAll HQ hcall hkeep hr (HQ.of_sum he))
    · exact hkeep he (by simpa [contains] using hts)
  | product fs =>
    rw [Expr.substitute]
    split_ifs with hfs
    · exact H.mul (H.substituteAll HQ hcall hkeep hr (HQ.of_product he))
    · exact hkeep he (by simpa [contains] using hfs)
  | power b e =>
    obtain ⟨hb, hexponent⟩ := HQ.of_power he
    rw [Expr.substitute]
    split_ifs with hbe
    · exact H.pow (H.substitute HQ hcall hkeep hr hb)
        (H.substitute HQ hcall hkeep hr hexponent)
    · exact hkeep he (by simpa [contains] using hbe)
  | call f args =>
    rw [Expr.substitute]
    split_ifs with hargs
    · exact H.apply_of_call (hcall he (length_substituteAll args name r)
        (H.substituteAll HQ hcall hkeep hr (HQ.of_call he)))
    · exact hkeep he (by simpa [contains] using hargs)
theorem Algebraic.substituteAll (H : Algebraic P) (HQ : Inherited Q)
    (hcall : ∀ {f args args'}, Q (call f args) → args'.length = args.length →
      (∀ a ∈ args', P a) → P (call f args'))
    (hkeep : ∀ {e}, Q e → e.contains name = false → P e) (hr : P r) {es : List (Expr α)}
    (hes : ∀ e ∈ es, Q e) : ∀ e ∈ substituteAll es name r, P e := by
  match es with
  | [] => simp [Expr.substituteAll]
  | e :: es =>
    rw [List.forall_mem_cons] at hes
    exact List.forall_mem_cons.mpr ⟨H.substitute HQ hcall hkeep hr hes.1,
      H.substituteAll HQ hcall hkeep hr hes.2⟩
end

end

end EquationCompiler.Expr

namespace EquationCompiler.Formula

variable {α : Type} [Numeral α] {P : Expr α → Prop} {v : Vocabulary}

lemma name_of_elementary_ofName? {f : String} {g : Elementary}
    (h : Elementary.ofName? f = some g) : g.name = f := by
  simpa using List.find?_some h

lemma hereditary_application (H : Expr.Hereditary P) {f : String} {args : List (Expr α)}
    {e : Expr α} (hargs : ∀ a ∈ args, P a) (h : application v f args = .ok e) : P e := by
  unfold application at h
  split_ifs at h
  · split at h
    · cases h
      exact H.pow (hargs _ (by simp)) (H.number _)
    · cases h
  · split at h
    · cases h
    · split_ifs at h with hlength
      cases h
      exact H.apply hlength hargs

/-- Both operands have been compiled. -/
lemma operands_of_compile {f g : Formula} {e : Expr α} {op : Expr α → Expr α → Expr α}
    (h : (do let a ← compile v f; let b ← compile v g; return op a b) = Except.ok e) :
    ∃ a b, f.compile v = .ok a ∧ g.compile v = .ok b ∧ e = op a b := by
  obtain ⟨a, ha, hrest⟩ := bind_eq_ok.mp h
  obtain ⟨b, hb, hresult⟩ := bind_eq_ok.mp hrest
  exact ⟨a, b, ha, hb, (Except.ok.inj hresult).symm⟩

/-- A property of both operands passes to what an operator makes of them. -/
lemma algebraic_operands {f g : Formula} {e : Expr α} {op : Expr α → Expr α → Expr α}
    (hnames : ∀ s ∈ f.names ++ g.names, P (identifier v s))
    (hf : ∀ {a}, (∀ s ∈ f.names, P (identifier v s)) → f.compile v = .ok a → P a)
    (hg : ∀ {b}, (∀ s ∈ g.names, P (identifier v s)) → g.compile v = .ok b → P b)
    (hop : ∀ {a b}, P a → P b → P (op a b))
    (h : (do let a ← compile v f; let b ← compile v g; return op a b) = Except.ok e) : P e := by
  obtain ⟨a, b, ha, hb, rfl⟩ := operands_of_compile h
  rw [List.forall_mem_append] at hnames
  exact hop (hf hnames.1 ha) (hg hnames.2 hb)

mutual
/-- An algebraic property of the names and the applications passes to all that is read from
them. -/
theorem algebraic_compile (H : Expr.Algebraic P)
    (happlication : ∀ {g args e}, (∀ a ∈ args, P a) → application v g args = .ok e → P e)
    {f : Formula} {e : Expr α} (hnames : ∀ s ∈ f.names, P (identifier v s))
    (h : f.compile v = .ok e) : P e := by
  cases f with
  | number literal =>
    rw [compile] at h
    split at h
    · cases h
      exact H.number _
    · cases h
  | name s =>
    rw [compile] at h
    cases h
    exact hnames s (by simp [names])
  | call g args =>
    rw [compile] at h
    obtain ⟨es, hes, hcall⟩ := bind_eq_ok.mp h
    exact happlication (algebraic_compileAll H happlication hnames hes) hcall
  | negation g =>
    rw [compile] at h
    obtain ⟨a, ha, hresult⟩ := bind_eq_ok.mp h
    cases hresult
    exact H.neg (algebraic_compile H happlication (f := g) hnames ha)
  | sum g k =>
    exact algebraic_operands hnames (algebraic_compile H happlication)
      (algebraic_compile H happlication) (fun ha hb => H.add (by simpa using ⟨ha, hb⟩)) h
  | difference g k =>
    exact algebraic_operands hnames (algebraic_compile H happlication)
      (algebraic_compile H happlication) H.sub h
  | product g k =>
    exact algebraic_operands hnames (algebraic_compile H happlication)
      (algebraic_compile H happlication) (fun ha hb => H.mul (by simpa using ⟨ha, hb⟩)) h
  | quotient g k =>
    exact algebraic_operands hnames (algebraic_compile H happlication)
      (algebraic_compile H happlication) H.div h
  | power g k =>
    exact algebraic_operands hnames (algebraic_compile H happlication)
      (algebraic_compile H happlication) H.pow h
theorem algebraic_compileAll (H : Expr.Algebraic P)
    (happlication : ∀ {g args e}, (∀ a ∈ args, P a) → application v g args = .ok e → P e)
    {fs : List Formula} {es : List (Expr α)} (hnames : ∀ s ∈ namesAll fs, P (identifier v s))
    (h : compileAll v fs = .ok es) : ∀ e ∈ es, P e := by
  match fs with
  | [] =>
    cases h
    simp
  | f :: fs =>
    rw [compileAll] at h
    obtain ⟨a, ha, hrest⟩ := bind_eq_ok.mp h
    obtain ⟨bs, hbs, hresult⟩ := bind_eq_ok.mp hrest
    cases hresult
    simp only [namesAll, List.mem_append, or_imp, forall_and] at hnames
    exact List.forall_mem_cons.mpr ⟨algebraic_compile H happlication hnames.1 ha,
      algebraic_compileAll H happlication hnames.2 hbs⟩
end

/-- A hereditary property of the names and the constants passes to all that is read from them. -/
theorem hereditary_compile (H : Expr.Hereditary P) (hconstant : ∀ c, P (.constant c)) {f : Formula}
    {e : Expr α} (hnames : ∀ s ∈ f.names, P (.symbol s)) (h : f.compile v = .ok e) : P e := by
  refine algebraic_compile H.toAlgebraic (hereditary_application H) (fun s hs => ?_) h
  unfold identifier
  split_ifs
  · exact hnames s hs
  · split
    · exact hconstant _
    · exact hnames s hs

end EquationCompiler.Formula
