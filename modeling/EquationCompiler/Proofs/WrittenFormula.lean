import EquationCompiler.Proofs.Layout
import EquationCompiler.Proofs.Parts

/-!
# Properties of written formulas

A property of formulas that passes from the parts of a formula to the whole and that
numbers and names have holds of the formula that an expression is written as. The
proof follows the layout and is made once for all such properties.
-/
namespace EquationCompiler

/-- The property passes from operands to what signs and the operators of terms and sums make of
them. -/
structure Formula.Compositional (P : Formula → Prop) : Prop where
  negation {f : Formula} (h : P f) : P (.negation f)
  sum {f g : Formula} (hf : P f) (hg : P g) : P (.sum f g)
  difference {f g : Formula} (hf : P f) (hg : P g) : P (.difference f g)
  product {f g : Formula} (hf : P f) (hg : P g) : P (.product f g)
  quotient {f g : Formula} (hf : P f) (hg : P g) : P (.quotient f g)

/-- All factors of the layout have the property. -/
def Layout.All (P : Formula → Prop) (l : Layout) : Prop := ∀ i ∈ l.items, P i.2

namespace Layout
variable {P : Formula → Prop} {l : Layout}

lemma all_iff : l.All P ↔ P l.head ∧ ∀ i ∈ l.tail, P i.2 := by
  rw [All, items, List.forall_mem_cons]

@[simp] lemma all_single {f : Formula} {p : Precedence} : (single f p).All P ↔ P f := by
  simp [all_iff, single]

lemma all_chain {ls : List Layout} (hne : ls ≠ []) (h : ∀ l ∈ ls, l.All P) : (chain ls).All P := by
  obtain ⟨l, ls, rfl⟩ := List.exists_cons_of_ne_nil hne
  rw [List.forall_mem_cons, all_iff] at h
  refine all_iff.mpr ⟨h.1.1, List.forall_mem_append.mpr ⟨h.1.2, fun i hi => ?_⟩⟩
  obtain ⟨m, hm, hi⟩ := List.mem_flatMap.mp hi
  exact h.2 m hm i hi

section
variable (H : Formula.Compositional P)
include H

/-- A term is extended factor by factor. -/
lemma foldl_extend {tail : List (Bool × Formula)} {f : Formula} (hf : P f)
    (h : ∀ i ∈ tail, P i.2) : P (tail.foldl extend f) := by
  induction tail generalizing f with
  | nil => exact hf
  | cons i tail ih =>
    obtain ⟨divides, g⟩ := i
    rw [List.forall_mem_cons] at h
    refine ih ?_ h.2
    cases divides with
    | false => exact H.product hf h.1
    | true => exact H.quotient hf h.1

lemma All.formula (h : l.All P) : P l.formula :=
  foldl_extend H (all_iff.mp h).1 (all_iff.mp h).2

lemma All.atLeast (h : l.All P) (needed : Precedence) : (l.atLeast needed).All P := by
  unfold Layout.atLeast
  split_ifs
  · exact all_single.mpr (h.formula H)
  · exact h

lemma All.negate (h : l.All P) : l.negate.All P :=
  all_single.mpr (foldl_extend H (H.negation (all_iff.mp h).1) (all_iff.mp h).2)

end

end Layout

namespace Expr
variable {α : Type} [Numeral α]

/-- What is written for expressions with the property `Q` has the property `P`. -/
structure Writing (d : Dialect) (Q : Expr α → Prop) (P : Formula → Prop) : Prop
    extends Formula.Compositional P where
  inherited : Inherited Q
  numeral (x : α) (divides : Bool) : P (d.numeral x divides)
  symbol {s : String} (h : Q (Expr.symbol s)) : P (.name s)
  constant {c : Constant} (h : Q (Expr.constant c)) : P (.name (d.constant c))
  empty (h : Q (Expr.sum [])) : P (.name "")
  root {f : Formula} (h : P f) : P (.call "sqrt" [f])
  power {f g : Formula} (hf : P f) (hg : P g) :
    P (match d with | .cpp => .call "pow" [f, g] | .formula => .power f g)
  call {f : Elementary} {args : List (Expr α)} {gs : List Formula} (h : Q (Expr.call f args))
    (hlength : gs.length = args.length) (hgs : ∀ g ∈ gs, P g) : P (.call (d.function f) gs)

namespace Writing
variable {d : Dialect} {Q : Expr α → Prop} {P : Formula → Prop} {layout : Expr α → Layout}
  (H : Writing d Q P)
include H

lemma layoutSum {ts : List (Expr α)} (hne : ts ≠ [])
    (h : ∀ t ∈ ts, (layout (splitSign t).2).All P) : (layoutSum layout ts).All P := by
  have hlater (us : List (Expr α)) (f : Formula) (hus : ∀ t ∈ us, t ∈ ts) (hf : P f) :
      P (us.foldl (addTerm layout) f) := by
    induction us generalizing f with
    | nil => exact hf
    | cons t us ih =>
      rw [List.forall_mem_cons] at hus
      have hterm := (h t hus.1).formula H.toCompositional
      refine ih _ hus.2 ?_
      unfold addTerm
      split_ifs
      · exact H.difference hf hterm
      · exact H.sum hf hterm
  obtain ⟨t, ts, rfl⟩ := List.exists_cons_of_ne_nil hne
  have hterm := (h t (by simp)).atLeast H.toCompositional .product
  rw [layoutSum_cons, Layout.all_single]
  refine hlater ts _ (by simp +contextual) ?_
  split_ifs
  · exact (hterm.negate H.toCompositional).formula H.toCompositional
  · exact hterm.formula H.toCompositional

lemma layoutDivisor {e : Expr α} (h : (layout e).All P) (needed : Precedence) :
    (layoutDivisor d layout needed e).All P := by
  unfold Expr.layoutDivisor
  split
  · exact Layout.all_single.mpr (H.numeral _ _)
  · exact h.atLeast H.toCompositional needed

lemma layoutBelow {es : List (Expr α)} (h : ∀ e ∈ es, (layout e).All P) :
    ∀ i ∈ layoutBelow d layout es, P i.2 := by
  unfold Expr.layoutBelow
  split
  · simp
  · simpa using (H.layoutDivisor (h _ List.mem_cons_self) .power).formula H.toCompositional
  · next hempty _ =>
    have hne : es.map (Expr.layoutDivisor d layout .product) ≠ [] := by simpa using hempty
    have hfactors : ∀ l ∈ es.map (Expr.layoutDivisor d layout .product), l.All P :=
      List.forall_mem_map.mpr fun e he => H.layoutDivisor (h e he) .product
    simpa using (Layout.all_chain hne hfactors).formula H.toCompositional

omit H in
/-- There is a number or a factor above the line. -/
lemma above_ne_nil (d : Dialect) (layout : Expr α → Layout) (f : Fraction α) :
    layoutLead d f ++ f.above.map (fun e => (layout e).atLeast .product) ≠ [] := by
  unfold layoutLead
  dsimp only
  cases habove : f.above <;> simp

lemma layoutFraction {f : Fraction α} (h : ∀ e ∈ f.above ++ f.below, (layout e).All P) :
    (layoutFraction d layout f).All P := by
  rw [List.forall_mem_append] at h
  have hlead : ∀ l ∈ layoutLead d f, l.All P := by
    unfold layoutLead
    dsimp only
    split_ifs
    · simpa using H.numeral _ _
    · simp
  have habove := Layout.all_chain (above_ne_nil d layout f) (List.forall_mem_append.mpr
    ⟨hlead, List.forall_mem_map.mpr fun e he => (h.1 e he).atLeast H.toCompositional .product⟩)
  have hunsigned : (layoutUnsigned d layout f).All P := by
    rw [Layout.all_iff] at habove ⊢
    exact ⟨habove.1, List.forall_mem_append.mpr ⟨habove.2, H.layoutBelow h.2⟩⟩
  unfold Expr.layoutFraction
  split_ifs
  · exact hunsigned.negate H.toCompositional
  · exact hunsigned

lemma layoutPower {b e : Expr α} (hb : (layout b).All P) (he : (layout e).All P) :
    (layoutPower d layout b e).All P := by
  have hbase := hb.formula H.toCompositional
  have hpower := H.power hbase (he.formula H.toCompositional)
  unfold Expr.layoutPower
  split_ifs
  · exact Layout.all_single.mpr (H.root hbase)
  · cases d with
    | cpp => exact Layout.all_single.mpr hpower
    | formula => exact Layout.all_single.mpr hpower

/-- The layout of an expression has the property if those of its parts have it. -/
lemma layoutWith {e : Expr α} (he : Q e) (h : ∀ p ∈ e.parts, (layout p).All P) :
    (layoutWith d layout e).All P := by
  cases e with
  | number x => exact Layout.all_single.mpr (H.numeral x false)
  | symbol s => exact Layout.all_single.mpr (H.symbol he)
  | constant c => exact Layout.all_single.mpr (H.constant he)
  | sum ts =>
    cases ts with
    | nil => exact Layout.all_single.mpr (H.empty he)
    | cons t ts =>
      exact H.layoutSum (List.cons_ne_nil t ts) fun t ht => h _ (List.mem_map.mpr ⟨t, ht, rfl⟩)
  | product fs => exact H.layoutFraction h
  | power b e =>
    rw [parts] at h
    rw [Expr.layoutWith]
    split_ifs at h ⊢
    · exact H.layoutFraction h
    · exact H.layoutPower (h b (by simp)) (h e (by simp))
  | call f args =>
    refine Layout.all_single.mpr (H.call he (by simp) ?_)
    rw [List.forall_mem_map]
    exact fun a ha => (h a ha).formula H.toCompositional

lemma layoutIn [SignedScalar α] {rounds : ℕ} {e : Expr α} (he : Q e) (hrounds : e.bulk < rounds) :
    (layoutIn d rounds e).All P :=
  rounds_induction (R := fun rounds e => (Expr.layoutIn d rounds e).All P)
    H.inherited.of_mem_parts H.layoutWith he hrounds

/-- What an expression is written as has the property. -/
theorem written [SignedScalar α] {e : Expr α} (he : Q e) : P (e.written d) :=
  (H.layoutIn he e.bulk_lt_rounds).formula H.toCompositional

end Writing

end Expr

end EquationCompiler
