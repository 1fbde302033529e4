import EquationCompiler.Expr.Simplify
import EquationCompiler.Proofs.EquivalenceValue
import EquationCompiler.Proofs.Hereditary

/-!
# Simplified sums keep the value

Flattening and collecting like terms change neither the value of a sum nor
whether it is defined. The product that puts a coefficient back before its term
is a parameter here, as it is in `addWith`.
-/
namespace EquationCompiler.Expr
variable {α : Type} [ExactScalar α] {ρ : String → Option ℝ}

/-- Where `e` is defined, so is `e'`, and with the same value. -/
def Refines (ρ : String → Option ℝ) (e e' : Expr α) : Prop :=
  e.Defined ρ → e'.Defined ρ ∧ e'.value ρ = e.value ρ

lemma Refines.refl (e : Expr α) : Refines ρ e e := fun h => ⟨h, rfl⟩

lemma isZero_eq_true {e : Expr α} (h : e.isZero = true) : e.value ρ = 0 := by
  cases e with
  | number x => exact (ExactScalar.isZero_iff x).mp h
  | _ => simp [isZero] at h

lemma isOne_eq_true {e : Expr α} (h : e.isOne = true) : e.value ρ = 1 := by
  cases e with
  | number x => exact (ExactScalar.isOne_iff x).mp h
  | _ => simp [isOne] at h

mutual
theorem sum_terms (e : Expr α) : (e.terms.map (value ρ)).sum = e.value ρ := by
  cases e with
  | sum ts => simp only [terms, value_sum, sum_termsAll ts]
  | _ => simp only [terms, List.map_cons, List.map_nil, List.sum_cons, List.sum_nil, add_zero]
theorem sum_termsAll (ts : List (Expr α)) :
    ((termsAll ts).map (value ρ)).sum = (ts.map (value ρ)).sum := by
  match ts with
  | [] => rfl
  | t :: ts =>
    simp only [termsAll, List.map_append, List.sum_append, List.map_cons, List.sum_cons,
      sum_terms t, sum_termsAll ts]
end

mutual
theorem defined_terms (e : Expr α) : (∀ t ∈ e.terms, t.Defined ρ) ↔ e.Defined ρ := by
  cases e with
  | sum ts => simp only [terms, defined_sum, defined_termsAll ts]
  | _ => simp only [terms, List.mem_singleton, forall_eq]
theorem defined_termsAll (ts : List (Expr α)) :
    (∀ t ∈ termsAll ts, t.Defined ρ) ↔ ∀ t ∈ ts, t.Defined ρ := by
  match ts with
  | [] => simp only [termsAll]
  | t :: ts =>
    simp only [termsAll, List.mem_append, or_imp, forall_and, List.mem_cons, forall_eq,
      defined_terms t, defined_termsAll ts]
end

@[simp] theorem value_collapse_sum (es : List (Expr α)) :
    (collapse sum es).value ρ = (es.map (value ρ)).sum := by
  unfold collapse
  split
  · simp
  · simp

@[simp] theorem defined_collapse_sum (es : List (Expr α)) :
    (collapse sum es).Defined ρ ↔ ∀ e ∈ es, e.Defined ρ := by
  unfold collapse
  split
  · simp
  · simp

@[simp] theorem value_collapse_product (es : List (Expr α)) :
    (collapse product es).value ρ = (es.map (value ρ)).prod := by
  unfold collapse
  split
  · simp
  · simp

@[simp] theorem defined_collapse_product (es : List (Expr α)) :
    (collapse product es).Defined ρ ↔ ∀ e ∈ es, e.Defined ρ := by
  unfold collapse
  split
  · simp
  · simp

theorem value_splitCoefficient (e : Expr α) :
    toReal (splitCoefficient e).1 * (splitCoefficient e).2.value ρ = e.value ρ := by
  unfold splitCoefficient
  split
  · simp
  · simp

theorem defined_splitCoefficient {e : Expr α} (h : e.Defined ρ) :
    (splitCoefficient e).2.Defined ρ := by
  unfold splitCoefficient
  split
  · simp_all
  · exact h

/-- The total of collected terms. -/
noncomputable def collectedSum (ρ : String → Option ℝ) (ts : List (α × Expr α)) : ℝ :=
  (ts.map fun t => toReal t.1 * t.2.value ρ).sum

@[simp] theorem collectedSum_nil : collectedSum ρ ([] : List (α × Expr α)) = 0 := rfl

@[simp] theorem collectedSum_cons (t : α × Expr α) (ts : List (α × Expr α)) :
    collectedSum ρ (t :: ts) = toReal t.1 * t.2.value ρ + collectedSum ρ ts := rfl

theorem collectedSum_collectTerm (c : α) (rest : Expr α) (ts : List (α × Expr α)) :
    collectedSum ρ (collectTerm c rest ts) =
      collectedSum ρ ts + toReal c * rest.value ρ := by
  induction ts with
  | nil => simp [collectTerm]
  | cons t ts ih =>
    obtain ⟨k, e⟩ := t
    simp only [collectTerm]
    split_ifs with he
    · simp only [collectedSum_cons, ExactScalar.toReal_add, ← value_eq_of_equiv ρ he]
      ring
    · simp only [collectedSum_cons, ih]
      ring

namespace Collected

noncomputable def value (ρ : String → Option ℝ) (s : Collected α) : ℝ :=
  toReal s.constant + collectedSum ρ s.terms

def Defined (ρ : String → Option ℝ) (s : Collected α) : Prop := ∀ t ∈ s.terms, t.2.Defined ρ

theorem value_insert (s : Collected α) (e : Expr α) :
    (s.insert e).value ρ = s.value ρ + e.value ρ := by
  unfold insert
  split
  · simp only [value, ExactScalar.toReal_add, value_number]
    ring
  · simp only [value, collectedSum_collectTerm, value_splitCoefficient]
    ring

theorem defined_insert {s : Collected α} {e : Expr α} (hs : s.Defined ρ) (he : e.Defined ρ) :
    (s.insert e).Defined ρ := by
  unfold insert
  split
  · exact hs
  · exact forall_mem_collectTerm (P := fun e => e.Defined ρ) (defined_splitCoefficient he) hs

theorem value_foldl_insert (ts : List (Expr α)) (s : Collected α) :
    (ts.foldl insert s).value ρ = s.value ρ + (ts.map (Expr.value ρ)).sum := by
  induction ts generalizing s with
  | nil => simp
  | cons t ts ih => rw [List.foldl_cons, ih, value_insert, List.map_cons, List.sum_cons, add_assoc]

theorem defined_foldl_insert (ts : List (Expr α)) (s : Collected α) (hs : s.Defined ρ)
    (hts : ∀ t ∈ ts, t.Defined ρ) : (ts.foldl insert s).Defined ρ := by
  induction ts generalizing s with
  | nil => exact hs
  | cons t ts ih =>
    rw [List.forall_mem_cons] at hts
    exact ih _ (defined_insert hs hts.1) hts.2

end Collected

theorem value_collect (ts : List (Expr α)) :
    (collect ts).value ρ = (ts.map (value ρ)).sum := by
  rw [collect, Collected.value_foldl_insert, sum_termsAll]
  simp [Collected.value]

theorem defined_collect {ts : List (Expr α)} (hts : ∀ t ∈ ts, t.Defined ρ) :
    (collect ts).Defined ρ :=
  Collected.defined_foldl_insert _ _ (by simp [Collected.Defined]) ((defined_termsAll ts).mpr hts)

/-- If nothing is kept of a sum, it is zero. -/
lemma refines_kept (es : List (Expr α)) (hes : ∀ e ∈ es, e.Defined ρ) :
    (match es with | [] => number Scalar.zero | es => collapse sum es).Defined ρ ∧
      (match es with | [] => number Scalar.zero | es => collapse sum es).value ρ =
        (es.map (value ρ)).sum := by
  cases es with
  | nil => simp
  | cons e es => exact ⟨(defined_collapse_sum _).mpr hes, value_collapse_sum _⟩

section
variable {mul : List (Expr α) → Expr α} (hmul : ∀ fs, Refines ρ (product fs) (mul fs))
include hmul

/-- Only terms with the coefficient zero are left out. -/
theorem sum_restoreTerm (ts : List (α × Expr α)) (hts : ∀ t ∈ ts, t.2.Defined ρ) :
    (∀ e ∈ ts.filterMap (restoreTerm mul), e.Defined ρ) ∧
      ((ts.filterMap (restoreTerm mul)).map (value ρ)).sum = collectedSum ρ ts := by
  induction ts with
  | nil => simp
  | cons t ts ih =>
    obtain ⟨c, rest⟩ := t
    rw [List.forall_mem_cons] at hts
    obtain ⟨hrest, hts⟩ := hts
    obtain ⟨hd, hv⟩ := ih hts
    by_cases hzero : Scalar.isZero c = true
    · have hc := (ExactScalar.isZero_iff c).mp hzero
      rw [List.filterMap_cons_none (by simp [restoreTerm, hzero])]
      exact ⟨hd, by simp [hv, hc]⟩
    by_cases hone : Scalar.isOne c = true
    · have hc := (ExactScalar.isOne_iff c).mp hone
      rw [List.filterMap_cons_some (b := rest) (by simp [restoreTerm, hzero, hone])]
      exact ⟨List.forall_mem_cons.mpr ⟨hrest, hd⟩, by simp [hv, hc]⟩
    · obtain ⟨hd', hv'⟩ := hmul [number c, rest] (by simpa using hrest)
      rw [List.filterMap_cons_some (b := mul [number c, rest]) (by simp [restoreTerm, hzero, hone])]
      exact ⟨List.forall_mem_cons.mpr ⟨hd', hd⟩, by simp [hv, hv']⟩

theorem refines_addWith (ts : List (Expr α)) : Refines ρ (sum ts) (addWith mul ts) := by
  intro hts
  have hsum := value_collect (ρ := ρ) ts
  obtain ⟨hd, hv⟩ := sum_restoreTerm hmul (collect ts).terms
    (defined_collect ((defined_sum ρ ts).mp hts))
  have hkept : ∀ e ∈ (if Scalar.isZero (collect ts).constant then
      (collect ts).terms.filterMap (restoreTerm mul)
      else number (collect ts).constant :: (collect ts).terms.filterMap (restoreTerm mul)),
      e.Defined ρ := by
    split_ifs
    · exact hd
    · exact List.forall_mem_cons.mpr ⟨defined_number ρ _, hd⟩
  refine (refines_kept _ hkept).imp_right fun h => h.trans ?_
  rw [value_sum, ← hsum, Collected.value]
  split_ifs with hz
  · rw [hv, (ExactScalar.isZero_iff _).mp hz, zero_add]
  · rw [List.map_cons, List.sum_cons, hv, value_number]

end

end EquationCompiler.Expr
