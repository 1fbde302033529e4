import EquationCompiler.Expr.Print
import EquationCompiler.Proofs.Hereditary
import Mathlib

/-!
# Simplifying does not enlarge

Neither the depth nor the weight of an expression grows when it is simplified. The
two go together: a product is simplified with the products of its exponents, and
these are in reach of the recursion because exponents are less deep.
-/
namespace EquationCompiler.Expr
variable {α : Type}

lemma depthAll_le_iff {es : List (Expr α)} {d : ℕ} : depthAll es ≤ d ↔ ∀ e ∈ es, e.depth ≤ d := by
  induction es with
  | nil => simp [depthAll]
  | cons e es ih => simp [depthAll, ih]

@[simp] lemma weightAll_append (es fs : List (Expr α)) :
    weightAll (es ++ fs) = weightAll es + weightAll fs := by
  induction es with
  | nil => simp [weightAll]
  | cons e es ih => simp [weightAll, ih, Nat.add_assoc]

lemma weight_le_of_mem {e : Expr α} {es : List (Expr α)} (h : e ∈ es) :
    e.weight ≤ weightAll es := by
  induction es with
  | nil => cases h
  | cons f es ih =>
    simp only [weightAll]
    rcases List.mem_cons.mp h with rfl | h
    · omega
    · have := ih h
      omega

/-- Only numbers weigh nothing, and only they have no depth. -/
lemma weight_eq_zero {e : Expr α} : e.weight = 0 ↔ ∃ x, e = number x := by
  cases e <;> simp [weight]

lemma depth_eq_zero {e : Expr α} : e.depth = 0 ↔ ∃ x, e = number x := by
  cases e <;> simp [depth]

mutual
lemma depth_le_of_mem_terms {e t : Expr α} (h : t ∈ e.terms) : t.depth ≤ e.depth := by
  cases e with
  | sum ts =>
    have := depth_le_of_mem_termsAll (show t ∈ termsAll ts from h)
    simp only [depth]
    omega
  | _ => rw [List.mem_singleton.mp h]
lemma depth_le_of_mem_termsAll {es : List (Expr α)} {t : Expr α} (h : t ∈ termsAll es) :
    t.depth ≤ depthAll es := by
  match es with
  | [] => cases h
  | e :: es =>
    simp only [depthAll]
    rcases List.mem_append.mp h with h | h
    · have := depth_le_of_mem_terms h
      omega
    · have := depth_le_of_mem_termsAll h
      omega
end

mutual
lemma depth_le_of_mem_factors {e f : Expr α} (h : f ∈ e.factors) : f.depth ≤ e.depth := by
  cases e with
  | product fs =>
    have := depth_le_of_mem_factorsAll (show f ∈ factorsAll fs from h)
    simp only [depth]
    omega
  | _ => rw [List.mem_singleton.mp h]
lemma depth_le_of_mem_factorsAll {es : List (Expr α)} {f : Expr α} (h : f ∈ factorsAll es) :
    f.depth ≤ depthAll es := by
  match es with
  | [] => cases h
  | e :: es =>
    simp only [depthAll]
    rcases List.mem_append.mp h with h | h
    · have := depth_le_of_mem_factors h
      omega
    · have := depth_le_of_mem_factorsAll h
      omega
end

mutual
lemma weightAll_terms_le (e : Expr α) : weightAll e.terms ≤ e.weight := by
  cases e with
  | sum ts =>
    have := weightAll_termsAll_le ts
    simp only [terms, weight]
    omega
  | _ => simp [terms, weightAll]
lemma weightAll_termsAll_le (es : List (Expr α)) : weightAll (termsAll es) ≤ weightAll es := by
  match es with
  | [] => exact le_rfl
  | e :: es =>
    have := weightAll_terms_le e
    have := weightAll_termsAll_le es
    simp only [termsAll, weightAll_append, weightAll]
    omega
end

mutual
lemma weightAll_factors_le (e : Expr α) : weightAll e.factors ≤ e.weight := by
  cases e with
  | product fs =>
    have := weightAll_factorsAll_le fs
    simp only [factors, weight]
    omega
  | _ => simp [factors, weightAll]
lemma weightAll_factorsAll_le (es : List (Expr α)) :
    weightAll (factorsAll es) ≤ weightAll es := by
  match es with
  | [] => exact le_rfl
  | e :: es =>
    have := weightAll_factors_le e
    have := weightAll_factorsAll_le es
    simp only [factorsAll, weightAll_append, weightAll]
    omega
end

/-- The weight of an expression with a coefficient before it. -/
def scaledWeight : Expr α → ℕ
  | product fs => weightAll fs + 1
  | e => e.weight + 1

lemma weight_le_scaledWeight (e : Expr α) : e.weight ≤ e.scaledWeight := by
  cases e <;> simp [scaledWeight, weight]

lemma scaledWeight_le (e : Expr α) : e.scaledWeight ≤ e.weight + 1 := by
  cases e <;> simp [scaledWeight, weight]

lemma weightAll_factors_lt (e : Expr α) : weightAll e.factors < e.scaledWeight := by
  cases e with
  | product fs =>
    have := weightAll_factorsAll_le fs
    simp only [factors, scaledWeight]
    omega
  | _ => simp [factors, scaledWeight, weightAll]

lemma scaledWeight_collapse_le (es : List (Expr α)) :
    (collapse product es).scaledWeight ≤ weightAll es + 1 := by
  unfold collapse
  split
  · next e =>
    have := e.scaledWeight_le
    simp only [weightAll]
    omega
  · simp [scaledWeight]

variable [Scalar α]

/-- What a collected term weighs at most when its coefficient is put back. -/
def termWeight (t : α × Expr α) : ℕ :=
  if Scalar.isOne t.1 ∧ t.2.weight ≠ 0 then t.2.weight else t.2.scaledWeight

def termsWeight (ts : List (α × Expr α)) : ℕ := (ts.map termWeight).sum

lemma termWeight_pos (t : α × Expr α) : 0 < termWeight t := by
  have := weightAll_factors_lt t.2
  unfold termWeight
  split_ifs <;> omega

lemma termWeight_le (t : α × Expr α) : termWeight t ≤ t.2.scaledWeight := by
  have := weight_le_scaledWeight t.2
  unfold termWeight
  split_ifs <;> omega

/-- Changing a coefficient costs at most one. -/
lemma termWeight_change (c k : α) (e : Expr α) : termWeight (c, e) ≤ termWeight (k, e) + 1 := by
  have := termWeight_le (c, e)
  have := e.scaledWeight_le
  have := e.weight_le_scaledWeight
  simp only [termWeight] at *
  split_ifs at * <;> omega

lemma termsWeight_collectTerm (c : α) (rest : Expr α) (ts : List (α × Expr α)) :
    termsWeight (collectTerm c rest ts) ≤ termsWeight ts + termWeight (c, rest) := by
  induction ts with
  | nil => simp [collectTerm, termsWeight]
  | cons t ts ih =>
    obtain ⟨k, e⟩ := t
    have := termWeight_change (k + c) k e
    have := termWeight_pos (c, rest)
    simp only [termsWeight] at ih
    simp only [collectTerm]
    split_ifs
    · simp only [termsWeight, List.map_cons, List.sum_cons]
      omega
    · simp only [termsWeight, List.map_cons, List.sum_cons]
      omega

variable (hone : Scalar.isOne (Scalar.one : α) = true)
include hone

lemma termWeight_splitCoefficient {e : Expr α} (he : e.weight ≠ 0) :
    termWeight (splitCoefficient e) ≤ e.weight := by
  unfold splitCoefficient
  split
  · next c rest =>
    have := termWeight_le (c, collapse product rest)
    have := scaledWeight_collapse_le rest
    simp only [weight, weightAll] at *
    omega
  · simp [termWeight, hone, he]

lemma termsWeight_collect (ts : List (Expr α)) :
    termsWeight (collect ts).terms ≤ weightAll ts := by
  have hinsert (ts : List (Expr α)) (s : Collected α) :
      termsWeight (ts.foldl Collected.insert s).terms ≤ termsWeight s.terms + weightAll ts := by
    induction ts generalizing s with
    | nil => simp
    | cons t ts ih =>
      have hstep : termsWeight (s.insert t).terms ≤ termsWeight s.terms + t.weight := by
        unfold Collected.insert
        split
        · simp
        · next hnumber =>
          have ht : t.weight ≠ 0 := fun h0 => by
            obtain ⟨x, rfl⟩ := weight_eq_zero.mp h0
            exact hnumber x rfl
          have hcollect := termsWeight_collectTerm (splitCoefficient t).1 (splitCoefficient t).2 s.terms
          have hcost := termWeight_splitCoefficient hone ht
          exact hcollect.trans (Nat.add_le_add_left hcost _)
      have := ih (s.insert t)
      simp only [List.foldl_cons, weightAll]
      omega
  have hall := hinsert (termsAll ts) ⟨Scalar.zero, []⟩
  have := weightAll_termsAll_le ts
  simp only [termsWeight, List.map_nil, List.sum_nil, collect] at hall ⊢
  omega

omit hone

omit [Scalar α] in
lemma depth_collapse_le {wrap : List (Expr α) → Expr α} {es : List (Expr α)} {d : ℕ}
    (hwrap : (wrap es).depth = max 1 (depthAll es)) (h : ∀ e ∈ es, e.depth ≤ d)
    (hd : es.length ≠ 1 → 1 ≤ d) : (collapse wrap es).depth ≤ d := by
  unfold collapse
  split
  · exact h _ (by simp)
  · next hmany =>
    rw [hwrap]
    refine max_le (hd fun hone => ?_) (depthAll_le_iff.mpr h)
    obtain ⟨e, rfl⟩ := List.length_eq_one_iff.mp hone
    exact hmany e rfl

omit [Scalar α] in
lemma weight_collapse_le {wrap : List (Expr α) → Expr α} {es : List (Expr α)}
    (hwrap : (wrap es).weight = weightAll es + 1) :
    (collapse wrap es).weight ≤ weightAll es + 1 := by
  unfold collapse
  split
  · simp only [weightAll]
    omega
  · exact hwrap.le

lemma depth_splitCoefficient_le (e : Expr α) : (splitCoefficient e).2.depth ≤ e.depth := by
  unfold splitCoefficient
  split
  · next c rest =>
    simp only [collapse, depth, depthAll]
    split
    · simp [depthAll]
    · simp only [depth]
      omega
  · exact le_rfl

/-- Collected terms are no deeper than the terms, one of which has depth if any is collected. -/
lemma depth_collect {ts : List (Expr α)} {d : ℕ} (h : depthAll ts ≤ d) :
    ∀ t ∈ (collect ts).terms, t.2.depth ≤ d ∧ 1 ≤ d := by
  have hinsert (ts : List (Expr α)) (s : Collected α) (hts : ∀ t ∈ ts, t.depth ≤ d)
      (hs : ∀ t ∈ s.terms, t.2.depth ≤ d ∧ 1 ≤ d) :
      ∀ t ∈ (ts.foldl Collected.insert s).terms, t.2.depth ≤ d ∧ 1 ≤ d := by
    induction ts generalizing s with
    | nil => exact hs
    | cons t ts ih =>
      rw [List.forall_mem_cons] at hts
      refine ih _ hts.2 ?_
      unfold Collected.insert
      split
      · exact hs
      · next hnumber =>
        have hpos : t.depth ≠ 0 := fun h0 => by
          obtain ⟨x, rfl⟩ := depth_eq_zero.mp h0
          exact hnumber x rfl
        have hrest := depth_splitCoefficient_le t
        exact forall_mem_collectTerm (P := fun e => e.depth ≤ d ∧ 1 ≤ d) (by omega) hs
  refine hinsert _ _ (fun t ht => ?_) (by simp)
  exact (depth_le_of_mem_termsAll ht).trans h

/-- The product of expressions below a level neither gains depth nor much weight. -/
structure Small (mul : List (Expr α) → Expr α) (level : ℕ) : Prop where
  depth {fs : List (Expr α)} (h : depthAll fs < level) : (mul fs).depth ≤ depthAll fs
  weight {fs : List (Expr α)} (h : depthAll fs < level) :
    (mul fs).weight ≤ weightAll (factorsAll fs) + 1

section
variable {mul : List (Expr α) → Expr α} {level : ℕ} (hmul : Small mul level)
include hmul

lemma restoreTerm_small {t : α × Expr α} {e : Expr α} (hlevel : t.2.depth < level)
    (h : restoreTerm mul t = some e) : e.depth ≤ t.2.depth ∧ e.weight ≤ termWeight t := by
  obtain ⟨c, rest⟩ := t
  simp only [restoreTerm] at h
  split_ifs at h with hzero hone
  · cases h
    have := weight_le_scaledWeight e
    simp only [termWeight]
    refine ⟨le_rfl, ?_⟩
    split_ifs <;> omega
  · cases h
    have hdepth : depthAll [number c, rest] = rest.depth := by simp [depthAll, depth]
    have hweight : weightAll (factorsAll [number c, rest]) = weightAll rest.factors := by
      simp [factorsAll, factors, weightAll, weight]
    have hproduct := hmul.weight (hdepth.trans_lt hlevel)
    have hbelow := weightAll_factors_lt rest
    refine ⟨(hmul.depth (hdepth.trans_lt hlevel)).trans hdepth.le, ?_⟩
    simp only [termWeight, hone]
    simp only [Bool.false_eq_true, false_and, if_false]
    omega

lemma weightAll_filterMap_le {ts : List (α × Expr α)} (h : ∀ t ∈ ts, t.2.depth < level) :
    weightAll (ts.filterMap (restoreTerm mul)) ≤ termsWeight ts := by
  induction ts with
  | nil => simp [weightAll]
  | cons t ts ih =>
    rw [List.forall_mem_cons] at h
    have := ih h.2
    simp only [termsWeight, List.map_cons, List.sum_cons] at *
    cases hrestore : restoreTerm mul t with
    | none =>
      rw [List.filterMap_cons_none hrestore]
      omega
    | some e =>
      rw [List.filterMap_cons_some hrestore, weightAll]
      have := (restoreTerm_small hmul h.1 hrestore).2
      omega

theorem depth_addWith_le {ts : List (Expr α)} (h : depthAll ts < level) :
    (addWith mul ts).depth ≤ depthAll ts := by
  have hkept : ∀ t ∈ (collect ts).terms.filterMap (restoreTerm mul),
      t.depth ≤ depthAll ts ∧ 1 ≤ depthAll ts := by
    intro t ht
    obtain ⟨s, hs, hrestore⟩ := List.mem_filterMap.mp ht
    have hcollected := depth_collect le_rfl s hs
    have := (restoreTerm_small hmul (hcollected.1.trans_lt h) hrestore).1
    omega
  unfold addWith
  dsimp only
  split
  · simp [depth]
  · next es hes =>
    refine depth_collapse_le (by simp [depth]) ?_ ?_
    · split_ifs
      · exact fun t ht => (hkept t ht).1
      · exact List.forall_mem_cons.mpr ⟨by simp [depth], fun t ht => (hkept t ht).1⟩
    · intro hlength
      by_contra hd
      have hnone := List.eq_nil_iff_forall_not_mem.mpr fun t ht => hd (hkept t ht).2
      rw [hnone] at hes hlength
      split_ifs at hes hlength
      · exact hes rfl
      · exact hlength rfl

theorem weight_addWith_le (hone : Scalar.isOne (Scalar.one : α) = true) {ts : List (Expr α)}
    (h : depthAll ts < level) : (addWith mul ts).weight ≤ weightAll ts + 1 := by
  have hlevel : ∀ t ∈ (collect ts).terms, t.2.depth < level := fun t ht =>
    (depth_collect le_rfl t ht).1.trans_lt h
  have hkept := weightAll_filterMap_le hmul hlevel
  have hcollect := termsWeight_collect hone ts
  unfold addWith
  dsimp only
  split
  · simp [weight]
  · refine (weight_collapse_le (by simp [weight])).trans ?_
    split_ifs
    · omega
    · simp only [weightAll, weight]
      omega

end

/-- Numbers add up to a number. -/
lemma weight_addWith_eq_zero (hone : Scalar.isOne (Scalar.one : α) = true)
    (mul : List (Expr α) → Expr α) {ts : List (Expr α)} (h : weightAll ts = 0) :
    (addWith mul ts).weight = 0 := by
  have hterms : (collect ts).terms = [] := by
    have := termsWeight_collect hone ts
    cases hcollect : (collect ts).terms with
    | nil => rfl
    | cons t more =>
      have := termWeight_pos t
      simp only [hcollect, termsWeight, List.map_cons, List.sum_cons] at *
      omega
  simp only [addWith, hterms, List.filterMap_nil]
  split_ifs <;> simp [collapse, weight]

lemma depth_numberPower_le (b : α) (e : Expr α) : (numberPower b e).depth ≤ e.depth + 1 := by
  unfold numberPower
  split
  · dsimp only
    split
    · simp [depth]
    · split_ifs <;> simp [depth]
  · simp [depth]

lemma weight_numberPower (b : α) (e : Expr α) :
    numberPower b e = power (number b) e ∨ (numberPower b e).weight = 0 := by
  unfold numberPower
  split
  · dsimp only
    split
    · exact Or.inr rfl
    · split_ifs
      · exact Or.inr rfl
      · exact Or.inl rfl
  · exact Or.inl rfl

lemma number_of_wholeExponent? {e : Expr α} {p : α × ℤ} (h : wholeExponent? e = some p) :
    ∃ x, e = number x := by
  cases e with
  | number x => exact ⟨x, rfl⟩
  | _ => cases h

section
variable {mul : List (Expr α) → Expr α} {level : ℕ} (hmul : Small mul level)
include hmul

theorem depth_powWith_le {b e : Expr α} (hb : b.depth ≤ level) (he : e.depth < level) :
    (powWith mul b e).depth ≤ max b.depth (e.depth + 1) := by
  fun_induction powWith mul b e with
  | case1 => simp [depth]
  | case2 => exact le_max_left _ _
  | case3 e _ b => exact (depth_numberPower_le _ _).trans (le_max_right _ _)
  | case4 e _ inner x p hwhole _ ih =>
    simp only [depth] at hb ⊢
    have hexponents : depthAll [x, e] = max x.depth e.depth := by simp [depthAll]
    have hlevel : depthAll [x, e] < level := by omega
    have hproduct := hmul.depth hlevel
    have := ih (by omega) (by omega)
    omega
  | case5 => simp [depth]
  | case6 => simp [depth]

/-- A power that is a power of a number has lost weight, unless nothing was simplified. -/
theorem weight_powWith_le {b e : Expr α} (hb : b.depth ≤ level) (he : e.depth < level) :
    (powWith mul b e).weight ≤ b.weight + e.weight + 1 ∧
      ∀ c x, powWith mul b e = power c (number x) →
        (powWith mul b e).weight ≤ b.weight + e.weight ∨ e = number x := by
  fun_induction powWith mul b e with
  | case1 => simp [weight]
  | case2 e _ b =>
    refine ⟨by omega, fun c x _ => Or.inl (by omega)⟩
  | case3 e _ b =>
    rcases weight_numberPower b e with h | h
    · rw [h]
      simp [weight]
    · exact ⟨by omega, fun _ _ _ => Or.inl (by omega)⟩
  | case4 e _ inner x p hwhole _ ih =>
    obtain ⟨w, rfl⟩ := number_of_wholeExponent? hwhole
    simp only [depth] at hb
    have hexponents : depthAll [x, number w] = x.depth := by simp [depthAll, depth]
    have hfactors : weightAll (factorsAll [x, number w]) = weightAll x.factors := by
      simp [factorsAll, factors, weightAll, weight]
    have hlevel : depthAll [x, number w] < level := by omega
    have hdepth := hmul.depth hlevel
    have hweight := hmul.weight hlevel
    have hflat := weightAll_factors_le x
    obtain ⟨hle, hstrict⟩ := ih (by omega) (by omega)
    simp only [weight]
    refine ⟨by omega, fun c y hpower => Or.inl ?_⟩
    rcases hstrict c y hpower with h | h
    · omega
    · have : (mul [x, number w]).weight = 0 := by rw [h, weight]
      omega
  | case5 => simp [weight]
  | case6 => simp [weight]

end

/-- How deep a power of this base and this exponent is. -/
def pairDepth (p : Expr α × Expr α) : ℕ := max p.1.depth (p.2.depth + 1)

/-- What a power of this base and this exponent weighs at most. -/
def pairWeight (p : Expr α × Expr α) : ℕ :=
  if p.2.isOne ∧ p.1.weight ≠ 0 then p.1.weight else p.1.weight + p.2.weight + 1

def pairsWeight (ps : List (Expr α × Expr α)) : ℕ := (ps.map pairWeight).sum

lemma weight_of_isOne {e : Expr α} (h : e.isOne = true) : e.weight = 0 := by
  cases e with
  | number x => rfl
  | _ => cases h

/-- Only the power of an expression to the number one may weigh no more than its parts. -/
lemma pairWeight_spec (p : Expr α × Expr α) :
    p.1.weight + p.2.weight ≤ pairWeight p ∧
      (p.1.weight = 0 ∨ p.2.weight ≠ 0 → p.1.weight + p.2.weight + 1 ≤ pairWeight p) := by
  simp only [pairWeight]
  split_ifs with h
  · have := weight_of_isOne h.1
    omega
  · omega

lemma equiv_weight {a b : Expr α} (h : equiv a b = true) : a.weight = 0 ↔ b.weight = 0 := by
  cases a <;> cases b <;> simp_all [equiv, weight]

lemma pairDepth_splitPower {e : Expr α} (he : e.weight ≠ 0) : pairDepth (splitPower e) = e.depth := by
  have hpos : e.depth ≠ 0 := fun h => he (weight_eq_zero.mpr (depth_eq_zero.mp h))
  unfold splitPower
  split
  · simp [pairDepth, depth]
  · simp only [pairDepth, depth]
    omega

lemma pairWeight_splitPower (hone : Scalar.isOne (Scalar.one : α) = true) {e : Expr α}
    (he : e.weight ≠ 0) : pairWeight (splitPower e) ≤ e.weight := by
  unfold splitPower
  split
  · simp only [pairWeight, weight]
    split_ifs <;> omega
  · simp [pairWeight, isOne, hone, he]

section
variable {add : List (Expr α) → Expr α} {level : ℕ}

lemma depth_collectPower (hdepth : ∀ ts, depthAll ts < level → (add ts).depth ≤ depthAll ts)
    {b e : Expr α} {ps : List (Expr α × Expr α)} {d : ℕ} (hd : d ≤ level)
    (hnew : pairDepth (b, e) ≤ d) (h : ∀ p ∈ ps, pairDepth p ≤ d) :
    ∀ p ∈ collectPower add b e ps, pairDepth p ≤ d := by
  induction ps with
  | nil => simpa [collectPower] using hnew
  | cons p ps ih =>
    rw [List.forall_mem_cons] at h
    simp only [collectPower]
    split_ifs
    · refine List.forall_mem_cons.mpr ⟨?_, h.2⟩
      have hp := h.1
      simp only [pairDepth] at hp hnew ⊢
      have hexponents : depthAll [p.2, e] = max p.2.depth e.depth := by simp [depthAll]
      have := hdepth [p.2, e] (by omega)
      omega
    · exact List.forall_mem_cons.mpr ⟨h.1, ih h.2⟩

/-- Collecting a factor adds no depth. -/
lemma depth_insert (hdepth : ∀ ts, depthAll ts < level → (add ts).depth ≤ depthAll ts)
    {p : Powers α} {f : Expr α} {d : ℕ} (hd : d ≤ level) (hf : f.depth ≤ d)
    (hp : ∀ q ∈ p.powers, pairDepth q ≤ d) : ∀ q ∈ (p.insert add f).powers, pairDepth q ≤ d := by
  by_cases hnumber : ∃ x, f = number x
  · obtain ⟨x, rfl⟩ := hnumber
    exact hp
  · rw [Powers.insert_of_ne_number (not_exists.mp hnumber)]
    have hweight : f.weight ≠ 0 := fun h0 => hnumber (weight_eq_zero.mp h0)
    exact depth_collectPower hdepth hd ((pairDepth_splitPower hweight).trans_le hf) hp

lemma depth_foldl_insert (hdepth : ∀ ts, depthAll ts < level → (add ts).depth ≤ depthAll ts)
    {fs : List (Expr α)} {p : Powers α} {d : ℕ} (hd : d ≤ level) (hfs : ∀ f ∈ fs, f.depth ≤ d)
    (hp : ∀ q ∈ p.powers, pairDepth q ≤ d) :
    ∀ q ∈ (fs.foldl (Powers.insert add) p).powers, pairDepth q ≤ d := by
  induction fs generalizing p with
  | nil => exact hp
  | cons f fs ih =>
    rw [List.forall_mem_cons] at hfs
    exact ih hfs.2 (depth_insert hdepth hd hfs.1 hp)

/-- Merging two powers of equal bases saves the weight of one base. -/
lemma pairWeight_merge {b c e x s : Expr α} (hbases : c.weight = 0 ↔ b.weight = 0)
    (hs : s.weight ≤ x.weight + e.weight + 1) (hnumbers : x.weight + e.weight = 0 → s.weight = 0) :
    pairWeight (c, s) ≤ pairWeight (c, x) + pairWeight (b, e) := by
  have hle : pairWeight (c, s) ≤ c.weight + s.weight + 1 := by
    simp only [pairWeight]
    split_ifs <;> omega
  have hleft : c.weight + x.weight ≤ pairWeight (c, x) ∧
      (c.weight = 0 ∨ x.weight ≠ 0 → c.weight + x.weight + 1 ≤ pairWeight (c, x)) :=
    pairWeight_spec (c, x)
  have hright : b.weight + e.weight ≤ pairWeight (b, e) ∧
      (b.weight = 0 ∨ e.weight ≠ 0 → b.weight + e.weight + 1 ≤ pairWeight (b, e)) :=
    pairWeight_spec (b, e)
  omega

lemma pairsWeight_collectPower
    (hweight : ∀ ts, depthAll ts < level → (add ts).weight ≤ weightAll ts + 1)
    (hzero : ∀ ts, weightAll ts = 0 → (add ts).weight = 0)
    {b e : Expr α} {ps : List (Expr α × Expr α)} (hnew : pairDepth (b, e) ≤ level)
    (h : ∀ p ∈ ps, pairDepth p ≤ level) :
    pairsWeight (collectPower add b e ps) ≤ pairsWeight ps + pairWeight (b, e) := by
  induction ps with
  | nil => simp [collectPower, pairsWeight]
  | cons p ps ih =>
    obtain ⟨c, x⟩ := p
    rw [List.forall_mem_cons] at h
    have ih := ih h.2
    simp only [pairsWeight] at ih
    simp only [collectPower]
    split_ifs with hequiv
    · have hp := h.1
      simp only [pairDepth] at hp hnew
      have hexponents : depthAll [x, e] = max x.depth e.depth := by simp [depthAll]
      have hsum : weightAll [x, e] = x.weight + e.weight := by simp [weightAll]
      have hle := hweight [x, e] (by omega)
      rw [hsum] at hle
      have hmerge := pairWeight_merge (equiv_weight hequiv) hle fun h0 => hzero _ (hsum.trans h0)
      simp only [pairsWeight, List.map_cons, List.sum_cons]
      omega
    · simp only [pairsWeight, List.map_cons, List.sum_cons]
      omega

/-- A factor adds at most its own weight to the collected powers. -/
lemma pairsWeight_insert (hone : Scalar.isOne (Scalar.one : α) = true)
    (hweight : ∀ ts, depthAll ts < level → (add ts).weight ≤ weightAll ts + 1)
    (hzero : ∀ ts, weightAll ts = 0 → (add ts).weight = 0) {p : Powers α} {f : Expr α}
    (hf : f.depth ≤ level) (hp : ∀ q ∈ p.powers, pairDepth q ≤ level) :
    pairsWeight (p.insert add f).powers ≤ pairsWeight p.powers + f.weight := by
  unfold Powers.insert
  split
  · simp
  · next hnumber =>
    have hne : f.weight ≠ 0 := fun h0 => by
      obtain ⟨x, rfl⟩ := weight_eq_zero.mp h0
      exact hnumber x rfl
    have hpair := (pairDepth_splitPower hne).trans_le hf
    have hcost := pairWeight_splitPower hone hne
    have hcollect := pairsWeight_collectPower hweight hzero hpair hp
    exact hcollect.trans (Nat.add_le_add_left hcost _)

lemma pairsWeight_foldl_insert (hone : Scalar.isOne (Scalar.one : α) = true)
    (hdepth : ∀ ts, depthAll ts < level → (add ts).depth ≤ depthAll ts)
    (hweight : ∀ ts, depthAll ts < level → (add ts).weight ≤ weightAll ts + 1)
    (hzero : ∀ ts, weightAll ts = 0 → (add ts).weight = 0) {d : ℕ} (hd : d ≤ level)
    {fs : List (Expr α)} {p : Powers α} (hfs : ∀ f ∈ fs, f.depth ≤ d)
    (hp : ∀ q ∈ p.powers, pairDepth q ≤ d) :
    pairsWeight (fs.foldl (Powers.insert add) p).powers ≤ pairsWeight p.powers + weightAll fs := by
  induction fs generalizing p with
  | nil => simp
  | cons f fs ih =>
    rw [List.forall_mem_cons] at hfs
    have hstep := pairsWeight_insert hone hweight hzero (hfs.1.trans hd) fun q hq =>
      (hp q hq).trans hd
    have hrest := ih hfs.2 (depth_insert hdepth hd hfs.1 hp)
    simp only [List.foldl_cons, weightAll]
    omega

/-- What the collected powers of a product weigh and how deep they are. -/
lemma collectPowers_small (hone : Scalar.isOne (Scalar.one : α) = true)
    (hdepth : ∀ ts, depthAll ts < level → (add ts).depth ≤ depthAll ts)
    (hweight : ∀ ts, depthAll ts < level → (add ts).weight ≤ weightAll ts + 1)
    (hzero : ∀ ts, weightAll ts = 0 → (add ts).weight = 0)
    {fs : List (Expr α)} {d : ℕ} (hd : d ≤ level) (hfs : depthAll fs ≤ d) :
    (∀ p ∈ (collectPowers add fs).powers, pairDepth p ≤ d) ∧
      pairsWeight (collectPowers add fs).powers ≤ weightAll (factorsAll fs) := by
  have hdeep : ∀ f ∈ factorsAll fs, f.depth ≤ d := fun f hf =>
    (depth_le_of_mem_factorsAll hf).trans hfs
  have hheavy := pairsWeight_foldl_insert (p := ⟨Scalar.one, []⟩) hone hdepth hweight hzero hd hdeep
    (by simp)
  exact ⟨depth_foldl_insert hdepth hd hdeep (by simp),
    by simpa [pairsWeight, collectPowers] using hheavy⟩

end

/-- Turning a collected power into a factor. -/
lemma push_small {pow : Expr α → Expr α → Expr α} {f : Folded α} {p : Expr α × Expr α} {d : ℕ}
    (hdepth : (pow p.1 p.2).depth ≤ d) (hd : 1 ≤ d) (hf : ∀ e ∈ f.factors, e.depth ≤ d ∧ 1 ≤ d) :
    (∀ e ∈ (f.push pow p).factors, e.depth ≤ d ∧ 1 ≤ d) ∧
      weightAll (f.push pow p).factors ≤ weightAll f.factors + (pow p.1 p.2).weight := by
  unfold Folded.push
  dsimp only
  split
  · exact ⟨hf, Nat.le_add_right _ _⟩
  · split
    · exact ⟨hf, Nat.le_add_right _ _⟩
    · refine ⟨fun e he => ?_, by simp [weightAll]⟩
      rcases List.mem_append.mp he with he | he
      · exact hf e he
      · rw [List.mem_singleton.mp he]
        exact ⟨hdepth, hd⟩

lemma toExpr_small {f : Folded α} {d : ℕ} (hf : ∀ e ∈ f.factors, e.depth ≤ d ∧ 1 ≤ d) :
    f.toExpr.depth ≤ d ∧ f.toExpr.weight ≤ weightAll f.factors + 1 := by
  unfold Folded.toExpr
  split_ifs with hzero hempty hone
  · simp [depth, weight]
  · simp [depth, weight]
  · refine ⟨depth_collapse_le (by simp [depth]) (fun e he => (hf e he).1) fun _ => ?_,
      weight_collapse_le (by simp [weight])⟩
    obtain ⟨e, he⟩ := List.exists_mem_of_ne_nil f.factors (by simpa using hempty)
    exact (hf e he).2
  · have hdeep := depthAll_le_iff.mpr fun e he => (hf e he).1
    obtain ⟨e, he⟩ := List.exists_mem_of_ne_nil f.factors (by simpa using hempty)
    have := (hf e he).2
    refine ⟨?_, by simp [weight, weightAll]⟩
    simp only [depth, depthAll]
    omega

lemma weight_powWith_le_pairWeight {mul : List (Expr α) → Expr α} {level : ℕ}
    (hmul : Small mul level) {p : Expr α × Expr α} (hp : pairDepth p ≤ level) :
    (powWith mul p.1 p.2).weight ≤ pairWeight p := by
  simp only [pairDepth] at hp
  simp only [pairWeight]
  split_ifs with h
  · unfold powWith
    split_ifs
    · simp [weight]
    · exact le_rfl
    · exact absurd h.1 (by assumption)
  · exact (weight_powWith_le hmul (by omega) (by omega)).1

/-- Turning all collected powers into factors. -/
lemma foldl_push_small {mul : List (Expr α) → Expr α} {level : ℕ} (hmul : Small mul level) {d : ℕ}
    (hd : d ≤ level) {ps : List (Expr α × Expr α)} {f : Folded α}
    (hps : ∀ p ∈ ps, pairDepth p ≤ d) (hf : ∀ e ∈ f.factors, e.depth ≤ d ∧ 1 ≤ d) :
    (∀ e ∈ (ps.foldl (Folded.push (powWith mul)) f).factors, e.depth ≤ d ∧ 1 ≤ d) ∧
      weightAll (ps.foldl (Folded.push (powWith mul)) f).factors ≤
        weightAll f.factors + pairsWeight ps := by
  induction ps generalizing f with
  | nil => exact ⟨hf, by simp⟩
  | cons p ps ih =>
    rw [List.forall_mem_cons] at hps
    have hp := hps.1
    have hpair := weight_powWith_le_pairWeight hmul (hp.trans hd)
    simp only [pairDepth] at hp
    have hdeep := depth_powWith_le hmul (b := p.1) (e := p.2) (by omega) (by omega)
    obtain ⟨hstep, hheavy⟩ := push_small (hdeep.trans hp) (by omega) hf
    obtain ⟨hall, hrest⟩ := ih hps.2 hstep
    refine ⟨hall, hrest.trans ?_⟩
    simp only [pairsWeight, List.map_cons, List.sum_cons]
    omega

theorem mulWith_small (hone : Scalar.isOne (Scalar.one : α) = true)
    {mul : List (Expr α) → Expr α} {level : ℕ} (hmul : Small mul level) {fs : List (Expr α)}
    (h : depthAll fs ≤ level) :
    (mulWith (addWith mul) (powWith mul) fs).depth ≤ depthAll fs ∧
      (mulWith (addWith mul) (powWith mul) fs).weight ≤ weightAll (factorsAll fs) + 1 := by
  obtain ⟨hpairs, hcollect⟩ := collectPowers_small hone (fun _ => depth_addWith_le hmul)
    (fun _ => weight_addWith_le hmul hone) (fun _ => weight_addWith_eq_zero hone mul) h le_rfl
  obtain ⟨hdeep, hheavy⟩ := foldl_push_small (f := ⟨(collectPowers (addWith mul) fs).coefficient, []⟩)
    hmul h hpairs (by simp)
  unfold mulWith
  dsimp only
  split_ifs
  · simp [depth, weight]
  · obtain ⟨hdepth, hweight⟩ := toExpr_small hdeep
    simp only [weightAll] at hheavy
    exact ⟨hdepth, by omega⟩

theorem small_mulAt (hone : Scalar.isOne (Scalar.one : α) = true) (level : ℕ) :
    Small (mulAt level : List (Expr α) → Expr α) level := by
  induction level with
  | zero => exact ⟨fun h => absurd h (Nat.not_lt_zero _), fun h => absurd h (Nat.not_lt_zero _)⟩
  | succ level ih =>
    exact ⟨fun h => (mulWith_small hone ih (Nat.le_of_lt_succ h)).1,
      fun h => (mulWith_small hone ih (Nat.le_of_lt_succ h)).2⟩

theorem weight_mul_le (hone : Scalar.isOne (Scalar.one : α) = true) (fs : List (Expr α)) :
    (mul fs).weight ≤ weightAll (factorsAll fs) + 1 :=
  (small_mulAt hone _).weight (Nat.lt_succ_self _)

theorem weight_add_le (hone : Scalar.isOne (Scalar.one : α) = true) (ts : List (Expr α)) :
    (add ts).weight ≤ weightAll ts + 1 :=
  weight_addWith_le (small_mulAt hone _) hone (Nat.lt_succ_self _)

theorem weight_pow_le (hone : Scalar.isOne (Scalar.one : α) = true) (b e : Expr α) :
    (pow b e).weight ≤ b.weight + e.weight + 1 ∧
      ∀ c x, pow b e = power c (number x) → (pow b e).weight ≤ b.weight + e.weight ∨ e = number x :=
  weight_powWith_le (small_mulAt hone _) (by omega) (by omega)

end EquationCompiler.Expr
