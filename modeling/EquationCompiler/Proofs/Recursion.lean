import EquationCompiler.Proofs.Weight

/-!
# The recursion of the simplifier

How many levels the simplifier is given does not matter as long as exponents are
nested less deep. So sums, products and powers satisfy the equations of their
mutual recursion, in which levels are not mentioned.
-/
namespace EquationCompiler.Expr
variable {α : Type} [Scalar α]

section
variable {mul mul' : List (Expr α) → Expr α} {d : ℕ}
  (hmul : ∀ fs, depthAll fs < d → mul fs = mul' fs)
include hmul

lemma addWith_congr {ts : List (Expr α)} (h : depthAll ts < d) :
    addWith mul ts = addWith mul' ts := by
  have hkept : (collect ts).terms.filterMap (restoreTerm mul) =
      (collect ts).terms.filterMap (restoreTerm mul') := by
    refine List.filterMap_congr fun t ht => ?_
    have hdepth : depthAll [number t.1, t.2] < d := by
      have := (depth_collect le_rfl t ht).1
      simp only [depthAll, depth]
      omega
    simp only [restoreTerm, hmul _ hdepth]
  simp only [addWith, hkept]

lemma powWith_congr (hsmall : Small mul d) {b e : Expr α} (hb : b.depth ≤ d) (he : e.depth < d) :
    powWith mul b e = powWith mul' b e := by
  fun_induction powWith mul b e with
  | case4 e hzero inner x p hwhole hone ih =>
    simp only [depth] at hb
    have hexponents : depthAll [x, e] < d := by
      simp only [depthAll]
      omega
    have hdepth := hsmall.depth hexponents
    rw [ih (by omega) (by omega), hmul _ hexponents]
    conv_rhs => rw [powWith]
    simp [hzero, hone, hwhole]
  | _ =>
    conv_rhs => rw [powWith.eq_def]
    simp [*]

end

section
variable {add add' : List (Expr α) → Expr α} {pow pow' : Expr α → Expr α → Expr α} {d : ℕ}
  (hadd : ∀ ts, depthAll ts < d → add ts = add' ts)
  (hdepth : ∀ ts, depthAll ts < d → (add ts).depth ≤ depthAll ts)

include hadd in
lemma collectPower_congr {b e : Expr α} (he : e.depth < d) {ps : List (Expr α × Expr α)}
    (hps : ∀ p ∈ ps, pairDepth p ≤ d) : collectPower add b e ps = collectPower add' b e ps := by
  induction ps with
  | nil => rfl
  | cons p ps ih =>
    rw [List.forall_mem_cons] at hps
    have hmerged : depthAll [p.2, e] < d := by
      have := hps.1
      simp only [pairDepth] at this
      simp only [depthAll]
      omega
    simp only [collectPower, hadd _ hmerged, ih hps.2]

include hadd hdepth in
lemma collectPowers_congr {fs : List (Expr α)} (h : depthAll fs ≤ d) :
    collectPowers add fs = collectPowers add' fs ∧
      ∀ p ∈ (collectPowers add fs).powers, pairDepth p ≤ d := by
  have hinsert (fs : List (Expr α)) (p : Powers α) (hfs : ∀ f ∈ fs, f.depth ≤ d)
      (hp : ∀ q ∈ p.powers, pairDepth q ≤ d) :
      fs.foldl (Powers.insert add) p = fs.foldl (Powers.insert add') p := by
    induction fs generalizing p with
    | nil => rfl
    | cons f fs ih =>
      rw [List.forall_mem_cons] at hfs
      have hstep : p.insert add f = p.insert add' f := by
        by_cases hnumber : ∃ x, f = number x
        · obtain ⟨x, rfl⟩ := hnumber
          rfl
        · have hother := not_exists.mp hnumber
          have hweight : f.weight ≠ 0 := fun h0 => hnumber (weight_eq_zero.mp h0)
          have hpair := (pairDepth_splitPower hweight).trans_le hfs.1
          simp only [pairDepth] at hpair
          rw [Powers.insert_of_ne_number hother, Powers.insert_of_ne_number hother,
            collectPower_congr hadd (by omega) hp]
      simp only [List.foldl_cons, ← hstep]
      exact ih _ hfs.2 (depth_insert hdepth le_rfl hfs.1 hp)
  have hdeep : ∀ f ∈ factorsAll fs, f.depth ≤ d := fun f hf =>
    (depth_le_of_mem_factorsAll hf).trans h
  exact ⟨hinsert _ _ hdeep (by simp), depth_foldl_insert hdepth le_rfl hdeep (by simp)⟩

include hadd hdepth in
lemma mulWith_congr (hpow : ∀ b e, b.depth ≤ d → e.depth < d → pow b e = pow' b e)
    {fs : List (Expr α)} (h : depthAll fs ≤ d) : mulWith add pow fs = mulWith add' pow' fs := by
  have hpush (ps : List (Expr α × Expr α)) (f : Folded α) (hps : ∀ p ∈ ps, pairDepth p ≤ d) :
      ps.foldl (Folded.push pow) f = ps.foldl (Folded.push pow') f := by
    induction ps generalizing f with
    | nil => rfl
    | cons p ps ih =>
      rw [List.forall_mem_cons] at hps
      have hp := hps.1
      simp only [pairDepth] at hp
      have hstep : f.push pow p = f.push pow' p := by
        simp only [Folded.push, hpow p.1 p.2 (by omega) (by omega)]
      simp only [List.foldl_cons, hstep]
      exact ih _ hps.2
  obtain ⟨hcollect, hpairs⟩ := collectPowers_congr hadd hdepth h
  simp only [mulWith, ← hcollect, hpush _ _ hpairs]

end

omit [Scalar α] in
lemma Small.mono {mul : List (Expr α) → Expr α} {level d : ℕ} (h : Small mul level)
    (hd : d ≤ level) : Small mul d :=
  ⟨fun hfs => h.depth (hfs.trans_le hd), fun hfs => h.weight (hfs.trans_le hd)⟩

section
variable (hone : Scalar.isOne (Scalar.one : α) = true)
include hone

/-- A product is the same at all levels above its factors. -/
theorem mulAt_eq_mulAt {fs : List (Expr α)} {level level' : ℕ} (h : depthAll fs < level)
    (h' : depthAll fs < level') : mulAt level fs = mulAt level' fs := by
  induction level generalizing level' fs with
  | zero => exact absurd h (Nat.not_lt_zero _)
  | succ level ih =>
    obtain ⟨level', rfl⟩ := Nat.exists_eq_add_one_of_ne_zero (Nat.ne_zero_of_lt h')
    -- Only products of exponents are formed one level below, and exponents are less deep.
    have hmul (gs : List (Expr α)) (hgs : depthAll gs < depthAll fs) :
        mulAt level gs = mulAt level' gs := ih (by omega) (by omega)
    have hsmall := (small_mulAt hone level).mono (Nat.le_of_lt_succ h)
    exact mulWith_congr (fun _ => addWith_congr hmul) (fun _ => depth_addWith_le hsmall)
      (fun _ _ => powWith_congr hmul hsmall) le_rfl

theorem mulAt_eq_mul {fs : List (Expr α)} {level : ℕ} (h : depthAll fs < level) :
    mulAt level fs = mul fs :=
  mulAt_eq_mulAt hone h (Nat.lt_succ_self _)

lemma addWith_mulAt {ts : List (Expr α)} {level : ℕ} (h : depthAll ts < level) :
    addWith (mulAt level) ts = addWith mul ts :=
  addWith_congr (fun _ => mulAt_eq_mul hone) h

lemma powWith_mulAt {b e : Expr α} {level : ℕ} (hb : b.depth ≤ level) (he : e.depth < level) :
    powWith (mulAt level) b e = powWith mul b e :=
  powWith_congr (fun _ => mulAt_eq_mul hone) (small_mulAt hone level) hb he

theorem add_eq (ts : List (Expr α)) : add ts = addWith mul ts :=
  addWith_mulAt hone (Nat.lt_succ_self _)

theorem pow_eq (b e : Expr α) : pow b e = powWith mul b e :=
  powWith_mulAt hone (by omega) (by omega)

theorem mul_eq (fs : List (Expr α)) : mul fs = mulWith add pow fs := by
  refine mulWith_congr (d := depthAll fs) (fun ts hts => ?_) (fun ts => ?_) (fun b e hb he => ?_)
    le_rfl
  · rw [add_eq hone, addWith_mulAt hone hts]
  · exact depth_addWith_le (small_mulAt hone _)
  · rw [pow_eq hone, powWith_mulAt hone hb he]

end

end EquationCompiler.Expr
