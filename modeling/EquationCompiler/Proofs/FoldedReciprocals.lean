import EquationCompiler.Proofs.NormalForm
import EquationCompiler.Proofs.SimplifyValue

/-!
# Folded reciprocals

A product divides its coefficient by a power of a number, and drops the factor, if the
exponent is negative and whole and the quotient is whole. The divisor is a power to
an exponent that has been lowered to the limit of machine numbers. Main statement: over
the real numbers the divisor is the power itself exactly if the exponent is within the
limit, or the base is one, or the base is minus one and the exponent odd. Dividing by
such divisors keeps the value of the product, however many factors are folded one
after the other.
-/
namespace EquationCompiler.Expr

section
variable {α : Type} [Scalar α]

/-- The number by which folding a reciprocal divides the coefficient, if the quotient is whole. -/
def exactDivisor? (coefficient : α) : Expr α → Expr α → Option α
  | number b, number e =>
    match Scalar.whole? e with
    | some n =>
      if n < 0 ∧ ¬Scalar.isZero b then
        (Scalar.quotient? coefficient (Scalar.natPower b n.natAbs)).map
          fun _ => Scalar.natPower b n.natAbs
      else none
    | none => none
  | _, _ => none

theorem foldReciprocal?_eq_bind (coefficient : α) (b e : Expr α) :
    foldReciprocal? coefficient b e =
      (exactDivisor? coefficient b e).bind (Scalar.quotient? coefficient) := by
  cases b with
  | number b =>
    cases e with
    | number e =>
      rw [foldReciprocal?, exactDivisor?]
      cases Scalar.whole? e with
      | none => rfl
      | some n =>
        dsimp only
        split_ifs
        · cases hquotient : Scalar.quotient? coefficient (Scalar.natPower b n.natAbs) with
          | none => rfl
          | some q => exact hquotient.symm
        · rfl
    | _ => rfl
  | _ => rfl

end

open RealScalar

/-- A number other than zero and a negative whole exponent. -/
structure Reciprocal where
  base : ℝ
  exponent : ℤ
  base_ne_zero : base ≠ 0
  exponent_neg : exponent < 0
  exponent_lt : exponent.natAbs < 10 ^ 15

namespace Reciprocal

/-- Base and exponent as a product collects them. -/
def pair (r : Reciprocal) : Expr ℝ × Expr ℝ := (number r.base, number r.exponent)

def factor (r : Reciprocal) : Expr ℝ := power (number r.base) (number r.exponent)

noncomputable def value (r : Reciprocal) : ℝ := r.base ^ r.exponent

lemma value_eq_inv (r : Reciprocal) : r.value = (r.base ^ r.exponent.natAbs)⁻¹ := by
  obtain ⟨k, hk⟩ : ∃ k : ℕ, r.exponent = -k := ⟨r.exponent.natAbs, by have := r.exponent_neg; omega⟩
  rw [value, hk, Int.natAbs_neg, Int.natAbs_natCast, zpow_neg, zpow_natCast]

/-- Lowering the exponent to the limit of machine numbers leaves the power as it is. -/
def Unaffected (r : Reciprocal) : Prop :=
  r.exponent.natAbs ≤ machineExponentLimit ∨ r.base = 1 ∨ r.base = -1 ∧ Odd r.exponent.natAbs

/-- The power by which folding divides. -/
noncomputable def divisor (r : Reciprocal) : ℝ :=
  r.base ^ min r.exponent.natAbs machineExponentLimit

variable (r : Reciprocal) (c : ℝ)

/-- The limit is odd, so that it changes the powers of minus one to larger even exponents. -/
theorem divisor_eq_iff : r.divisor = r.base ^ r.exponent.natAbs ↔ r.Unaffected := by
  unfold divisor Unaffected
  rcases le_or_gt r.exponent.natAbs machineExponentLimit with hle | hgt
  · simp [hle]
  · obtain ⟨k, hk⟩ := Nat.exists_eq_add_of_lt hgt
    have hpow : r.base ^ machineExponentLimit ≠ 0 := pow_ne_zero _ r.base_ne_zero
    have hparity : Even (k + 1) ↔ Odd (machineExponentLimit + k + 1) := by
      simp only [Nat.even_iff, Nat.odd_iff, machineExponentLimit]
      omega
    rw [min_eq_right hgt.le, hk, add_assoc, pow_add, left_eq_mul₀ hpow, pow_eq_one_iff_cases]
    simp [hparity, ← add_assoc]

lemma whole?_exponent : whole? r.exponent = some r.exponent := whole?_intCast r.exponent_lt

theorem exactDivisor?_eq : exactDivisor? c (number r.base) (number r.exponent) =
    (whole? (c / r.divisor)).map fun _ => r.divisor := by
  have hbase : r.base ≠ 0 := r.base_ne_zero
  simp [exactDivisor?, r.whole?_exponent, r.exponent_neg, Scalar.isZero, hbase, divisor,
    Option.map_map, Function.comp_def]

theorem foldReciprocal?_eq : foldReciprocal? c (number r.base) (number r.exponent) =
    (whole? (c / r.divisor)).map fun _ => c / r.divisor := by
  rw [foldReciprocal?_eq_bind, exactDivisor?_eq]
  cases hquotient : whole? (c / r.divisor) with
  | none => rfl
  | some n => simp [hquotient]

/-- A reciprocal that is not folded stays as it is. -/
lemma pow_base : pow (number r.base) (number r.exponent) =
    if r.base = 1 then number 1 else r.factor := by
  have hzero : (r.exponent : ℝ) ≠ 0 := by exact_mod_cast r.exponent_neg.ne
  have hone : (r.exponent : ℝ) ≠ 1 := by
    have := r.exponent_neg
    exact_mod_cast (by omega : r.exponent ≠ 1)
  have hbase : r.base ≠ 0 := r.base_ne_zero
  have hpositive : ¬0 < r.exponent := r.exponent_neg.not_gt
  simp [factor, pow, powWith, numberPower, isZero, isOne, Scalar.isZero, Scalar.isOne, hzero,
    hone, hbase, r.whole?_exponent, hpositive]

lemma hasValue_factor (ρ : Bindings ℝ) : HasValue ρ r.factor r.value := by
  have hpower := PowerDefined.of_int (u := r.base) r.exponent fun h => absurd h r.base_ne_zero
  rw [hasValue_iff]
  exact ⟨by simpa [factor] using hpower, by simp [factor, value, Real.rpow_intCast]⟩

end Reciprocal

/-- What a collected power contributes to the product. A reciprocal that the limit does not affect
contributes its value, and a power that is not folded the value of what raising the base gives. -/
inductive Contributes (ρ : Bindings ℝ) : Expr ℝ × Expr ℝ → ℝ → Prop
  | reciprocal {r : Reciprocal} (hr : r.Unaffected) : Contributes ρ r.pair r.value
  | kept {b e : Expr ℝ} {u : ℝ} (hfold : ∀ c, foldReciprocal? c b e = none)
      (hu : HasValue ρ (pow b e) u) : Contributes ρ (b, e) u

namespace Folded
variable {ρ : Bindings ℝ} {f : Folded ℝ} {u v : ℝ}

/-- The factors are defined, and the coefficient times their values is `v`. -/
def HasValue (ρ : Bindings ℝ) (f : Folded ℝ) (v : ℝ) : Prop :=
  (∀ e ∈ f.factors, e.Defined ρ.value?) ∧
    f.coefficient * (f.factors.map (Expr.value ρ.value?)).prod = v

lemma HasValue.scale (h : f.HasValue ρ v) {c : ℝ} (hc : c = f.coefficient * u) :
    HasValue ρ { f with coefficient := c } (v * u) := by
  obtain ⟨hd, rfl⟩ := h
  refine ⟨hd, ?_⟩
  simp only [hc]
  ring

lemma HasValue.keep (h : f.HasValue ρ v) {e : Expr ℝ} (he : Expr.HasValue ρ e u) :
    HasValue ρ { f with factors := f.factors ++ [e] } (v * u) := by
  obtain ⟨hd, rfl⟩ := h
  obtain ⟨hde, rfl⟩ := hasValue_iff.mp he
  refine ⟨List.forall_mem_append.mpr ⟨hd, List.forall_mem_singleton.mpr hde⟩, ?_⟩
  simp only [List.map_append, List.prod_append, List.map_cons, List.map_nil, List.prod_singleton]
  ring

/-- One step of the loop. -/
theorem HasValue.push (h : f.HasValue ρ v) {p : Expr ℝ × Expr ℝ} (hp : Contributes ρ p u) :
    (f.push pow p).HasValue ρ (v * u) := by
  cases hp with
  | @reciprocal r hr =>
    have hdivisor := r.divisor_eq_iff.mpr hr
    rw [Reciprocal.pair, Folded.push, r.foldReciprocal?_eq]
    cases whole? (f.coefficient / r.divisor) with
    | some n => exact h.scale (by rw [hdivisor, r.value_eq_inv, div_eq_mul_inv])
    | none =>
      simp only [r.pow_base, Option.map_none]
      split_ifs with hone
      · exact h.scale (by simp [Reciprocal.value, hone])
      · exact h.keep (r.hasValue_factor ρ)
  | @kept b e u hfold hu =>
    simp only [Folded.push, hfold]
    split
    · next x hx =>
      rw [hx, hasValue_iff] at hu
      exact h.scale (by rw [← hu.2]; rfl)
    · exact h.keep hu

/-- The whole loop. -/
theorem HasValue.foldl_push (h : f.HasValue ρ v) {ps : List (Expr ℝ × Expr ℝ)} {us : List ℝ}
    (hps : List.Forall₂ (Contributes ρ) ps us) :
    (ps.foldl (Folded.push pow) f).HasValue ρ (v * us.prod) := by
  induction hps generalizing f v with
  | nil => simpa using h
  | cons hp _ ih =>
    have hrest := ih (h.push hp)
    rwa [mul_assoc, ← List.prod_cons] at hrest

lemma HasValue.toExpr (h : f.HasValue ρ v) : Expr.HasValue ρ f.toExpr v := by
  let _ := exact (le_refl (10 ^ 15))
  obtain ⟨hd, hv⟩ := toExpr_spec h.1
  exact hasValue_iff.mpr ⟨hd, hv.trans h.2⟩

end Folded

/-- The value of a product is the product of what it has collected. -/
theorem hasValue_mul_of_contributes {ρ : Bindings ℝ} {fs : List (Expr ℝ)} {us : List ℝ}
    (h : List.Forall₂ (Contributes ρ) (collectPowers add fs).powers us) :
    HasValue ρ (mul fs) ((collectPowers add fs).coefficient * us.prod) := by
  have hone : Scalar.isOne (Scalar.one : ℝ) = true := by simp [Scalar.isOne]
  have hstart : Folded.HasValue ρ ⟨(collectPowers add fs).coefficient, []⟩
      (collectPowers add fs).coefficient := ⟨by simp, by simp⟩
  have hloop := (hstart.foldl_push h).toExpr
  rw [mul_eq hone, mulWith]
  split_ifs with hzero
  · have hc : (collectPowers add fs).coefficient = 0 := by simpa [Scalar.isZero] using hzero
    rw [hc, zero_mul, hasValue_iff]
    simp
  · exact hloop

open Reciprocal

/-- Reciprocals with different bases are collected as they are. -/
lemma collectPowers_factors (c : ℝ) {rs : List Reciprocal}
    (h : rs.Pairwise fun r s => r.base ≠ s.base) :
    collectPowers add (number c :: rs.map factor) = ⟨1 * c, rs.map pair⟩ := by
  have hflat : factorsAll (rs.map factor) = rs.map factor := by
    induction rs with
    | nil => rfl
    | cons r rs ih => rw [List.map_cons, factorsAll, ih h.tail]; rfl
  have hcoefficient : ((rs.map factor).foldl (Powers.insert add) ⟨1 * c, []⟩).coefficient = 1 * c :=
    coefficient_foldl_insert add _ (List.forall_mem_map.mpr fun _ _ => rfl)
  have hunlike : (rs.map factor).Pairwise fun f g =>
      f.isNumber = false → haveOneBase f g = false := by
    refine List.pairwise_map.mpr (h.imp fun hbase _ => ?_)
    simpa [haveOneBase, factor, splitPower, equiv] using hbase
  have hpowers := powers_foldl_insert add ⟨1 * c, []⟩ hunlike (by simp)
  have hall : (rs.map factor).filter (fun f => !f.isNumber) = rs.map factor :=
    List.filter_eq_self.mpr (List.forall_mem_map.mpr fun _ _ => rfl)
  rw [hall, List.nil_append, List.map_map] at hpowers
  rw [collectPowers, factorsAll, hflat]
  exact congrArg₂ Powers.mk hcoefficient hpowers

/-- Folding divides by the power itself exactly if the limit does not affect the power, and only
then keeps the value of a coefficient other than zero. Any number of such folds keeps the value of
a product. -/
theorem reciprocals_fold_exactly (ρ : Bindings ℝ) (c : ℝ) :
    (∀ r : Reciprocal, foldReciprocal? c (number r.base) (number r.exponent) =
      (exactDivisor? c (number r.base) (number r.exponent)).map (c / ·)) ∧
    (∀ (r : Reciprocal) (d : ℝ),
      exactDivisor? c (number r.base) (number r.exponent) = some d →
        (d = r.base ^ r.exponent.natAbs ↔ r.Unaffected) ∧
          (c / d = c * r.value ↔ c = 0 ∨ r.Unaffected)) ∧
    (∀ (fs : List (Expr ℝ)) (us : List ℝ),
      List.Forall₂ (Contributes ρ) (collectPowers add fs).powers us →
        HasValue ρ (mul fs) ((collectPowers add fs).coefficient * us.prod)) ∧
    ∀ rs : List Reciprocal,
      (rs.Pairwise fun r s => r.base ≠ s.base) → (∀ r ∈ rs, r.Unaffected) →
        HasValue ρ (mul (number c :: rs.map factor)) (c * (rs.map Reciprocal.value).prod) := by
  refine ⟨fun r => ?_, fun r d h => ?_, fun fs us => hasValue_mul_of_contributes,
    fun rs hbases hrs => ?_⟩
  · rw [r.foldReciprocal?_eq, r.exactDivisor?_eq, Option.map_map]
    rfl
  · rw [r.exactDivisor?_eq] at h
    obtain ⟨n, -, rfl⟩ := Option.map_eq_some_iff.mp h
    refine ⟨r.divisor_eq_iff, ?_⟩
    rw [r.value_eq_inv, div_eq_mul_inv, mul_eq_mul_left_iff, inv_inj, r.divisor_eq_iff, or_comm]
  · have hcollected := collectPowers_factors c hbases
    have hall : List.Forall₂ (Contributes ρ) (collectPowers add (number c :: rs.map factor)).powers
        (rs.map Reciprocal.value) := by
      rw [hcollected, List.forall₂_map_left_iff, List.forall₂_map_right_iff]
      exact List.forall₂_same.mpr fun r hr => .reciprocal (hrs r hr)
    have hproduct := hasValue_mul_of_contributes hall
    rwa [hcollected, one_mul] at hproduct

/-- Minus one to an even exponent above the limit is folded as minus one. The other reciprocals are
not affected by it. -/
theorem reciprocals_fold_exactly_minus_one :
    exactDivisor? (2 : ℝ) (number (-1)) (number (-2147483648)) = some (-1) ∧
      foldReciprocal? (2 : ℝ) (number (-1)) (number (-2147483648)) = some (-2) ∧
      (-1 : ℝ) ≠ (-1) ^ 2147483648 ∧
      HasValue [("x", 5)] (mul [number 24, power (number (-2)) (number (-3)), symbol "x"]) (-15) ∧
      HasValue [] (mul [number 24, power (number (-2)) (number (-3)),
        power (number 3) (number (-1))]) (-1) := by
  obtain ⟨hmap, hdivisor, hcollected, -⟩ := reciprocals_fold_exactly [("x", 5)] 2
  let q : Reciprocal := ⟨-1, -2147483648, by norm_num, by norm_num, by norm_num⟩
  let r : Reciprocal := ⟨-2, -3, by norm_num, by norm_num, by norm_num⟩
  let s : Reciprocal := ⟨3, -1, by norm_num, by norm_num, by norm_num⟩
  have hq : ¬q.Unaffected := by norm_num [Unaffected, q, machineExponentLimit, Nat.odd_iff]
  have hr : r.Unaffected := .inl (by norm_num [r, machineExponentLimit])
  have hs : s.Unaffected := .inl (by norm_num [s, machineExponentLimit])
  have hlowered : q.divisor = -1 := by
    have hodd : Odd machineExponentLimit := by norm_num [machineExponentLimit, Nat.odd_iff]
    rw [divisor, show min q.exponent.natAbs machineExponentLimit = machineExponentLimit from rfl]
    exact hodd.neg_one_pow
  have hquotient : whole? (-2) = some (-2) := by simpa using whole?_intCast (n := -2) (by norm_num)
  have hfound : exactDivisor? 2 (number q.base) (number q.exponent) = some (-1) := by
    rw [q.exactDivisor?_eq, hlowered]
    norm_num [hquotient]
  have hfold := hmap q
  rw [hfound] at hfold
  refine ⟨by simpa [q] using hfound, ?_, fun h => hq ((hdivisor q (-1) hfound).1.mp h), ?_, ?_⟩
  · norm_num [q] at hfold
    exact hfold
  · have hx : HasValue [("x", 5)] (pow (symbol "x") (number 1)) 5 := by
      rw [hasValue_iff]
      simp [pow, powWith, isZero, isOne, Scalar.isZero, Scalar.isOne, Bindings.value?]
    have hpowers : collectPowers add [number 24, r.factor, symbol "x"] =
        ⟨24, [r.pair, (symbol "x", number 1)]⟩ := by
      simp [collectPowers, factorsAll, factors, Powers.insert, splitPower, collectPower, equiv,
        factor, pair]
    have hproduct := hcollected [number 24, r.factor, symbol "x"] [r.value, 5] (by
      rw [hpowers]
      exact .cons (.reciprocal hr) (.cons (.kept (fun _ => rfl) hx) .nil))
    rw [hpowers] at hproduct
    norm_num [factor, Reciprocal.value, r] at hproduct
    exact hproduct
  · obtain ⟨-, -, -, hmul⟩ := reciprocals_fold_exactly [] 24
    have hproduct := hmul [r, s] (by norm_num [r, s]) (by simp [hr, hs])
    norm_num [factor, Reciprocal.value, r, s] at hproduct
    exact hproduct

end EquationCompiler.Expr
