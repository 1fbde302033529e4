import Mathlib.Analysis.SpecialFunctions.Pow.Real

/-!
# Powers of real numbers

Where a real power is defined, and the two laws that merge exponents. Both hold
for every base, since a negative base admits integer exponents only and zero no
negative ones.
-/
namespace EquationCompiler

/-- A negative base needs an integer exponent, and zero one that is not negative. -/
structure PowerDefined (u w : ℝ) : Prop where
  integer_of_neg : u < 0 → ∃ n : ℤ, w = n
  nonneg_of_zero : u = 0 → 0 ≤ w

namespace PowerDefined
variable {u v w : ℝ}

lemma of_pos (hu : 0 < u) (w : ℝ) : PowerDefined u w :=
  ⟨fun h => absurd h hu.not_gt, fun h => absurd h hu.ne'⟩

lemma of_int (n : ℤ) (hn : u = 0 → 0 ≤ n) : PowerDefined u n :=
  ⟨fun _ => ⟨n, rfl⟩, fun h => Int.cast_nonneg (hn h)⟩

/-- A whole exponent other than zero can be lowered by one. -/
lemma pred_int {n : ℤ} (h : PowerDefined u n) (hn : n ≠ 0) : PowerDefined u ((n : ℝ) - 1) := by
  have hint := of_int (u := u) (n - 1) fun hu => by
    have : 0 ≤ n := by exact_mod_cast h.nonneg_of_zero hu
    omega
  simpa using hint

lemma one (u : ℝ) : PowerDefined u 1 := by
  simpa using of_int (u := u) 1 (by norm_num)

/-- The three kinds of bases with the exponents that they admit. -/
lemma cases (h : PowerDefined u w) :
    0 < u ∨ (u = 0 ∧ 0 ≤ w) ∨ (u < 0 ∧ ∃ n : ℤ, w = n) := by
  rcases lt_trichotomy u 0 with hu | hu | hu
  · exact .inr (.inr ⟨hu, h.integer_of_neg hu⟩)
  · exact .inr (.inl ⟨hu, h.nonneg_of_zero hu⟩)
  · exact .inl hu

lemma add (hv : PowerDefined u v) (hw : PowerDefined u w) : PowerDefined u (v + w) where
  integer_of_neg hu := by
    obtain ⟨m, rfl⟩ := hv.integer_of_neg hu
    obtain ⟨n, rfl⟩ := hw.integer_of_neg hu
    exact ⟨m + n, by push_cast; rfl⟩
  nonneg_of_zero hu := add_nonneg (hv.nonneg_of_zero hu) (hw.nonneg_of_zero hu)

/-- Powers of one base multiply by adding the exponents. -/
theorem rpow_add (hv : PowerDefined u v) (hw : PowerDefined u w) :
    u ^ (v + w) = u ^ v * u ^ w := by
  rcases hv.cases with hu | ⟨rfl, hv0⟩ | ⟨hu, m, rfl⟩
  · exact Real.rpow_add hu v w
  · exact Real.rpow_add_of_nonneg le_rfl hv0 (hw.nonneg_of_zero rfl)
  · obtain ⟨n, rfl⟩ := hw.integer_of_neg hu
    rw [← Int.cast_add, Real.rpow_intCast, Real.rpow_intCast, Real.rpow_intCast,
      zpow_add₀ hu.ne]

/-- A whole power of a power multiplies the exponents. -/
lemma mul_int (hw : PowerDefined u w) (n : ℤ) (h : PowerDefined (u ^ w) n) :
    PowerDefined u (w * n) where
  integer_of_neg hu := by
    obtain ⟨m, rfl⟩ := hw.integer_of_neg hu
    exact ⟨m * n, by push_cast; rfl⟩
  nonneg_of_zero hu := by
    subst hu
    rcases (hw.nonneg_of_zero rfl).eq_or_lt with h0 | hpos
    · simp [← h0]
    · exact mul_nonneg hpos.le (h.nonneg_of_zero (Real.zero_rpow hpos.ne'))

theorem rpow_mul_int (hw : PowerDefined u w) (n : ℤ) (h : PowerDefined (u ^ w) n) :
    u ^ (w * n) = (u ^ w) ^ (n : ℝ) := by
  rcases hw.cases with hu | ⟨rfl, hw0⟩ | ⟨hu, m, rfl⟩
  · exact Real.rpow_mul hu.le w n
  · exact Real.rpow_mul le_rfl w n
  · rw [← Int.cast_mul, Real.rpow_intCast, Real.rpow_intCast, Real.rpow_intCast, zpow_mul]

end PowerDefined

/-- Dividing by a whole power is multiplying by the power with the exponent negated. -/
lemma div_pow_natAbs (c b : ℝ) {n : ℤ} (hn : n < 0) :
    c / b ^ n.natAbs = c * b ^ (n : ℝ) := by
  obtain ⟨k, rfl⟩ : ∃ k : ℕ, n = -k := ⟨n.natAbs, by omega⟩
  rw [Real.rpow_intCast, Int.natAbs_neg, Int.natAbs_natCast, zpow_neg, zpow_natCast, div_eq_mul_inv]

end EquationCompiler
