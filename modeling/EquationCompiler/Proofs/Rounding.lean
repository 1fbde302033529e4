import EquationCompiler.Proofs.NearestNumber

/-!
# Rounding by dropping bits

A machine rounds by shifting bits out of a significand. Two more bits say where the
exact number is between the significand and the next one, and they are enough to choose
the nearer one. What is left is the nearest number of 53 bits: numbers with a lower
exponent are all below the numbers among which the choice is made.
-/
namespace EquationCompiler.Binary64
open Float.Model (Format UnpackedFloat totalExponent)
open Float.Model.UnpackedFloat

/-- The two bits say where a number is between the significand and the next one. -/
def Describes (em : ExtendedMantissa) (x : ℚ) : Prop :=
  if em.stickyBit then
    (2 * em.mantissa + em.roundBit.toNat : ℕ) < 2 * x ∧
      2 * x < (2 * em.mantissa + em.roundBit.toNat : ℕ) + 1
  else 2 * x = (2 * em.mantissa + em.roundBit.toNat : ℕ)

lemma shiftRight_succ (em : ExtendedMantissa) (k : ℕ) :
    em >>> (k + 1) = (em >>> k).shiftRightOne := rfl

lemma mantissa_shiftRight (em : ExtendedMantissa) (k : ℕ) :
    (em >>> k).mantissa = em.mantissa / 2 ^ k := by
  induction k with
  | zero =>
    rw [pow_zero, Nat.div_one]
    rfl
  | succ k ih =>
    rw [shiftRight_succ, pow_succ, ← Nat.div_div_eq_div_mul, ← ih]
    rfl

lemma mantissa_ofMantissaAndAccuracy (m : ℕ) (accuracy : Accuracy) :
    (ExtendedMantissa.ofMantissaAndAccuracy m accuracy).mantissa = m := by
  cases accuracy with
  | exact => rfl
  | inexact order => cases order <;> rfl

lemma describes_exact (m : ℕ) :
    Describes (ExtendedMantissa.ofMantissaAndAccuracy m .exact) m := by
  simp [Describes, ExtendedMantissa.ofMantissaAndAccuracy]

namespace Describes
variable {em : ExtendedMantissa} {x : ℚ}

lemma shiftRightOne (h : Describes em x) : Describes em.shiftRightOne (x / 2) := by
  have hhalves : 2 * em.shiftRightOne.mantissa + em.shiftRightOne.roundBit.toNat =
      em.mantissa := by
    have hmod := Nat.mod_two_eq_zero_or_one em.mantissa
    rcases hmod with hmod | hmod <;> simp [ExtendedMantissa.shiftRightOne, hmod] <;> omega
  have hhalf : 2 * (x / 2) = x := by ring
  have hsticky : em.shiftRightOne.stickyBit = (em.roundBit || em.stickyBit) := rfl
  unfold Describes at h ⊢
  rw [hhalves, hhalf, hsticky]
  obtain ⟨m, roundBit, stickyBit⟩ := em
  cases roundBit <;> cases stickyBit <;> simp at h ⊢
  · exact h
  · constructor <;> linarith
  · constructor <;> linarith
  · constructor <;> linarith

lemma shiftRight (h : Describes em x) (k : ℕ) : Describes (em >>> k) (x / 2 ^ k) := by
  induction k with
  | zero =>
    rw [pow_zero, div_one]
    exact h
  | succ k ih =>
    rw [shiftRight_succ, pow_succ, ← div_div]
    exact ih.shiftRightOne

lemma mantissa_le (h : Describes em x) : em.mantissa ≤ x := by
  unfold Describes at h
  push_cast at h
  have hbit : (0 : ℚ) ≤ em.roundBit.toNat := Nat.cast_nonneg _
  split_ifs at h <;> linarith

end Describes

/-- The integer is nearest, and even if another one is equally near. -/
structure IsRounded (x : ℚ) (r : ℕ) : Prop where
  near : |(r : ℚ) - x| ≤ 1 / 2
  even (h : |(r : ℚ) - x| = 1 / 2) : Even r

namespace IsRounded
variable {x : ℚ} {r : ℕ} {e : ℤ}

lemma of_lt (h : |(r : ℚ) - x| < 1 / 2) : IsRounded x r := ⟨h.le, fun heq => absurd heq h.ne⟩

/-- Other integers are at least half a unit away. -/
lemma half_le (h : IsRounded x r) {n : ℕ} (hne : n ≠ r) : 1 / 2 ≤ |(n : ℚ) - x| := by
  have hone : (1 : ℚ) ≤ |(n : ℚ) - r| := by
    have hint : (1 : ℤ) ≤ |(n : ℤ) - r| := Int.one_le_abs (by omega)
    exact_mod_cast hint
  have hsum : |(n : ℚ) - r| ≤ |(n : ℚ) - x| + |(r : ℚ) - x| := by
    rw [abs_sub_comm (r : ℚ) x]
    exact abs_sub_le _ _ _
  linarith [h.near]

lemma closest (h : IsRounded x r) (n : ℕ) : |(r : ℚ) - x| ≤ |(n : ℚ) - x| := by
  by_cases hn : n = r
  · rw [hn]
  · exact h.near.trans (h.half_le hn)

end IsRounded

lemma roundedMantissa_bounds (em : ExtendedMantissa) :
    em.roundedMantissa ≤ em.mantissa + 1 ∧ em.mantissa ≤ em.roundedMantissa := by
  obtain ⟨m, roundBit, stickyBit⟩ := em
  cases roundBit <;> cases stickyBit <;>
    simp [ExtendedMantissa.roundedMantissa, ExtendedMantissa.accuracy, Accuracy.roundToNearestEven]
  omega

/-- The nearer of two neighbours is chosen, and the even one in the middle. -/
theorem Describes.isRounded {em : ExtendedMantissa} {x : ℚ} (h : Describes em x) :
    IsRounded x em.roundedMantissa := by
  obtain ⟨m, roundBit, stickyBit⟩ := em
  simp only [ExtendedMantissa.roundedMantissa]
  cases roundBit <;> cases stickyBit <;> simp [Describes] at h
  · refine .of_lt ?_
    simp [h, ExtendedMantissa.accuracy, Accuracy.roundToNearestEven]
  · refine .of_lt (abs_lt.mpr ?_)
    simp only [ExtendedMantissa.accuracy, Accuracy.roundToNearestEven]
    constructor <;> linarith
  · have hmiddle : x = m + 1 / 2 := by linarith
    have heven : Even (m + m % 2) := Nat.even_add.mpr (by rw [Nat.even_iff, Nat.even_iff]; omega)
    refine ⟨?_, fun _ => heven⟩
    simp only [ExtendedMantissa.accuracy, Accuracy.roundToNearestEven]
    rcases Nat.mod_two_eq_zero_or_one m with hm | hm
    · norm_num [hm, hmiddle]
    · norm_num [hm, hmiddle]
  · refine .of_lt (abs_lt.mpr ?_)
    simp only [ExtendedMantissa.accuracy, Accuracy.roundToNearestEven]
    push_cast
    constructor <;> linarith

/-- The nearest multiple of a power of two is the nearest number of 53 bits, if that power is the
least one or the number is so large that it has 53 bits above it. -/
theorem IsRounded.isNearest {x : ℚ} {r : ℕ} {e : ℤ} (h : IsRounded x r)
    (hlarge : -1074 < e → 2 ^ 52 ≤ x) : IsNearest (x * 2 ^ e) r e := by
  have hunit := two_zpow_pos e
  have hdistance (y : ℚ) : |y * 2 ^ e - x * 2 ^ e| = |y - x| * 2 ^ e := by
    rw [← sub_mul, abs_mul, abs_of_pos hunit]
  -- Numbers with a lower exponent are below `x`, and further away than the power of two below it.
  have hlow {n : ℕ} {k : ℤ} (hn : n < 2 ^ 53) (hk : -1074 ≤ k) (hke : k < e) :
      |(r : ℚ) * 2 ^ e - x * 2 ^ e| < |(n : ℚ) * 2 ^ k - x * 2 ^ e| := by
    have hx := hlarge (by omega)
    have hbelow : (n : ℚ) * 2 ^ k < 2 ^ 52 * 2 ^ e := by
      have hcanonical : IsCanonical (2 ^ 52) e := ⟨by norm_num, by omega, fun _ => le_rfl⟩
      exact_mod_cast hcanonical.lt_of_lt hn hk hke
    have hpower : |((2 ^ 52 : ℕ) : ℚ) - x| = x - 2 ^ 52 := by
      rw [Nat.cast_pow, Nat.cast_ofNat, abs_of_nonpos (by linarith), neg_sub]
    have hle : 2 ^ 52 * 2 ^ e ≤ x * 2 ^ e := mul_le_mul_of_nonneg_right hx hunit.le
    calc |(r : ℚ) * 2 ^ e - x * 2 ^ e| = |(r : ℚ) - x| * 2 ^ e := hdistance r
      _ ≤ (x - 2 ^ 52) * 2 ^ e :=
        mul_le_mul_of_nonneg_right (hpower ▸ h.closest (2 ^ 52)) hunit.le
      _ < x * 2 ^ e - n * 2 ^ k := by
        rw [sub_mul]
        linarith
      _ = |(n : ℚ) * 2 ^ k - x * 2 ^ e| := by rw [abs_of_neg (by linarith), neg_sub]
  constructor
  · intro n k hn hk
    rcases lt_or_ge k e with hke | hke
    · exact (hlow hn hk hke).le
    · obtain ⟨j, rfl⟩ : ∃ j : ℕ, k = e + j := ⟨(k - e).toNat, by omega⟩
      rw [mul_zpow_add, hdistance, hdistance]
      exact mul_le_mul_of_nonneg_right (h.closest _) hunit.le
  · intro n k hn hk hne heq
    rcases lt_or_ge k e with hke | hke
    · exact absurd heq (hlow hn hk hke).ne'
    · obtain ⟨j, rfl⟩ : ∃ j : ℕ, k = e + j := ⟨(k - e).toNat, by omega⟩
      rw [mul_zpow_add, hdistance, hdistance] at heq
      rw [mul_zpow_add] at hne
      have hother : n * 2 ^ j ≠ r := fun hr => hne (by rw [hr])
      have hequal := mul_right_cancel₀ hunit.ne' heq
      exact h.even (le_antisymm h.near (hequal ▸ h.half_le hother))

/-- The nearest number is what it is for each significand and exponent of it. -/
lemma IsNearest.congr {q : ℚ} {m n : ℕ} {e k : ℤ} (h : IsNearest q m e)
    (hvalue : (n : ℚ) * 2 ^ k = m * 2 ^ e) (heven : Even n) : IsNearest q n k := by
  refine ⟨?_, fun _ _ _ _ _ _ => heven⟩
  rw [hvalue]
  exact h.closest

/-- A number of at most 53 bits is nearest to itself. -/
lemma isNearest_self (m : ℕ) (e : ℤ) : IsNearest (m * 2 ^ e) m e := by
  refine ⟨fun n k _ _ => ?_, fun n k _ _ hne heq => ?_⟩
  · rw [sub_self, abs_zero]
    exact abs_nonneg _
  · rw [sub_self, abs_zero] at heq
    exact absurd (sub_eq_zero.mp (abs_eq_zero.mp heq)) hne

lemma targetExponent_eq (m : ℕ) (e : ℤ) :
    Format.binary64.targetExponent (totalExponent m e) = max (m.log2 + e - 52) (-1074) := by
  simp only [Format.targetExponent, totalExponent, Format.mantissaBits, Format.minExponent]
  norm_num
  omega

lemma log2_lt_of_lt {m k : ℕ} (h : m < 2 ^ k) (hk : 0 < k) : m.log2 < k := by
  rcases Nat.eq_zero_or_pos m with rfl | hm
  · simpa using hk
  · exact (Nat.log2_lt hm.ne').mpr h

/-- The number is rounded to the nearest one of at most 53 bits, however great. -/
def RoundsTo (q : ℚ) (u : UnpackedFloat) : Prop :=
  ∃ m e, u = unpacked m e ∧ IsCanonical m e ∧ IsNearest q m e

/-- What is left of a significand has at most 53 bits, and has so many above the least exponent. -/
lemma mantissa_bounds {m bits : ℕ} {e : ℤ} (hbits : e + bits = max (m.log2 + e - 52) (-1074)) :
    m / 2 ^ bits < 2 ^ 53 ∧ (-1074 < e + bits → 2 ^ 52 ≤ m / 2 ^ bits) := by
  constructor
  · rw [Nat.div_lt_iff_lt_mul (Nat.two_pow_pos _), ← pow_add]
    exact Nat.lt_log2_self.trans_le (Nat.pow_le_pow_right (by omega) (by omega))
  · intro hlow
    have hlog : m.log2 = 52 + bits := by omega
    have hm : m ≠ 0 := by
      rintro rfl
      rw [Nat.log2_zero] at hlog
      omega
    rw [Nat.le_div_iff_mul_le (Nat.two_pow_pos _), ← pow_add, ← hlog]
    exact Nat.log2_self_le hm

lemma shiftToTargetExponent_of_lt {r : ℕ} {e : ℤ} (hr : r < 2 ^ 53) (he : -1074 ≤ e) :
    shiftToTargetExponent Format.binary64 r e .exact = (⟨r, false, false⟩, e) := by
  have hlog := log2_lt_of_lt hr (by omega)
  have hbits : (Format.binary64.targetExponent (totalExponent r e) - e).toNat = 0 := by
    rw [targetExponent_eq]
    omega
  simp only [shiftToTargetExponent, shiftToExponent, hbits]
  exact congrArg (Prod.mk _) (add_zero e)

/-- A significand that is rounded up to a power of two is shifted once more. -/
lemma shiftToTargetExponent_full {e : ℤ} (he : -1074 ≤ e) :
    shiftToTargetExponent Format.binary64 (2 ^ 53) e .exact =
      (⟨2 ^ 52, false, false⟩, e + 1) := by
  have hbits : (Format.binary64.targetExponent (totalExponent (2 ^ 53) e) - e).toNat = 1 := by
    rw [targetExponent_eq, Nat.log2_two_pow]
    omega
  simp only [shiftToTargetExponent, shiftToExponent, hbits]
  rfl

lemma roundWithAccuracy_eq {m : ℕ} {e target : ℤ} {accuracy : Accuracy} {em : ExtendedMantissa}
    (h : shiftToTargetExponent Format.binary64 m e accuracy = (em, target)) :
    roundWithAccuracy Format.binary64 .positive m e accuracy =
      unpacked (shiftToTargetExponent Format.binary64 em.roundedMantissa target .exact).1.mantissa
        (shiftToTargetExponent Format.binary64 em.roundedMantissa target .exact).2 := by
  unfold roundWithAccuracy
  rw [h]
  rfl

/-- What is left after shifting is rounded, and shifted once more if it has become too long. -/
lemma roundsTo_of_describes {em : ExtendedMantissa} {y : ℚ} {e : ℤ} (hy : Describes em y)
    (hupper : em.mantissa < 2 ^ 53) (hlower : -1074 < e → 2 ^ 52 ≤ em.mantissa) (he : -1074 ≤ e) :
    RoundsTo (y * 2 ^ e)
      (unpacked (shiftToTargetExponent Format.binary64 em.roundedMantissa e .exact).1.mantissa
        (shiftToTargetExponent Format.binary64 em.roundedMantissa e .exact).2) := by
  have hlarge (hlow : -1074 < e) : 2 ^ 52 ≤ y :=
    le_trans (by exact_mod_cast hlower hlow) hy.mantissa_le
  have hnearest := hy.isRounded.isNearest hlarge
  obtain ⟨hle, hge⟩ := roundedMantissa_bounds em
  rcases (show em.roundedMantissa ≤ 2 ^ 53 by omega).lt_or_eq with hsmall | hfull
  · rw [shiftToTargetExponent_of_lt hsmall he]
    exact ⟨_, _, rfl, ⟨hsmall, he, fun hlow => (hlower hlow).trans hge⟩, hnearest⟩
  · rw [hfull] at hnearest ⊢
    rw [shiftToTargetExponent_full he]
    refine ⟨_, _, rfl, ⟨by norm_num, by omega, fun _ => le_rfl⟩, ?_⟩
    refine hnearest.congr ?_ (show Even (2 ^ 52) by decide)
    rw [zpow_add_one₀ two_ne_zero]
    push_cast
    ring

/-- Bits are dropped so that the nearest number is left. -/
theorem roundsTo_roundWithAccuracy {m : ℕ} {e : ℤ} {accuracy : Accuracy} {x : ℚ}
    (hx : Describes (ExtendedMantissa.ofMantissaAndAccuracy m accuracy) x)
    (he : e ≤ max (m.log2 + e - 52) (-1074)) :
    RoundsTo (x * 2 ^ e) (roundWithAccuracy Format.binary64 .positive m e accuracy) := by
  obtain ⟨bits, hbits⟩ : ∃ bits : ℕ, e + bits = max (m.log2 + e - 52) (-1074) :=
    ⟨(max ((m.log2 : ℤ) + e - 52) (-1074) - e).toNat, by omega⟩
  have hshift : shiftToTargetExponent Format.binary64 m e accuracy =
      (ExtendedMantissa.ofMantissaAndAccuracy m accuracy >>> bits, e + bits) := by
    have htarget : (Format.binary64.targetExponent (totalExponent m e) - e).toNat = bits := by
      rw [targetExponent_eq]
      omega
    simp only [shiftToTargetExponent, shiftToExponent, htarget]
  have hvalue : x * 2 ^ e = x / 2 ^ bits * 2 ^ (e + bits) := by
    rw [zpow_add₀ two_ne_zero, zpow_natCast]
    field_simp
  have hmantissa := mantissa_shiftRight (ExtendedMantissa.ofMantissaAndAccuracy m accuracy) bits
  rw [mantissa_ofMantissaAndAccuracy] at hmantissa
  obtain ⟨hupper, hlower⟩ := mantissa_bounds hbits
  rw [roundWithAccuracy_eq hshift, hvalue]
  exact roundsTo_of_describes (hx.shiftRight bits) (hmantissa ▸ hupper) (hmantissa ▸ hlower)
    (by omega)

end EquationCompiler.Binary64
