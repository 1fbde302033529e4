import EquationCompiler.Proofs.MachineText

/-!
# The nearest machine number

The machine numbers are the numbers `m * 2^e` with `m` of at most 53 bits and exponents
in a range. A number is rounded to the nearest one, and to the one with the even
significand if two are equally near. From the middle between the greatest machine number
and the next power of two on, numbers are too large to be rounded.
-/
namespace EquationCompiler.Binary64
open Float.Model (UnpackedFloat)

/-- No number of 53 bits is nearer to `q` than `m * 2^e`, and `m` is even if another one is equally
near. -/
structure IsNearest (q : ℚ) (m : ℕ) (e : ℤ) : Prop where
  closest (n : ℕ) (k : ℤ) (hn : n < 2 ^ 53) (hk : -1074 ≤ k) :
    |(m : ℚ) * 2 ^ e - q| ≤ |(n : ℚ) * 2 ^ k - q|
  even (n : ℕ) (k : ℤ) (hn : n < 2 ^ 53) (hk : -1074 ≤ k) (hne : (n : ℚ) * 2 ^ k ≠ m * 2 ^ e)
    (heq : |(n : ℚ) * 2 ^ k - q| = |(m : ℚ) * 2 ^ e - q|) : Even m

/-- The middle between the greatest machine number and the next power of two. -/
def tooLarge : ℚ := (2 ^ 54 - 1) * 2 ^ (970 : ℤ)

/-- What a number that is not negative is rounded to, unless it is too large. -/
inductive Rounds (q : ℚ) : Option Float → Prop
  | nearest {x : Float} {m : ℕ} {e : ℤ} (hq : q < tooLarge) (hx : ofFloat x = .finite false m e)
      (h : IsNearest q m e) : Rounds q (some x)
  | none (hq : tooLarge ≤ q) : Rounds q none

/-- The exponent is as low as 53 bits permit. -/
structure IsCanonical (m : ℕ) (e : ℤ) : Prop where
  small : m < 2 ^ 53
  low : -1074 ≤ e
  normal : -1074 < e → 2 ^ 52 ≤ m

lemma isCanonical_of_ofBits {bits m : ℕ} {e : ℤ} {negative : Bool}
    (h : ofBits bits = .finite negative m e) : IsCanonical m e ∧ e ≤ 971 := by
  unfold ofBits at h
  simp only [Nat.pow_eq] at h
  split_ifs at h
  · injection h with _ hm he
    exact ⟨⟨by omega, by omega, fun h => by omega⟩, by omega⟩
  · injection h with _ hm he
    exact ⟨⟨by omega, by omega, fun h => by omega⟩, by omega⟩

lemma two_zpow_pos (e : ℤ) : (0 : ℚ) < 2 ^ e := zpow_pos two_pos e

lemma mul_zpow_add (m j : ℕ) (k : ℤ) :
    (m : ℚ) * 2 ^ (k + j) = ((m * 2 ^ j : ℕ) : ℚ) * 2 ^ k := by
  rw [zpow_add₀ two_ne_zero, zpow_natCast]
  push_cast
  ring

namespace IsCanonical
variable {m n : ℕ} {e k : ℤ}

/-- A number with a greater exponent is greater. -/
lemma lt_of_lt (h : IsCanonical m e) (hn : n < 2 ^ 53) (hk : -1074 ≤ k) (hlt : k < e) :
    (n : ℚ) * 2 ^ k < m * 2 ^ e := by
  obtain ⟨j, rfl⟩ : ∃ j : ℕ, e = k + (j + 1 : ℕ) := ⟨(e - k - 1).toNat, by omega⟩
  have hm := h.normal (by omega)
  rw [mul_zpow_add]
  refine mul_lt_mul_of_pos_right (Nat.cast_lt.mpr ?_) (two_zpow_pos k)
  have hpow : 1 ≤ 2 ^ j := Nat.one_le_two_pow
  calc n < 2 ^ 52 * 1 * 2 := by omega
    _ ≤ m * 2 ^ j * 2 := by gcongr
    _ = m * 2 ^ (j + 1) := by ring

/-- Each number has one significand and exponent. -/
theorem unique (hm : IsCanonical m e) (hn : IsCanonical n k) (h : (m : ℚ) * 2 ^ e = n * 2 ^ k) :
    m = n ∧ e = k := by
  obtain hlt | rfl | hlt := lt_trichotomy e k
  · exact absurd h (hn.lt_of_lt hm.small hm.low hlt).ne
  · exact ⟨Nat.cast_injective (mul_right_cancel₀ (two_zpow_pos e).ne' h), rfl⟩
  · exact absurd h (hm.lt_of_lt hn.small hn.low hlt).ne'

end IsCanonical

namespace IsNearest
variable {q : ℚ} {m n : ℕ} {e k : ℤ}

/-- Of two neighbours one has an odd significand, so they are not both nearest. -/
lemma not_value_lt (hm : IsNearest q m e) (hn : IsNearest q n k) (hcm : IsCanonical m e)
    (hcn : IsCanonical n k) : ¬(m : ℚ) * 2 ^ e < n * 2 ^ k := by
  intro hlt
  have heq := le_antisymm (hn.closest m e hcm.small hcm.low) (hm.closest n k hcn.small hcn.low)
  have hmeven := hm.even n k hcn.small hcn.low hlt.ne' heq
  have hneven := hn.even m e hcm.small hcm.low hlt.ne heq.symm
  have hsmall := hcm.small
  have hstep : (n : ℚ) * 2 ^ k ≤ ((m + 1 : ℕ) : ℚ) * 2 ^ e := by
    have hnext := hm.closest (m + 1) e (by rcases hmeven with ⟨i, rfl⟩; omega) hcm.low
    have hunit := two_zpow_pos e
    push_cast at hnext ⊢
    rcases abs_eq_abs.mp heq with h | h
    · linarith
    · rw [abs_of_neg (by linarith)] at hnext
      rcases le_abs'.mp hnext with h' | h' <;> linarith
  rcases le_or_gt e k with hle | hgt
  · obtain ⟨j, rfl⟩ : ∃ j : ℕ, k = e + j := ⟨(k - e).toNat, by omega⟩
    rw [mul_zpow_add] at hlt hstep
    have hlt' := Nat.cast_lt.mp (lt_of_mul_lt_mul_right hlt (two_zpow_pos e).le)
    have hstep' := Nat.cast_le.mp (le_of_mul_le_mul_right hstep (two_zpow_pos e))
    have hodd : n * 2 ^ j = m + 1 := by omega
    have heven := hneven.mul_right (2 ^ j)
    rw [hodd, Nat.even_add_one] at heven
    exact heven hmeven
  · exact absurd (hcm.lt_of_lt hcn.small hcn.low hgt) hlt.not_gt

theorem unique (hm : IsNearest q m e) (hn : IsNearest q n k) (hcm : IsCanonical m e)
    (hcn : IsCanonical n k) : m = n ∧ e = k :=
  hcm.unique hcn (le_antisymm (not_lt.mp (hn.not_value_lt hm hcn hcm))
    (not_lt.mp (hm.not_value_lt hn hcm hcn)))

end IsNearest

section
variable {q : ℚ} {m : ℕ} {e : ℤ}

/-- The greatest machine number and the next power of two are equally far from their middle. -/
lemma exists_half_unit : ∃ half : ℚ, 0 < half ∧
    ((2 ^ 53 - 1 : ℕ) : ℚ) * 2 ^ (971 : ℤ) = tooLarge - half ∧
    ((2 ^ 52 : ℕ) : ℚ) * 2 ^ (972 : ℤ) = tooLarge + half := by
  have hone : (971 : ℤ) = 970 + (1 : ℕ) := rfl
  have htwo : (972 : ℤ) = 970 + (2 : ℕ) := rfl
  refine ⟨2 ^ (970 : ℤ), two_zpow_pos 970, ?_, ?_⟩
  · rw [hone, mul_zpow_add, tooLarge]
    generalize (2 : ℚ) ^ (970 : ℤ) = half
    push_cast
    ring
  · rw [htwo, mul_zpow_add, tooLarge]
    generalize (2 : ℚ) ^ (970 : ℤ) = half
    push_cast
    ring

/-- A number in the range is nearest only to numbers that are not too large. -/
lemma IsNearest.lt_tooLarge (h : IsNearest q m e) (hc : IsCanonical m e) (he : e ≤ 971) :
    q < tooLarge := by
  by_contra hq
  rw [not_lt] at hq
  obtain ⟨half, hhalf, hgreatest, hnext⟩ := exists_half_unit
  have hle : (m : ℚ) * 2 ^ e ≤ ((2 ^ 53 - 1 : ℕ) : ℚ) * 2 ^ (971 : ℤ) := by
    have hm := hc.small
    exact mul_le_mul (Nat.cast_le.mpr (by omega)) (zpow_le_zpow_right₀ one_le_two he)
      (two_zpow_pos e).le (Nat.cast_nonneg _)
  have hclosest := h.closest (2 ^ 52) 972 (by norm_num) (by norm_num)
  have heven := h.even (2 ^ 52) 972 (by norm_num) (by norm_num)
  have hunique := hc.unique (n := 2 ^ 53 - 1) (k := 971)
    ⟨by norm_num, by norm_num, fun _ => by norm_num⟩
  rw [hgreatest] at hle hunique
  rw [hnext] at hclosest heven
  generalize (m : ℚ) * 2 ^ e = value at hle hclosest heven hunique
  rw [abs_of_neg (by linarith : value - q < 0)] at hclosest heven
  rcases le_abs'.mp hclosest with hfar | hfar
  · linarith
  · have hgreat : value = tooLarge - half := by linarith
    obtain ⟨rfl, -⟩ := hunique hgreat
    exact absurd (heven (by linarith) (by rw [abs_of_nonneg (by linarith)]; linarith)) (by decide)

/-- What is nearest to a number beyond the range is too large. -/
lemma IsNearest.tooLarge_le (h : IsNearest q m e) (hc : IsCanonical m e) (he : 971 < e) :
    tooLarge ≤ q := by
  by_contra hq
  rw [not_le] at hq
  obtain ⟨half, hhalf, hgreatest, hnext⟩ := exists_half_unit
  have hle : ((2 ^ 52 : ℕ) : ℚ) * 2 ^ (972 : ℤ) ≤ m * 2 ^ e :=
    mul_le_mul (Nat.cast_le.mpr (hc.normal (by omega)))
      (zpow_le_zpow_right₀ one_le_two (by omega)) (two_zpow_pos _).le (Nat.cast_nonneg _)
  have hclosest := h.closest (2 ^ 53 - 1) 971 (by norm_num) (by norm_num)
  rw [hnext] at hle
  rw [hgreatest, abs_of_pos (by linarith)] at hclosest
  rcases le_abs'.mp hclosest with hfar | hfar <;> linarith

/-- A positive number, or zero if the significand is zero. -/
def unpacked (m : ℕ) (e : ℤ) : UnpackedFloat :=
  if hm : m = 0 then .zero .positive else .finite .positive m e (Nat.pos_of_ne_zero hm)

lemma unpacked_pos (hm : 0 < m) : unpacked m e = .finite .positive m e hm := dif_neg hm.ne'

/-- What the significand and the exponent of a number without a sign stand for. -/
lemma unpack_of_ofFloat {x : Float} (h : ofFloat x = .finite false m e) :
    x.toModel.unpack = unpacked m e := by
  rw [ofFloat_eq] at h
  cases hx : x.toModel.unpack with
  | notANumber | infinity s =>
    rw [hx] at h
    cases h
  | zero s =>
    rw [hx] at h
    cases s <;> cases h
    rfl
  | finite s n k hn =>
    rw [hx] at h
    cases s <;> cases h
    exact (unpacked_pos hn).symm

lemma ofFloat_of_unpack {x : Float} (h : x.toModel.unpack = unpacked m e)
    (hc : IsCanonical m e) : ofFloat x = .finite false m e ∧ x.isFinite = true := by
  show ofFloat x = _ ∧ x.toModel.unpack.isFinite = true
  rw [ofFloat_eq, h]
  unfold unpacked
  split_ifs with hm
  · have he : e = -1074 := by
      have hlow := hc.low
      have hnormal := hc.normal
      omega
    rw [hm, he]
    exact ⟨rfl, rfl⟩
  · exact ⟨rfl, rfl⟩

lemma eq_of_ofFloat {x y : Float} (hx : ofFloat x = .finite false m e)
    (hy : ofFloat y = .finite false m e) : x = y :=
  eq_of_unpack ((unpack_of_ofFloat hx).trans (unpack_of_ofFloat hy).symm)

end

/-- A number is rounded in one way only. -/
theorem Rounds.unique {q : ℚ} {x y : Option Float} (hx : Rounds q x) (hy : Rounds q y) : x = y := by
  cases hx with
  | nearest hq hx hm =>
    cases hy with
    | nearest _ hy hn =>
      obtain ⟨rfl, rfl⟩ := hm.unique hn (isCanonical_of_ofBits hx).1 (isCanonical_of_ofBits hy).1
      rw [eq_of_ofFloat hx hy]
    | none hq' => exact absurd hq hq'.not_gt
  | none hq =>
    cases hy with
    | nearest hq' => exact absurd hq' hq.not_gt
    | none => rfl

end EquationCompiler.Binary64
