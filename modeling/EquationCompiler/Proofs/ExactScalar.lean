import EquationCompiler.Number.Scalar
import Mathlib.Algebra.Order.Archimedean.Real.Basic
import Mathlib.Tactic.Ring

/-!
# Exact scalars

A scalar is exact if its operations are those of the real numbers that it stands
for, so that nothing is rounded and nothing overflows. Every integer that
`whole?` finds is then a possible exponent of `natPower`.

The real numbers themselves come with a limit on exponents. With a limit of
`10^15` they are exact; with a smaller one, such as that of machine numbers, they
are the same except for larger exponents.
-/
namespace EquationCompiler

/-- The invariant of repeated squaring: enough rounds multiply the collected product by the whole
power. Only products matter for it. -/
lemma Scalar.map_squareAndMultiply {α : Type} [Scalar α] {f : α → ℝ}
    (hf : ∀ x y, f (x * y) = f x * f y) (rounds : ℕ) (product x : α) (n : ℕ) (h : n < 2 ^ rounds) :
    f (squareAndMultiply rounds product x n) = f product * f x ^ n := by
  induction rounds generalizing product x n with
  | zero =>
    have hn : n = 0 := by simpa using h
    simp [squareAndMultiply, hn]
  | succ rounds ih =>
    have hhalf : n / 2 < 2 ^ rounds := by rw [pow_succ] at h; omega
    have hsplit : f x ^ n = f x ^ (n % 2) * (f x * f x) ^ (n / 2) := by
      rw [← pow_two, ← pow_mul, ← pow_add, Nat.mod_add_div]
    simp only [squareAndMultiply]
    rw [hsplit]
    rcases Nat.mod_two_eq_zero_or_one n with hbit | hbit
    · simp only [hbit, zero_ne_one, if_false, pow_zero, one_mul]
      split_ifs with hz
      · simp [hz]
      · rw [ih _ _ _ hhalf, hf]
    · simp only [hbit, if_true, pow_one, ← mul_assoc]
      split_ifs with hz
      · simp [hz, hf]
      · rw [ih _ _ _ hhalf, hf, hf]

/-- Types whose elements stand for real numbers. -/
class RealValued (α : Type) where
  toReal : α → ℝ

export RealValued (toReal)

instance : RealValued ℝ := ⟨id⟩

@[simp] theorem toReal_real (x : ℝ) : toReal x = x := rfl

/-- Scalars with the arithmetic of real numbers. -/
class ExactScalar (α : Type) extends Scalar α, RealValued α where
  toReal_add (x y : α) : toReal (x + y) = toReal x + toReal y
  toReal_mul (x y : α) : toReal (x * y) = toReal x * toReal y
  toReal_neg (x : α) : toReal (-x) = -toReal x
  toReal_zero : toReal Scalar.zero = 0
  toReal_one : toReal Scalar.one = 1
  toReal_half : toReal Scalar.half = 1 / 2
  same_iff (x y : α) : Scalar.same x y = true ↔ toReal x = toReal y
  isNegative_iff (x : α) : Scalar.isNegative x = true ↔ toReal x < 0
  whole?_eq_some_iff (x : α) (n : ℤ) :
    Scalar.whole? x = some n ↔ toReal x = n ∧ n.natAbs < 10 ^ 15
  power?_eq_some {x y : α} {n : ℕ} (h : Scalar.power? x n = some y) :
    toReal y = toReal x ^ n
  quotient?_eq_some {x y q : α} (h : Scalar.quotient? x y = some q) :
    toReal q = toReal x / toReal y
  le_exponentLimit : 10 ^ 15 ≤ Scalar.exponentLimit α

namespace ExactScalar
variable {α : Type} [ExactScalar α]

attribute [simp] toReal_add toReal_mul toReal_neg toReal_zero toReal_one toReal_half

@[simp] theorem toReal_two : toReal (Scalar.two : α) = 2 := by
  simp only [Scalar.two, toReal_add, toReal_one]
  norm_num

theorem isZero_iff (x : α) : Scalar.isZero x = true ↔ toReal x = 0 := by
  simp [Scalar.isZero, same_iff]

theorem isOne_iff (x : α) : Scalar.isOne x = true ↔ toReal x = 1 := by
  simp [Scalar.isOne, same_iff]

theorem isPositive_iff (x : α) : Scalar.isPositive x = true ↔ 0 < toReal x := by
  simp [Scalar.isPositive, isNegative_iff]

/-- Repeated squaring computes the power for every exponent up to the limit. -/
theorem toReal_natPower (x : α) {n : ℕ} (h : n ≤ Scalar.exponentLimit α) :
    toReal (Scalar.natPower x n) = toReal x ^ n := by
  simp only [Scalar.natPower, min_eq_left h]
  rw [Scalar.map_squareAndMultiply toReal_mul _ _ _ _ Nat.lt_log2_self, toReal_one, one_mul]

end ExactScalar

namespace RealScalar

/-- The integer that a real number of absolute value below `10^15` equals. -/
noncomputable def whole? (x : ℝ) : Option ℤ :=
  if x = ⌊x⌋ ∧ ⌊x⌋.natAbs < 10 ^ 15 then some ⌊x⌋ else none

theorem whole?_eq_some_iff (x : ℝ) (n : ℤ) :
    whole? x = some n ↔ x = n ∧ n.natAbs < 10 ^ 15 := by
  constructor
  · intro h
    simp only [whole?] at h
    split_ifs at h with hx
    obtain rfl : ⌊x⌋ = n := by simpa using h
    exact hx
  · rintro ⟨rfl, hn⟩
    simp only [whole?, Int.floor_intCast, true_and, if_pos hn]

lemma whole?_intCast {n : ℤ} (h : n.natAbs < 10 ^ 15) : whole? n = some n :=
  (whole?_eq_some_iff n n).mpr ⟨rfl, h⟩

/-- The real numbers, with a limit on the exponents of `natPower`. -/
@[reducible]
noncomputable def limited (limit : ℕ) : Scalar ℝ where
  zero := 0
  one := 1
  half := 1 / 2
  same x y := decide (x = y)
  isNegative x := decide (x < 0)
  isFinite _ := true
  whole? := whole?
  power? x n := some (x ^ n)
  quotient? x y := (whole? (x / y)).map fun _ => x / y
  exponentLimit := limit

section
variable (limit : ℕ) (x y : ℝ)

@[simp] theorem limited_mul : @HMul.hMul ℝ ℝ ℝ (@instHMul ℝ (limited limit).toMul) x y = x * y := rfl

@[simp] theorem limited_add : @HAdd.hAdd ℝ ℝ ℝ (@instHAdd ℝ (limited limit).toAdd) x y = x + y := rfl

@[simp] theorem limited_neg : @Neg.neg ℝ (limited limit).toNeg x = -x := rfl

@[simp] theorem limited_zero : @Scalar.zero ℝ (limited limit) = 0 := rfl

@[simp] theorem limited_one : @Scalar.one ℝ (limited limit) = 1 := rfl

@[simp] theorem limited_half : @Scalar.half ℝ (limited limit) = 1 / 2 := rfl

@[simp] theorem limited_same : @Scalar.same ℝ (limited limit) x y = decide (x = y) := rfl

@[simp] theorem limited_isNegative : @Scalar.isNegative ℝ (limited limit) x = decide (x < 0) := rfl

@[simp] theorem limited_isFinite : @Scalar.isFinite ℝ (limited limit) x = true := rfl

@[simp] theorem limited_whole? : @Scalar.whole? ℝ (limited limit) x = whole? x := rfl

@[simp] theorem limited_power? (n : ℕ) :
    @Scalar.power? ℝ (limited limit) x n = some (x ^ n) := rfl

@[simp] theorem limited_quotient? :
    @Scalar.quotient? ℝ (limited limit) x y = (whole? (x / y)).map fun _ => x / y := rfl

@[simp] theorem limited_exponentLimit : @Scalar.exponentLimit ℝ (limited limit) = limit := rfl

end

/-- Without an effective limit the real numbers are exact. -/
@[reducible]
noncomputable def exact {limit : ℕ} (h : 10 ^ 15 ≤ limit) : ExactScalar ℝ where
  toScalar := limited limit
  toRealValued := inferInstance
  toReal_add _ _ := rfl
  toReal_mul _ _ := rfl
  toReal_neg _ := rfl
  toReal_zero := rfl
  toReal_one := rfl
  toReal_half := rfl
  same_iff _ _ := decide_eq_true_iff
  isNegative_iff _ := decide_eq_true_iff
  whole?_eq_some_iff := whole?_eq_some_iff
  power?_eq_some h := (Option.some.inj h).symm
  quotient?_eq_some h := by
    obtain ⟨n, _, rfl⟩ := Option.map_eq_some_iff.mp h
    rfl
  le_exponentLimit := h

/-- The limit lowers larger exponents and has no effect on others. -/
@[simp] theorem limited_natPower (limit : ℕ) (x : ℝ) (n : ℕ) :
    @Scalar.natPower ℝ (limited limit) x n = x ^ min n limit := by
  simp only [Scalar.natPower, limited_exponentLimit]
  have h := @Scalar.map_squareAndMultiply ℝ (limited limit) id (fun _ _ => rfl) _ 1 x _
    (Nat.lt_log2_self (n := min n limit))
  rw [id, id, id, one_mul] at h
  exact h

end RealScalar

/-- A computation is free of the limit if raising the limit of machine numbers changes nothing. This
is so in particular if it raises no number to a larger exponent. -/
def LimitFree {β : Type} (f : ℕ → β) : Prop :=
  ∀ limit, machineExponentLimit ≤ limit → f limit = f machineExponentLimit

lemma LimitFree.of_eq {β : Type} {f : ℕ → β} (y : β)
    (h : ∀ limit, machineExponentLimit ≤ limit → f limit = y) : LimitFree f :=
  fun limit hl => (h limit hl).trans (h _ le_rfl).symm

/-- A computation that goes on with the result of another one. -/
lemma LimitFree.bind {β γ : Type} {f : ℕ → β} {g : ℕ → β → γ} (hf : LimitFree f)
    (hg : LimitFree fun limit => g limit (f machineExponentLimit)) :
    LimitFree fun limit => g limit (f limit) := by
  intro limit hl
  show g limit (f limit) = _
  rw [hf limit hl]
  exact hg limit hl

/-- The limit of exact arithmetic gives the same result as that of machine numbers. -/
lemma LimitFree.eq_exact {β : Type} {f : ℕ → β} (h : LimitFree f) :
    f machineExponentLimit = f (10 ^ 15) :=
  (h (10 ^ 15) (by norm_num [machineExponentLimit])).symm

end EquationCompiler
