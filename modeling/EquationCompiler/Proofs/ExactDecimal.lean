import EquationCompiler.Proofs.LiteralValue
import EquationCompiler.Proofs.MachineText
import EquationCompiler.Proofs.ResolveValue

/-!
# Exact decimals

Decimals with integers of any size as mantissa and exponent. They are closed
under the operations that simplification folds, so nothing is rounded and nothing
overflows; every literal is read as the number that it spells, and every number
is written as a literal that spells it. Like the real numbers they come with a
limit on exponents, which is that of machine numbers unless another one is given.
-/
namespace EquationCompiler

/-- The number `mantissa * 10^exponent`. -/
structure ExactDecimal where
  mantissa : ℤ
  exponent : ℤ
  deriving DecidableEq, Repr

/-- Exact numbers whose texts spell them, among them all decimals. -/
class SpelledNumeral (α : Type) [ExactNumeral α] : Prop extends Legible α where
  ofDecimal?_isSome (digits : ℕ) (exponent : ℤ) :
    (Numeral.ofDecimal? digits exponent : Option α).isSome
  text_spells (x : α) : ∃ cs : List Char, (∃ c ∈ cs.head?, c.isDigit = true) ∧
    ((Numeral.text x).toList = cs ∧ literalReal cs = toReal x ∨
      (Numeral.text x).toList = '-' :: cs ∧ literalReal cs = -toReal x)

namespace ExactDecimal

noncomputable instance : RealValued ExactDecimal :=
  ⟨fun x => x.mantissa * ((10 : ℕ) : ℝ) ^ x.exponent⟩

lemma toReal_eq (x : ExactDecimal) : toReal x = x.mantissa * (10 : ℝ) ^ x.exponent := by
  show x.mantissa * ((10 : ℕ) : ℝ) ^ x.exponent = _
  rw [Nat.cast_ofNat]

lemma ten_zpow_pos (k : ℤ) : 0 < (10 : ℝ) ^ k := zpow_pos (by norm_num) k

/-- The mantissa for an exponent that is not above the given one. -/
def mantissaAt (x : ExactDecimal) (k : ℤ) : ℤ := x.mantissa * 10 ^ (x.exponent - k).toNat

lemma toReal_eq_mantissaAt {x : ExactDecimal} {k : ℤ} (h : k ≤ x.exponent) :
    toReal x = x.mantissaAt k * (10 : ℝ) ^ k := by
  obtain ⟨n, hn⟩ := Int.eq_ofNat_of_zero_le (sub_nonneg.mpr h)
  have hexponent : x.exponent = n + k := by omega
  rw [toReal_eq, mantissaAt, hn, Int.toNat_natCast, hexponent, zpow_add₀ (by norm_num)]
  push_cast
  rw [zpow_natCast, mul_assoc]

/-- The sum, at the smaller of both exponents. -/
def add (x y : ExactDecimal) : ExactDecimal :=
  let k := min x.exponent y.exponent
  ⟨x.mantissaAt k + y.mantissaAt k, k⟩

/-- The quotient of two numbers, if it is whole and its absolute value is below `10^15`. -/
def wholeQuotient? (x y : ExactDecimal) : Option ℤ :=
  let k := min x.exponent y.exponent
  if y.mantissaAt k ≠ 0 ∧ y.mantissaAt k ∣ x.mantissaAt k ∧
      (x.mantissaAt k / y.mantissaAt k).natAbs < 10 ^ 15 then
    some (x.mantissaAt k / y.mantissaAt k)
  else none

/-- Moves zeros at the end of the digits into the exponent. -/
def trimZeros : ℕ → Shortest.Decimal → Shortest.Decimal
  | 0, d => d
  | rounds + 1, d =>
    if d.digits % 10 = 0 then trimZeros rounds ⟨d.digits / 10, d.exponent + 1⟩ else d

/-- The digits without zeros at their end, in the form of the texts of machine numbers. -/
def text (x : ExactDecimal) : String :=
  if x.mantissa = 0 then "0.0"
  else (if x.mantissa < 0 then "-" else "") ++
    (trimZeros x.mantissa.natAbs.log2 ⟨x.mantissa.natAbs, x.exponent⟩).text

/-- Exact decimals, with a limit on the exponents of `natPower`. -/
@[reducible]
def numeral (limit : ℕ) : Numeral ExactDecimal where
  add := add
  mul x y := ⟨x.mantissa * y.mantissa, x.exponent + y.exponent⟩
  neg x := ⟨-x.mantissa, x.exponent⟩
  zero := ⟨0, 0⟩
  one := ⟨1, 0⟩
  half := ⟨5, -1⟩
  same x y :=
    let k := min x.exponent y.exponent
    x.mantissaAt k = y.mantissaAt k
  isNegative x := x.mantissa < 0
  isFinite _ := true
  whole? x := wholeQuotient? x ⟨1, 0⟩
  power? x n := some ⟨x.mantissa ^ n, x.exponent * n⟩
  quotient? x y := (wholeQuotient? x y).map fun n => ⟨n, 0⟩
  exponentLimit := limit
  ofDecimal? digits exponent := some ⟨digits, exponent⟩
  text := text

instance : Numeral ExactDecimal := numeral machineExponentLimit

lemma toReal_add (x y : ExactDecimal) : toReal (add x y) = toReal x + toReal y := by
  rw [toReal_eq_mantissaAt (min_le_left x.exponent y.exponent),
    toReal_eq_mantissaAt (min_le_right x.exponent y.exponent), toReal_eq]
  simp only [add]
  push_cast
  ring

lemma wholeQuotient?_eq_some_iff {x y : ExactDecimal} {n : ℤ} :
    wholeQuotient? x y = some n ↔
      toReal y ≠ 0 ∧ toReal x = n * toReal y ∧ n.natAbs < 10 ^ 15 := by
  have hpos := ten_zpow_pos (min x.exponent y.exponent)
  rw [toReal_eq_mantissaAt (min_le_left x.exponent y.exponent),
    toReal_eq_mantissaAt (min_le_right x.exponent y.exponent)]
  unfold wholeQuotient?
  dsimp only
  generalize x.mantissaAt (min x.exponent y.exponent) = a
  generalize y.mantissaAt (min x.exponent y.exponent) = b
  have hzero : (b : ℝ) * 10 ^ min x.exponent y.exponent ≠ 0 ↔ b ≠ 0 := by
    simp [hpos.ne']
  have hscaled : (a : ℝ) * 10 ^ min x.exponent y.exponent =
      n * (b * 10 ^ min x.exponent y.exponent) ↔ a = n * b := by
    rw [← mul_assoc, mul_left_inj' hpos.ne']
    exact_mod_cast Iff.rfl
  rw [hzero, hscaled]
  constructor
  · intro h
    split_ifs at h with hquotient
    obtain ⟨hb, hdvd, hn⟩ := hquotient
    obtain rfl := Option.some.inj h
    exact ⟨hb, (Int.ediv_mul_cancel hdvd).symm, hn⟩
  · rintro ⟨hb, rfl, hn⟩
    have hquotient : n * b / b = n := Int.mul_ediv_cancel n hb
    rw [if_pos ⟨hb, dvd_mul_left b n, by rwa [hquotient]⟩, hquotient]

lemma toReal_mul (x y : ExactDecimal) : toReal (x * y) = toReal x * toReal y := by
  show toReal (⟨x.mantissa * y.mantissa, x.exponent + y.exponent⟩ : ExactDecimal) = _
  rw [toReal_eq, toReal_eq, toReal_eq, zpow_add₀ (by norm_num)]
  push_cast
  ring

lemma toReal_neg (x : ExactDecimal) : toReal (-x) = -toReal x := by
  show toReal (⟨-x.mantissa, x.exponent⟩ : ExactDecimal) = _
  rw [toReal_eq, toReal_eq]
  push_cast
  ring

lemma toReal_whole (n : ℤ) : toReal (⟨n, 0⟩ : ExactDecimal) = n := by
  simp [toReal_eq]

lemma toReal_zero : toReal (Scalar.zero : ExactDecimal) = 0 :=
  (toReal_whole 0).trans Int.cast_zero

lemma toReal_one : toReal (Scalar.one : ExactDecimal) = 1 :=
  (toReal_whole 1).trans Int.cast_one

lemma toReal_half : toReal (Scalar.half : ExactDecimal) = 1 / 2 := by
  show toReal (⟨5, -1⟩ : ExactDecimal) = _
  norm_num [toReal_eq]

lemma same_iff (x y : ExactDecimal) : Scalar.same x y = true ↔ toReal x = toReal y := by
  have hpos := ten_zpow_pos (min x.exponent y.exponent)
  show decide (x.mantissaAt _ = y.mantissaAt _) = true ↔ _
  rw [decide_eq_true_iff, toReal_eq_mantissaAt (min_le_left x.exponent y.exponent),
    toReal_eq_mantissaAt (min_le_right x.exponent y.exponent), mul_left_inj' hpos.ne',
    Int.cast_inj]

lemma isNegative_iff (x : ExactDecimal) : Scalar.isNegative x = true ↔ toReal x < 0 := by
  show decide (x.mantissa < 0) = true ↔ _
  rw [decide_eq_true_iff, toReal_eq, mul_neg_iff]
  simp [(ten_zpow_pos x.exponent).not_gt, ten_zpow_pos x.exponent]

lemma whole?_eq_some_iff (x : ExactDecimal) (n : ℤ) :
    Scalar.whole? x = some n ↔ toReal x = n ∧ n.natAbs < 10 ^ 15 := by
  show wholeQuotient? x ⟨1, 0⟩ = some n ↔ _
  rw [wholeQuotient?_eq_some_iff]
  simp [toReal_whole]

lemma power?_eq_some {x y : ExactDecimal} {n : ℕ} (h : Scalar.power? x n = some y) :
    toReal y = toReal x ^ n := by
  obtain rfl := Option.some.inj h
  show toReal (⟨x.mantissa ^ n, x.exponent * n⟩ : ExactDecimal) = _
  rw [toReal_eq, toReal_eq, mul_pow, zpow_mul, zpow_natCast]
  push_cast
  rfl

lemma quotient?_eq_some {x y q : ExactDecimal} (h : Scalar.quotient? x y = some q) :
    toReal q = toReal x / toReal y := by
  obtain ⟨n, hn, rfl⟩ := Option.map_eq_some_iff.mp h
  obtain ⟨hy, hx, -⟩ := wholeQuotient?_eq_some_iff.mp hn
  rw [hx, mul_div_cancel_right₀ _ hy, toReal_whole]

lemma toReal_ofDecimal {digits : ℕ} {exponent : ℤ} {x : ExactDecimal}
    (h : Numeral.ofDecimal? digits exponent = some x) :
    toReal x = digits * 10 ^ exponent := by
  obtain rfl := Option.some.inj h
  simp [toReal_eq]

/-- Without an effective limit decimals are exact. -/
@[reducible]
noncomputable def exactNumeral {limit : ℕ} (h : 10 ^ 15 ≤ limit) : ExactNumeral ExactDecimal where
  toScalar := (numeral limit).toScalar
  toRealValued := inferInstance
  toReal_add := toReal_add
  toReal_mul := toReal_mul
  toReal_neg := toReal_neg
  toReal_zero := toReal_zero
  toReal_one := toReal_one
  toReal_half := toReal_half
  same_iff := same_iff
  isNegative_iff := isNegative_iff
  whole?_eq_some_iff := whole?_eq_some_iff
  power?_eq_some := power?_eq_some
  quotient?_eq_some := quotient?_eq_some
  le_exponentLimit := h
  ofDecimal? := (numeral limit).ofDecimal?
  text := text
  toReal_ofDecimal := toReal_ofDecimal

/-- Moving zeros changes no number. -/
lemma trimZeros_value (rounds : ℕ) (d : Shortest.Decimal) :
    ((trimZeros rounds d).digits : ℝ) * 10 ^ (trimZeros rounds d).exponent =
      d.digits * 10 ^ d.exponent := by
  induction rounds generalizing d with
  | zero => rfl
  | succ rounds ih =>
    unfold trimZeros
    split_ifs with hzero
    · rw [ih, zpow_add_one₀ (by norm_num)]
      have hdigits : (d.digits : ℝ) = (d.digits / 10 : ℕ) * 10 := by
        exact_mod_cast (Nat.div_mul_cancel (Nat.dvd_of_mod_eq_zero hzero)).symm
      rw [hdigits]
      push_cast
      ring
    · rfl

/-- The literal of a number without its sign. -/
lemma text_eq (x : ExactDecimal) :
    ∃ cs, IsDecimal cs ∧ (∃ c ∈ cs.head?, c.isDigit = true) ∧ literalReal cs = |toReal x| ∧
      (x.text.toList = cs ∧ 0 ≤ x.mantissa ∨ x.text.toList = '-' :: cs ∧ x.mantissa < 0) := by
  unfold text
  split_ifs with hzero hnegative
  · refine ⟨['0', '.', '0'], ?_, ⟨'0', rfl, rfl⟩, ?_, .inl ⟨rfl, hzero.ge⟩⟩
    · exact Binary64.isDecimal_point Token.isDigits_zero Token.isDigits_zero.2
    · have hliteral := decimalOfLiteral_point Token.isDigits_zero.2 Token.isDigits_zero.2
      rw [List.singleton_append] at hliteral
      rw [literalReal_eq, hliteral, toReal_eq, hzero]
      simp [Text.natOfDigits]
  all_goals
    have hspells := literalReal_text (trimZeros x.mantissa.natAbs.log2
      ⟨x.mantissa.natAbs, x.exponent⟩)
    rw [trimZeros_value] at hspells
    have habs : |toReal x| = (x.mantissa.natAbs : ℝ) * 10 ^ x.exponent := by
      rw [toReal_eq, abs_mul, abs_of_pos (ten_zpow_pos _), Nat.cast_natAbs, Int.cast_abs]
    refine ⟨_, Binary64.isDecimal_text _, Shortest.Decimal.head_text _, hspells.trans habs.symm, ?_⟩
  · exact .inr ⟨by rw [String.toList_append]; rfl, hnegative⟩
  · exact .inl ⟨by rw [String.empty_append], not_lt.mp hnegative⟩

variable {limit : ℕ}

theorem legible : @Legible ExactDecimal (numeral limit) :=
  let _ := numeral limit
  { isOne_one := rfl
    isNegative_neg := fun {x} h => by
      have hx : x.mantissa < 0 := of_decide_eq_true h
      exact decide_eq_false (by show ¬-x.mantissa < 0; omega)
    whole_nonneg := fun {x n} h hx => by
      obtain ⟨-, hn, -⟩ := wholeQuotient?_eq_some_iff.mp h
      have hmantissa : ¬x.mantissa < 0 := of_decide_eq_false hx
      have hreal : (0 : ℝ) ≤ n := by
        have hnonneg : 0 ≤ toReal x :=
          mul_nonneg (Int.cast_nonneg (not_lt.mp hmantissa)) (ten_zpow_pos _).le
        simpa [hn, toReal_eq] using hnonneg
      exact_mod_cast hreal
    text := fun x => by
      obtain ⟨cs, hcs, -, -, htext | htext⟩ := x.text_eq
      · exact ⟨cs, hcs, .inl htext.1⟩
      · exact ⟨cs, hcs, .inr htext.1⟩
    unsigned := fun {x} _ hx => by
      have hmantissa : ¬x.mantissa < 0 := of_decide_eq_false hx
      obtain ⟨cs, hcs, -, -, htext | htext⟩ := x.text_eq
      · exact htext.1.symm ▸ hcs
      · exact absurd htext.2 hmantissa }

theorem spelledNumeral (h : 10 ^ 15 ≤ limit) : @SpelledNumeral ExactDecimal (exactNumeral h) :=
  let _ := exactNumeral h
  { toLegible := legible
    ofDecimal?_isSome := fun _ _ => rfl
    text_spells := fun x => by
      obtain ⟨cs, -, hhead, hvalue, htext⟩ := x.text_eq
      refine ⟨cs, hhead, ?_⟩
      rcases htext with ⟨htext, hsign⟩ | ⟨htext, hsign⟩
      · refine .inl ⟨htext, hvalue.trans (abs_of_nonneg ?_)⟩
        exact mul_nonneg (Int.cast_nonneg hsign) (ten_zpow_pos _).le
      · refine .inr ⟨htext, hvalue.trans (abs_of_nonpos ?_)⟩
        exact mul_nonpos_of_nonpos_of_nonneg (Int.cast_nonpos.mpr hsign.le) (ten_zpow_pos _).le }

end ExactDecimal

end EquationCompiler
