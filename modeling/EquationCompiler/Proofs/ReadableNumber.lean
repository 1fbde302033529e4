import EquationCompiler.Proofs.LiteralValue
import EquationCompiler.Proofs.RoundedDecimal
import EquationCompiler.Proofs.Scope

/-!
# Numbers that are read back

The text of a finite machine number is a literal of a finite machine number, also at
the upper end of the range: a decimal that is chosen for a number is rounded to it, so
it is not rounded up to infinity. Numbers that are not finite are written as names.
-/
namespace EquationCompiler

open Binary64 (roundingBound DecimalBounded)

namespace Shortest

lemma contains_of_onGrid? {i : Interval} {p : ℤ} {c : ℕ} (h : i.onGrid? p = some c) :
    i.contains c p = true := by
  unfold Interval.onGrid? at h
  dsimp only at h
  split at h
  · next hbelow habove =>
    split_ifs at h <;> cases h
    · exact hbelow
    · exact habove
  · next hbelow _ =>
    cases h
    exact hbelow
  · next _ habove =>
    cases h
    exact habove
  · cases h

/-- The search ends with a hit, or without digits. -/
lemma search_spec (i : Interval) (grids : ℕ) (p : ℤ) : (i.search grids p).digits = 0 ∨
    i.contains (i.search grids p).digits (i.search grids p).exponent = true := by
  induction grids generalizing p with
  | zero => exact .inl rfl
  | succ grids ih =>
    unfold Interval.search
    split
    · next c hc => exact .inr (contains_of_onGrid? hc)
    · exact ih (p - 1)

/-- The upper end of an interval is not above the bound of rounding, and below it if it belongs to
the interval. -/
lemma upper_le_roundingBound {m k places : ℕ} (hm : m < 2 ^ 53) (hk : k ≤ places) :
    (4 * m + 2) * 2 ^ k ≤ roundingBound (1 + places) ∧
      (m % 2 = 0 → (4 * m + 2) * 2 ^ k < roundingBound (1 + places)) := by
  have hone : roundingBound 1 = 2 ^ 55 - 2 := by
    rw [roundingBound]
    omega
  have hpow : 2 ^ k ≤ 2 ^ places := Nat.pow_le_pow_right (by omega) hk
  rw [Binary64.roundingBound_add, hone]
  refine ⟨Nat.mul_le_mul (by omega) hpow, fun heven => ?_⟩
  exact Nat.mul_lt_mul_of_lt_of_le (by omega) hpow (Nat.two_pow_pos _)

lemma upper_of_contains {i : Interval} {c : ℕ} {p : ℤ} (h : i.contains c p = true) :
    c * (scales p i.unit).1 ≤ i.upper * (scales p i.unit).2 ∧
      (i.closed = false → c * (scales p i.unit).1 < i.upper * (scales p i.unit).2) := by
  unfold Interval.contains at h
  dsimp only at h
  split at h
  · next hclosed => exact ⟨(of_decide_eq_true h).2, by simp [hclosed]⟩
  · exact ⟨(of_decide_eq_true h).2.le, fun _ => (of_decide_eq_true h).2⟩

/-- What lies in the interval of a machine number is rounded to a finite one. -/
lemma decimalBounded_of_contains {m c : ℕ} {q p : ℤ} (hm : m < 2 ^ 53) (hq : q ≤ 971)
    (h : (Interval.ofBinary m q).contains c p = true) : DecimalBounded c p := by
  obtain ⟨hend, hinside⟩ := upper_of_contains h
  obtain ⟨hle, hlt⟩ := upper_le_roundingBound (k := (q - 2).toNat) hm
    (show (q - 2).toNat ≤ 969 by omega)
  have hten : 0 < 10 ^ (-p).toNat := Nat.pow_pos (by omega)
  have hscaled : c * 10 ^ p.toNat ≤ c * (scales p (q - 2)).1 :=
    Nat.mul_le_mul_left _ (Nat.le_mul_of_pos_right _ (Nat.two_pow_pos _))
  have hupper : (4 * m + 2) * (scales p (q - 2)).2 =
      (4 * m + 2) * 2 ^ (q - 2).toNat * 10 ^ (-p).toNat := by
    rw [mul_assoc, mul_comm (2 ^ _)]
    rfl
  unfold DecimalBounded
  by_cases heven : m % 2 = 0
  · calc c * 10 ^ p.toNat ≤ (4 * m + 2) * 2 ^ (q - 2).toNat * 10 ^ (-p).toNat :=
          hupper ▸ hscaled.trans hend
      _ < roundingBound 970 * 10 ^ (-p).toNat := Nat.mul_lt_mul_of_pos_right (hlt heven) hten
  · calc c * 10 ^ p.toNat < (4 * m + 2) * 2 ^ (q - 2).toNat * 10 ^ (-p).toNat :=
          hupper ▸ hscaled.trans_lt (hinside (decide_eq_false heven))
      _ ≤ roundingBound 970 * 10 ^ (-p).toNat := Nat.mul_le_mul_right _ hle

lemma decimalBounded_zero (p : ℤ) : DecimalBounded 0 p := by
  unfold DecimalBounded
  rw [Nat.zero_mul]
  exact Nat.mul_pos (Binary64.roundingBound_pos _) (Nat.pow_pos (by omega))

/-- The shortest decimal of a machine number is rounded to a finite one. -/
theorem decimalBounded_shortest {m : ℕ} {q : ℤ} (hm : m < 2 ^ 53) (hhigh : q ≤ 971) :
    DecimalBounded (shortest m q).digits (shortest m q).exponent := by
  rcases search_spec (.ofBinary m q) 20 (logCeiling m q) with hzero | hhit
  · unfold shortest
    rw [hzero]
    exact decimalBounded_zero _
  · exact decimalBounded_of_contains hm hhigh hhit

/-- The text of a decimal below the bound is a literal that is not refused. -/
theorem literalValue?_text_isSome {d : Decimal} (h : DecimalBounded d.digits d.exponent) :
    (Formula.literalValue? d.text : Option Float).isSome = true := by
  unfold Formula.literalValue?
  rcases decimalOfLiteral_text d with htext | ⟨k, hk, htext⟩
  · rw [htext]
    exact Binary64.ofDecimal?_isSome h
  · rw [htext]
    refine Binary64.ofDecimal?_isSome ?_
    -- The zero after the point makes ten times as many units of a tenth.
    have htenth : (-(-1 : ℤ)).toNat = 1 := rfl
    unfold DecimalBounded at h ⊢
    rw [hk, Int.toNat_natCast, Int.toNat_of_nonpos (by omega), pow_zero, mul_one] at h
    rw [htenth, pow_one, pow_succ, ← mul_assoc, Int.toNat_of_nonpos (by omega), pow_zero, mul_one]
    exact Nat.mul_lt_mul_of_pos_right h (by omega)

end Shortest

namespace Binary64

lemma head_text_finite (m : ℕ) (q : ℤ) :
    ∃ c ∈ (finite false m q).text.toList.head?, c.isDigit = true := by
  unfold text
  simp only [Bool.false_eq_true, if_false, String.empty_append]
  split_ifs
  · exact ⟨'0', rfl, rfl⟩
  · exact Shortest.Decimal.head_text _

/-- A whole machine number below `10 ^ 15`. -/
lemma natAbs_lt_of_whole? {b : Binary64} {n : ℤ} (h : b.whole? = some n) : n.natAbs < 10 ^ 15 := by
  cases b with
  | nan | infinite negative => cases h
  | finite negative m q =>
    simp only [whole?, Nat.pow_eq] at h
    split_ifs at h with hwhole hnegative <;> cases h
    · rw [Int.natAbs_neg, Int.natAbs_natCast]
      exact hwhole.2
    · rw [Int.natAbs_natCast]
      exact hwhole.2

/-- The unsigned text of a finite machine number is a literal that is not refused. -/
lemma literalValue?_text_isSome {m : ℕ} {q : ℤ} (hm : m < 2 ^ 53) (hhigh : q ≤ 971) :
    (Formula.literalValue? (finite false m q).text : Option Float).isSome := by
  unfold text
  simp only [Bool.false_eq_true, if_false, String.empty_append]
  split_ifs with hzero
  · decide +kernel
  · exact Shortest.literalValue?_text_isSome (Shortest.decimalBounded_shortest hm hhigh)

end Binary64

namespace Formula

/-- The formula is compiled to an expression all of whose symbols have the property. -/
def CompilesWith (α : Type) [Numeral α] (v : Vocabulary) (S : String → Prop) (f : Formula) : Prop :=
  ∃ e : Expr α, f.compile v = .ok e ∧ ∀ s ∈ e.symbols, S s

variable {v : Vocabulary} {S : String → Prop}

lemma CompilesWith.mono {α : Type} [Numeral α] {T : String → Prop} {f : Formula}
    (h : f.CompilesWith α v S) (hST : ∀ s, S s → T s) : f.CompilesWith α v T := by
  obtain ⟨e, he, hsymbols⟩ := h
  exact ⟨e, he, fun s hs => hST s (hsymbols s hs)⟩

lemma CompilesWith.negation {α : Type} [Numeral α] {f : Formula} (h : f.CompilesWith α v S) :
    (negation f).CompilesWith α v S := by
  obtain ⟨e, he, hsymbols⟩ := h
  exact ⟨e.neg, by rw [compile, he]; rfl, (Expr.hereditary_symbols S).neg hsymbols⟩

end Formula

/-- What infinite and undefined numbers are written as. -/
def nonFiniteNames : List String := ["inf", "NaN"]

section
open Formula Token
variable {v : Vocabulary} {S : String → Prop}

lemma compilesWith_unsignedFormula {cs : List Char} (hdigit : ∃ c ∈ cs.head?, c.isDigit = true)
    (hvalue : (literalValue? (String.ofList cs) : Option Float).isSome = true) :
    (Dialect.unsignedFormula cs).CompilesWith Float v S := by
  obtain ⟨c, hc, hdigit⟩ := hdigit
  obtain ⟨x, hx⟩ := Option.isSome_iff_exists.mp hvalue
  unfold Dialect.unsignedFormula
  rw [Option.mem_def.mp hc, Option.any_some, if_pos hdigit]
  exact ⟨.number x, by simp only [compile, hx], by simp [Expr.symbols]⟩

lemma compilesWith_numberFormula {cs text : List Char} (htext : text = cs ∨ text = '-' :: cs)
    (hhead : cs.head? ≠ some '-') (h : (Dialect.unsignedFormula cs).CompilesWith Float v S) :
    (Dialect.numberFormula text).CompilesWith Float v S := by
  rcases htext with rfl | rfl
  · rwa [numberFormula_unsigned hhead]
  · exact h.negation

/-- Names that are neither constants nor applied are symbols. -/
lemma compilesWith_name {s : String} (hconstant : Constant.ofName? s = none) (hs : S s) :
    (Formula.name s).CompilesWith Float v S := by
  refine ⟨.symbol s, ?_, by simpa [Expr.symbols] using hs⟩
  rw [compile, identifier, hconstant]
  split_ifs <;> rfl

lemma compilesWith_text (v : Vocabulary) (x : Float) :
    (Dialect.numberFormula (Numeral.text x).toList).CompilesWith Float v (· ∈ nonFiniteNames) := by
  show (Dialect.numberFormula (Binary64.ofFloat x).text.toList).CompilesWith Float v _
  have hnan : (Dialect.unsignedFormula "NaN".toList).CompilesWith Float v (· ∈ nonFiniteNames) :=
    compilesWith_name (s := "NaN") rfl (by decide)
  have hinf : (Dialect.unsignedFormula "inf".toList).CompilesWith Float v (· ∈ nonFiniteNames) :=
    compilesWith_name (s := "inf") rfl (by decide)
  cases hx : Binary64.ofFloat x with
  | nan => exact compilesWith_numberFormula (.inl rfl) (by decide) hnan
  | infinite negative =>
    cases negative with
    | false => exact compilesWith_numberFormula (.inl rfl) (by decide) hinf
    | true => exact compilesWith_numberFormula (.inr rfl) (by decide) hinf
  | finite negative m q =>
    obtain ⟨hcanonical, hhigh⟩ := Binary64.isCanonical_of_ofBits hx
    have hvalue := Binary64.literalValue?_text_isSome hcanonical.small hhigh
    obtain ⟨c, hc, hdigit⟩ := Binary64.head_text_finite m q
    have htext :
        (Binary64.finite negative m q).text.toList = (Binary64.finite false m q).text.toList ∨
          (Binary64.finite negative m q).text.toList =
            '-' :: (Binary64.finite false m q).text.toList := by
      cases negative with
      | false => exact .inl rfl
      | true => exact .inr (Binary64.text_finite_negative m q)
    refine compilesWith_numberFormula htext (head_ne_minus hc hdigit) ?_
    exact compilesWith_unsignedFormula ⟨c, hc, hdigit⟩ (by rwa [String.ofList_toList])

/-- What a machine number is written as is compiled, and only numbers that are not finite have
symbols. -/
theorem compilesWith_numeral (v : Vocabulary) (x : Float) (divides : Bool) :
    (Dialect.formula.numeral x divides).CompilesWith Float v (· ∈ nonFiniteNames) := by
  have hcpp : (Dialect.formula == Dialect.cpp) = false := rfl
  unfold Dialect.numeral Dialect.number
  rw [hcpp, Bool.and_false]
  split
  · next n hwhole =>
    have hdigits := isDigits_toDigits n.natAbs
    have htext : (toString n).toList = Nat.toDigits 10 n.natAbs ∨
        (toString n).toList = '-' :: Nat.toDigits 10 n.natAbs :=
      (toList_toString_int n).imp_left And.right
    obtain ⟨c, hc, hdigit⟩ := hdigits.head
    refine compilesWith_numberFormula htext (head_ne_minus hc hdigit) ?_
    refine compilesWith_unsignedFormula ⟨c, hc, hdigit⟩ ?_
    rw [literalValue?, String.toList_ofList, decimalOfLiteral_digits hdigits.2,
      Text.natOfDigits_toDigits]
    refine Binary64.ofDecimal?_isSome ?_
    have hn := Binary64.natAbs_lt_of_whole? hwhole
    unfold DecimalBounded
    rw [Int.toNat_zero, pow_zero, mul_one, neg_zero, Int.toNat_zero, pow_zero, mul_one]
    exact Binary64.lt_roundingBound (k := 0) (by omega) (Nat.zero_le _)
  · exact compilesWith_text v x

end

end EquationCompiler
