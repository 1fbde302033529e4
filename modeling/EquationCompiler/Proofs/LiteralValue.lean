import EquationCompiler.Formula.Compile
import EquationCompiler.Number.Shortest
import EquationCompiler.Proofs.ExactScalar
import EquationCompiler.Proofs.NumberText

/-!
# The numbers that literals spell

A literal spells an exact number, whatever numbers it is read as. Rows of digits
spell what they are the digits of, and the text of a decimal spells the decimal.
-/
namespace EquationCompiler

/-- The number that a literal spells. -/
noncomputable def literalReal (cs : List Char) : ℝ :=
  (decimalOfLiteral cs).1 * ((10 : ℕ) : ℝ) ^ (decimalOfLiteral cs).2

lemma literalReal_eq (cs : List Char) :
    literalReal cs = (decimalOfLiteral cs).1 * 10 ^ (decimalOfLiteral cs).2 := by
  rw [literalReal, Nat.cast_ofNat]

namespace Text

lemma natOfDigits_eq (cs : List Char) : natOfDigits cs = Nat.ofDigitChars 10 cs 0 :=
  Nat.ofDigitChars_eq_foldl.symm

@[simp] lemma natOfDigits_toDigits (n : ℕ) : natOfDigits (Nat.toDigits 10 n) = n := by
  rw [natOfDigits_eq, Nat.ofDigitChars_toDigits (by norm_num) (by norm_num)]

/-- Zeros after a row of digits. -/
lemma natOfDigits_append_zeros (cs : List Char) (n : ℕ) :
    natOfDigits (cs ++ List.replicate n '0') = natOfDigits cs * 10 ^ n := by
  rw [natOfDigits_eq, natOfDigits_eq, Nat.ofDigitChars_append, Nat.ofDigitChars_replicate_zero,
    mul_comm]

/-- Zeros before a row of digits. -/
lemma natOfDigits_zeros_append (n : ℕ) (cs : List Char) :
    natOfDigits (List.replicate n '0' ++ cs) = natOfDigits cs := by
  rw [natOfDigits_eq, natOfDigits_eq, Nat.ofDigitChars_append, Nat.ofDigitChars_replicate_zero,
    mul_zero]

/-- Digits without a sign are read as they stand. -/
lemma intOfDigits_of_isDigits {cs : List Char} (h : Token.IsDigits cs) :
    intOfDigits cs = natOfDigits cs := by
  obtain ⟨c, hc, hdigit⟩ := h.head
  obtain ⟨more, rfl⟩ := List.head?_eq_some_iff.mp hc
  unfold intOfDigits
  split
  · next heq =>
    rw [(List.cons.inj heq).1] at hdigit
    cases hdigit
  · next heq =>
    rw [(List.cons.inj heq).1] at hdigit
    cases hdigit
  · rfl

@[simp] lemma intOfDigits_toString (n : ℤ) : intOfDigits (toString n).toList = n := by
  cases n with
  | ofNat m =>
    rw [show (toString (Int.ofNat m)).toList = Nat.toDigits 10 m from Nat.toList_repr,
      intOfDigits_of_isDigits (isDigits_toDigits m), natOfDigits_toDigits]
    rfl
  | negSucc m =>
    rw [toList_toString_negSucc]
    show -((natOfDigits (Nat.toDigits 10 (m + 1)) : ℕ) : ℤ) = _
    rw [natOfDigits_toDigits]
    rfl

end Text

open Token Text

lemma ne_mark_of_isDigit {c : Char} (h : c.isDigit = true) : (c ≠ 'e' && c ≠ 'E') = true := by
  rw [Bool.and_eq_true, decide_eq_true_eq, decide_eq_true_eq]
  constructor <;> rintro rfl <;> cases h

lemma filter_digits {ds : List Char} (h : ∀ c ∈ ds, c.isDigit = true) :
    ds.filter Char.isDigit = ds := List.filter_eq_self.mpr h

/-- A literal without an exponent: digits, or digits around a point. -/
lemma decimalOfLiteral_mantissa {ms : List Char} (h : ∀ c ∈ ms, (c ≠ 'e' && c ≠ 'E') = true) :
    decimalOfLiteral ms =
      (natOfDigits (ms.filter Char.isDigit), -(((ms.dropWhile (· ≠ '.')).drop 1).length : ℤ)) := by
  have htake : ms.takeWhile (fun c => c ≠ 'e' && c ≠ 'E') = ms := List.takeWhile_eq_self_iff.mpr h
  have hdrop : ms.dropWhile (fun c => c ≠ 'e' && c ≠ 'E') = [] := List.dropWhile_eq_nil_iff.mpr h
  simp only [decimalOfLiteral, htake, hdrop]
  simp [intOfDigits, natOfDigits]

lemma decimalOfLiteral_digits {ds : List Char} (h : ∀ c ∈ ds, c.isDigit = true) :
    decimalOfLiteral ds = (natOfDigits ds, 0) := by
  have hdrop : ds.dropWhile (· ≠ '.') = [] := by
    refine List.dropWhile_eq_nil_iff.mpr fun c hc => ?_
    rw [decide_eq_true_eq]
    rintro rfl
    cases h '.' hc
  rw [decimalOfLiteral_mantissa fun c hc => ne_mark_of_isDigit (h c hc), filter_digits h, hdrop]
  rfl

lemma ne_mark_point {ds ps : List Char} (hds : ∀ c ∈ ds, c.isDigit = true)
    (hps : ∀ c ∈ ps, c.isDigit = true) : ∀ c ∈ ds ++ '.' :: ps, (c ≠ 'e' && c ≠ 'E') = true :=
  List.forall_mem_append.mpr ⟨fun c hc => ne_mark_of_isDigit (hds c hc),
    List.forall_mem_cons.mpr ⟨rfl, fun c hc => ne_mark_of_isDigit (hps c hc)⟩⟩

lemma decimalOfLiteral_point {ds ps : List Char} (hds : ∀ c ∈ ds, c.isDigit = true)
    (hps : ∀ c ∈ ps, c.isDigit = true) :
    decimalOfLiteral (ds ++ '.' :: ps) = (natOfDigits (ds ++ ps), -(ps.length : ℤ)) := by
  have hdrop : (ds ++ '.' :: ps).dropWhile (· ≠ '.') = '.' :: ps := by
    refine (span_append (fun c hc => ?_) (by simp)).2
    rw [decide_eq_true_eq]
    rintro rfl
    cases hds '.' hc
  have hpoint : Char.isDigit '.' = false := rfl
  rw [decimalOfLiteral_mantissa (ne_mark_point hds hps), hdrop, List.filter_append,
    List.filter_cons, hpoint, filter_digits hds, if_neg (by simp), filter_digits hps]
  rfl

/-- An exponent shifts the point of the mantissa before it. -/
lemma decimalOfLiteral_exponent {ms : List Char} (h : ∀ c ∈ ms, (c ≠ 'e' && c ≠ 'E') = true)
    {mark : Char} (hmark : mark = 'e' ∨ mark = 'E') (xs : List Char) :
    decimalOfLiteral (ms ++ mark :: xs) =
      ((decimalOfLiteral ms).1, (decimalOfLiteral ms).2 + intOfDigits xs) := by
  have hrest : ∀ c ∈ (mark :: xs).head?, ¬(c ≠ 'e' && c ≠ 'E') := by
    rcases hmark with rfl | rfl <;> simp
  obtain ⟨htake, hdrop⟩ := span_append h hrest
  rw [decimalOfLiteral_mantissa h]
  simp only [decimalOfLiteral, htake, hdrop, List.drop_succ_cons, List.drop_zero]
  rw [add_comm]
  rfl

@[simp] lemma literalReal_toDigits (n : ℕ) : literalReal (Nat.toDigits 10 n) = n := by
  rw [literalReal_eq, decimalOfLiteral_digits (isDigits_toDigits n).2, natOfDigits_toDigits]
  simp

/-- The text of a decimal starts with a digit. -/
lemma Shortest.Decimal.head_text (d : Shortest.Decimal) :
    ∃ c ∈ d.text.toList.head?, c.isDigit = true :=
  d.written.head (isDigits_toDigits _)

/-- What digits are read as that a power of ten scales: a zero after the point makes ten times as
many of the units of a tenth. -/
theorem decimalOfLiteral_written {ds cs : List Char} {exponent : ℤ}
    (hds : ∀ c ∈ ds, c.isDigit = true) (h : Shortest.Written ds exponent cs) :
    decimalOfLiteral cs = (natOfDigits ds, exponent) ∨
      ∃ k : ℕ, exponent = k ∧ decimalOfLiteral cs = (natOfDigits ds * 10 ^ (k + 1), -1) := by
  cases h with
  | whole k hexponent =>
    have hzero : natOfDigits (ds ++ List.replicate k '0' ++ ['0']) =
        natOfDigits (ds ++ List.replicate k '0') * 10 ^ 1 := natOfDigits_append_zeros _ 1
    refine .inr ⟨k, hexponent, ?_⟩
    rw [decimalOfLiteral_point (List.forall_mem_append.mpr ⟨hds, Shortest.isDigit_of_mem_zeros k⟩)
      isDigits_zero.2, hzero, natOfDigits_append_zeros, mul_assoc, ← pow_add]
    rfl
  | point n hdigits hne hexponent =>
    obtain ⟨hws, hps⟩ := Shortest.isDigits_point hds hdigits hne
    left
    rw [decimalOfLiteral_point hws.2 hps, ← hdigits, natOfDigits_zeros_append, hexponent, neg_neg]
  | digit hdigits =>
    subst hdigits
    left
    rw [decimalOfLiteral_exponent (fun c hc => ne_mark_of_isDigit (hds c hc)) (.inl rfl),
      decimalOfLiteral_digits hds, intOfDigits_toString, zero_add]
  | @scientific c ps hdigits =>
    subst hdigits
    obtain ⟨hfirst, hps⟩ := List.forall_mem_cons.mp hds
    have hone : ∀ c' ∈ [c], c'.isDigit = true := List.forall_mem_singleton.mpr hfirst
    left
    rw [decimalOfLiteral_exponent (ne_mark_point hone hps) (.inl rfl),
      decimalOfLiteral_point hone hps, intOfDigits_toString, List.singleton_append]
    congr 1
    ring

/-- What the text of a decimal is read as: the decimal, with a zero after the point if it is written
out and whole. -/
theorem decimalOfLiteral_text (d : Shortest.Decimal) :
    decimalOfLiteral d.text.toList = (d.digits, d.exponent) ∨
      ∃ k : ℕ, d.exponent = k ∧ decimalOfLiteral d.text.toList = (d.digits * 10 ^ (k + 1), -1) := by
  have h := decimalOfLiteral_written (isDigits_toDigits d.digits).2 d.written
  rwa [natOfDigits_toDigits] at h

/-- The text of a decimal spells the decimal. -/
theorem literalReal_text (d : Shortest.Decimal) :
    literalReal d.text.toList = d.digits * 10 ^ d.exponent := by
  rw [literalReal_eq]
  rcases decimalOfLiteral_text d with h | ⟨k, hk, h⟩
  · rw [h]
  · rw [h, hk, pow_succ]
    simp [mul_assoc]

end EquationCompiler
