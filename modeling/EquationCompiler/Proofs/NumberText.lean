import EquationCompiler.Number.Shortest
import EquationCompiler.Proofs.Layout
import EquationCompiler.Proofs.Parts

/-!
# Numbers as texts

What printing needs of the texts of numbers: each is one token, with a sign before
it if the number is negative, and only the text of a whole number is a row of
digits. Digits that a power of ten scales are written in one of four forms.
-/
namespace EquationCompiler
open Token Formula

/-- A name, or a literal that starts with a digit and is no row of digits. -/
def IsDecimal (cs : List Char) : Prop :=
  IsName cs ∨ IsLiteral cs ∧ (∃ c ∈ cs.head?, c.isDigit = true) ∧ ∃ c ∈ cs, ¬c.isDigit = true

/-- The laws of numbers as texts. -/
class Legible (α : Type) [Numeral α] : Prop extends SignedScalar α where
  whole_nonneg {x : α} {n : ℤ} (h : Scalar.whole? x = some n) (hx : Scalar.isNegative x = false) :
    0 ≤ n
  text (x : α) : ∃ cs, IsDecimal cs ∧
    ((Numeral.text x).toList = cs ∨ (Numeral.text x).toList = '-' :: cs)
  unsigned {x : α} (h : Scalar.whole? x = none) (hx : Scalar.isNegative x = false) :
    IsDecimal (Numeral.text x).toList

lemma not_isDigit_head_of_isName {cs : List Char} (h : IsName cs) :
    cs.head?.any Char.isDigit = false := by
  match cs with
  | c :: cs =>
    have := (isNameStart_spec h.1).2.1
    simpa using this

lemma spells_unsigned {cs : List Char}
    (h : IsName cs ∨ IsLiteral cs ∧ ∃ c ∈ cs.head?, c.isDigit = true) :
    ∃ ts, Spells cs ts ∧ IsOperand ts (Dialect.unsignedFormula cs) := by
  unfold Dialect.unsignedFormula
  rcases h with h | ⟨h, c, hc, hdigit⟩
  · rw [not_isDigit_head_of_isName h]
    exact ⟨_, spells_name h, .name _⟩
  · have hhead : cs.head?.any Char.isDigit = true := by
      rw [Option.mem_def.mp hc]
      exact hdigit
    rw [hhead]
    exact ⟨_, spells_literal h, .number _⟩

lemma IsDecimal.spells {cs : List Char} (h : IsDecimal cs) :
    ∃ ts, Spells cs ts ∧ IsOperand ts (Dialect.unsignedFormula cs) :=
  spells_unsigned (h.imp_right fun h => ⟨h.1, h.2.1⟩)

lemma Token.IsDigits.head {cs : List Char} (h : IsDigits cs) : ∃ c ∈ cs.head?, c.isDigit = true := by
  obtain ⟨c, more, rfl⟩ := List.exists_cons_of_ne_nil h.1
  exact ⟨c, rfl, h.2 c (by simp)⟩

lemma Token.IsDigits.spells {cs : List Char} (h : IsDigits cs) :
    ∃ ts, Spells cs ts ∧ IsOperand ts (Dialect.unsignedFormula cs) :=
  spells_unsigned (Or.inr ⟨(isMantissa_digits h).isLiteral, h.head⟩)

lemma isDigits_toDigits (n : ℕ) : IsDigits (Nat.toDigits 10 n) :=
  ⟨Nat.toDigits_ne_nil, fun _ hc => Nat.isDigit_of_mem_toDigits (by omega) le_rfl hc⟩

lemma toList_toString_negSucc (m : ℕ) :
    (toString (Int.negSucc m)).toList = '-' :: Nat.toDigits 10 (m + 1) := by
  show ("-" ++ (m + 1).repr).toList = _
  rw [String.toList_append, Nat.toList_repr]
  rfl

/-- The text of an integer is a row of digits, with a sign before it below zero. -/
lemma toList_toString_int (n : ℤ) :
    (0 ≤ n ∧ (toString n).toList = Nat.toDigits 10 n.natAbs) ∨
      (toString n).toList = '-' :: Nat.toDigits 10 n.natAbs := by
  cases n with
  | ofNat m => exact Or.inl ⟨Int.natCast_nonneg m, Nat.toList_repr⟩
  | negSucc m => exact Or.inr (toList_toString_negSucc m)

/-- A sign before an unsigned text is read as a negation. -/
lemma numberFormula_unsigned {cs : List Char} (h : cs.head? ≠ some '-') :
    Dialect.numberFormula cs = Dialect.unsignedFormula cs := by
  unfold Dialect.numberFormula
  split
  · simp at h
  · rfl

lemma head_ne_minus {c : Char} {cs : List Char} (hc : c ∈ cs.head?) (hdigit : c.isDigit = true) :
    cs.head? ≠ some '-' := by
  rw [Option.mem_def.mp hc]
  rintro heq
  rw [Option.some.inj heq] at hdigit
  cases hdigit

lemma IsDecimal.head_ne_minus {cs : List Char} (h : IsDecimal cs) : cs.head? ≠ some '-' := by
  rcases h with h | ⟨-, ⟨c, hc, hdigit⟩, -⟩
  · match cs with
    | c :: cs =>
      rintro heq
      obtain rfl : c = '-' := Option.some.inj heq
      exact absurd h.1 (by decide)
  · exact EquationCompiler.head_ne_minus hc hdigit

namespace Dialect
variable {α : Type} [Numeral α] [Legible α] (d : Dialect)

/-- A number is printed as a row of digits if it is whole and not made a decimal for a division,
and as a decimal otherwise. -/
lemma number_spec (x : α) (divides : Bool) :
    ∃ cs, ((d.number x divides).toList = cs ∨ (d.number x divides).toList = '-' :: cs) ∧
      (((Scalar.whole? x).isSome ∧ (divides && d == cpp) = false ∧ IsDigits cs) ∨
        ((Scalar.whole? x = none ∨ (divides && d == cpp) = true) ∧ IsDecimal cs)) := by
  unfold number
  split
  · next n hwhole =>
    split_ifs with hdivides
    · obtain ⟨cs, hcs, htext⟩ := Legible.text x
      exact ⟨cs, htext, Or.inr ⟨Or.inr hdivides, hcs⟩⟩
    · refine ⟨Nat.toDigits 10 n.natAbs, ?_, Or.inl ⟨?_, by simpa using hdivides, isDigits_toDigits _⟩⟩
      · rcases toList_toString_int n with h | h
        · exact Or.inl h.2
        · exact Or.inr h
      · simp [hwhole]
  · next hwhole =>
    obtain ⟨cs, hcs, htext⟩ := Legible.text x
    exact ⟨cs, htext, Or.inr ⟨Or.inl hwhole, hcs⟩⟩

/-- The text of a number is one signed factor. -/
lemma spells_numeral (x : α) (divides : Bool) :
    ∃ ts, Spells (d.number x divides).toList ts ∧ IsSigned ts (d.numeral x divides) := by
  obtain ⟨cs, htext, hcs⟩ := d.number_spec x divides
  have hspells : ∃ ts, Spells cs ts ∧ IsOperand ts (unsignedFormula cs) := by
    rcases hcs with ⟨-, -, h⟩ | ⟨-, h⟩
    · exact h.spells
    · exact h.spells
  have hhead : cs.head? ≠ some '-' := by
    rcases hcs with ⟨-, -, h⟩ | ⟨-, h⟩
    · obtain ⟨c, hc, hdigit⟩ := h.head
      exact head_ne_minus hc hdigit
    · exact h.head_ne_minus
  obtain ⟨ts, hts, hoperand⟩ := hspells
  unfold numeral
  rcases htext with h | h
  · rw [h, numberFormula_unsigned hhead]
    exact ⟨ts, hts, .power (.operand hoperand)⟩
  · rw [h]
    exact ⟨_, hts.operator rfl, .minus (.power (.operand hoperand))⟩

/-- A number that is not negative has no sign. -/
lemma spells_numeral_of_not_isNegative {x : α} (hx : Scalar.isNegative x = false) :
    ∃ ts, Spells (d.number x false).toList ts ∧ IsOperand ts (d.numeral x false) := by
  unfold numeral number
  split
  · next n hwhole =>
    have hn := Legible.whole_nonneg hwhole hx
    have htext : (toString n).toList = Nat.toDigits 10 n.natAbs := by
      obtain ⟨m, rfl⟩ := Int.eq_ofNat_of_zero_le hn
      exact Nat.toList_repr
    have hdigits := isDigits_toDigits n.natAbs
    obtain ⟨c, hc, hdigit⟩ := hdigits.head
    simp only [Bool.false_and, Bool.false_eq_true, if_false]
    rw [htext, numberFormula_unsigned (head_ne_minus hc hdigit)]
    exact hdigits.spells
  · next hwhole =>
    have hdecimal := Legible.unsigned hwhole hx
    rw [numberFormula_unsigned hdecimal.head_ne_minus]
    exact hdecimal.spells

end Dialect

namespace Shortest

/-- The forms in which digits are written that a power of ten scales. -/
inductive Written (ds : List Char) (exponent : ℤ) : List Char → Prop where
  /-- Zeros up to the point, and one place after it. -/
  | whole (k : ℕ) (hexponent : exponent = k) :
    Written ds exponent (ds ++ List.replicate k '0' ++ '.' :: ['0'])
  /-- The point among the digits, or before them and some zeros. -/
  | point (n : ℕ) {ws ps : List Char} (hdigits : List.replicate n '0' ++ ds = ws ++ ps)
    (hne : ws ≠ []) (hexponent : (ps.length : ℤ) = -exponent) :
    Written ds exponent (ws ++ '.' :: ps)
  /-- A single digit, and an exponent. -/
  | digit {c : Char} (hdigits : ds = [c]) :
    Written ds exponent ([c] ++ 'e' :: (toString exponent).toList)
  /-- One digit before the point, and an exponent. -/
  | scientific {c : Char} {ps : List Char} (hdigits : ds = c :: ps) :
    Written ds exponent (([c] ++ '.' :: ps) ++ 'e' :: (toString (exponent + ps.length)).toList)

/-- The text of a decimal has one of the forms. -/
theorem Decimal.written (d : Decimal) :
    Written (Nat.toDigits 10 d.digits) d.exponent d.text.toList := by
  have hne := (isDigits_toDigits d.digits).1
  unfold text
  dsimp only
  generalize Nat.toDigits 10 d.digits = ds at hne
  split_ifs with hpositional hwhole hplaces
  · obtain ⟨k, hk⟩ := Int.eq_ofNat_of_zero_le hwhole
    have htext : (String.ofList (ds ++ List.replicate d.exponent.toNat '0') ++ ".0").toList =
        ds ++ List.replicate k '0' ++ '.' :: ['0'] := by
      simp [hk]
    rw [htext]
    exact .whole k hk
  · rw [String.toList_ofList]
    refine .point 0 (List.take_append_drop _ ds).symm (by simp [hne]) ?_
    rw [List.length_drop]
    omega
  · have htext : ("0." ++ String.ofList
        (List.replicate (-(d.exponent + ds.length - 1) - 1).toNat '0' ++ ds)).toList =
        ['0'] ++ '.' :: (List.replicate (-(d.exponent + ds.length - 1) - 1).toNat '0' ++ ds) := by
      simp
    rw [htext]
    refine .point ((-(d.exponent + ds.length - 1) - 1).toNat + 1) rfl (by simp) ?_
    rw [List.length_append, List.length_replicate]
    omega
  · rw [String.toList_append, String.toList_append, String.toList_ofList]
    match ds, hne with
    | [c], _ =>
      have hleading : d.exponent + (([c] : List Char).length : ℤ) - 1 = d.exponent := by simp
      rw [hleading]
      exact .digit rfl
    | c :: c' :: more, _ =>
      have hleading : d.exponent + ((c :: c' :: more).length : ℤ) - 1 =
          d.exponent + ((c' :: more).length : ℤ) := by
        simp only [List.length_cons]
        push_cast
        ring
      rw [hleading, List.append_assoc]
      exact .scientific rfl

lemma isDigit_of_mem_zeros (n : ℕ) : ∀ c ∈ List.replicate n '0', c.isDigit = true := by
  intro c hc
  rw [List.eq_of_mem_replicate hc]
  rfl

/-- The rows of digits around the point. -/
lemma isDigits_point {n : ℕ} {ds ws ps : List Char} (hds : ∀ c ∈ ds, c.isDigit = true)
    (hdigits : List.replicate n '0' ++ ds = ws ++ ps) (hne : ws ≠ []) :
    IsDigits ws ∧ ∀ c ∈ ps, c.isDigit = true := by
  have h := List.forall_mem_append.mpr ⟨isDigit_of_mem_zeros n, hds⟩
  rw [hdigits, List.forall_mem_append] at h
  exact ⟨⟨hne, h.1⟩, h.2⟩

/-- A text of digits starts with a digit. -/
lemma Written.head {ds cs : List Char} {exponent : ℤ} (h : Written ds exponent cs)
    (hds : IsDigits ds) : ∃ c ∈ cs.head?, c.isDigit = true := by
  have hrow {ws : List Char} (hws : IsDigits ws) (more : List Char) :
      ∃ c ∈ (ws ++ more).head?, c.isDigit = true := by
    obtain ⟨c, hc, hdigit⟩ := hws.head
    exact ⟨c, List.mem_head?_append_of_mem_head? hc, hdigit⟩
  cases h with
  | whole k _ =>
    rw [List.append_assoc]
    exact hrow hds _
  | point n hdigits hne _ => exact hrow (isDigits_point hds.2 hdigits hne).1 _
  | @digit c hdigits =>
    subst hdigits
    exact hrow hds _
  | @scientific c ps hdigits => exact ⟨c, rfl, hds.2 c (by simp [hdigits])⟩

end Shortest

end EquationCompiler
