import EquationCompiler.Proofs.Grammar
import EquationCompiler.Proofs.Lexeme
import EquationCompiler.Proofs.LiteralValue
import EquationCompiler.Proofs.RoundedDecimal

/-!
# The numbers in a formula

A literal has a value: its digits in base ten, those behind the point as a fraction,
times or divided by a power of ten. Each literal of a formula that a text spells has one,
and is read as the machine number nearest to it, unless it is too large.
-/
namespace EquationCompiler

namespace Token

/-- The number that digits stand for in base ten. -/
def digitsValue (ds : List Char) : ℕ :=
  Nat.ofDigits 10 (ds.reverse.map fun c => c.toNat - '0'.toNat)

/-- The value of digits with at most one point. -/
inductive MantissaValue : List Char → ℚ → Prop
  | whole {ds : List Char} (hds : IsDigits ds) : MantissaValue ds (digitsValue ds)
  | point {ds ps : List Char} (hds : ∀ c ∈ ds, c.isDigit = true) (hps : ∀ c ∈ ps, c.isDigit = true)
      (hne : ds ≠ [] ∨ ps ≠ []) :
    MantissaValue (ds ++ '.' :: ps) (digitsValue ds + digitsValue ps / 10 ^ ps.length)

/-- The value of a literal. -/
inductive LiteralValue : List Char → ℚ → Prop
  | plain {ms : List Char} {q : ℚ} (h : MantissaValue ms q) : LiteralValue ms q
  | raised {ms sign xs : List Char} {mark : Char} {q : ℚ} (h : MantissaValue ms q)
      (hmark : mark = 'e' ∨ mark = 'E') (hsign : sign = [] ∨ sign = ['+']) (hxs : IsDigits xs) :
    LiteralValue (ms ++ mark :: (sign ++ xs)) (q * 10 ^ digitsValue xs)
  | lowered {ms xs : List Char} {mark : Char} {q : ℚ} (h : MantissaValue ms q)
      (hmark : mark = 'e' ∨ mark = 'E') (hxs : IsDigits xs) :
    LiteralValue (ms ++ mark :: '-' :: xs) (q / 10 ^ digitsValue xs)

lemma MantissaShape.exists_value {ms : List Char} (h : MantissaShape ms) :
    ∃ q, MantissaValue ms q := by
  obtain hds | ⟨ds, ps, hds, hps, hne, rfl⟩ := h
  · exact ⟨_, .whole hds⟩
  · exact ⟨_, .point hds hps hne⟩

/-- Every number has a value. -/
theorem NumberShape.exists_value {cs : List Char} (h : NumberShape cs) :
    ∃ q, LiteralValue cs q := by
  obtain ⟨ms, es, hms, hes, rfl⟩ := h
  obtain ⟨q, hq⟩ := hms.exists_value
  obtain rfl | ⟨mark, sign, xs, hmark, hsign, hxs, rfl⟩ := hes
  · exact ⟨q, by simpa using .plain hq⟩
  · rcases hsign with rfl | rfl | rfl
    · exact ⟨_, .raised hq hmark (.inl rfl) hxs⟩
    · exact ⟨_, .raised hq hmark (.inr rfl) hxs⟩
    · exact ⟨_, .lowered hq hmark hxs⟩

end Token

open Token Text

lemma digitsValue_append (ds ps : List Char) :
    digitsValue (ds ++ ps) = digitsValue ds * 10 ^ ps.length + digitsValue ps := by
  rw [digitsValue, List.reverse_append, List.map_append, Nat.ofDigits_append, List.length_map,
    List.length_reverse, add_comm, mul_comm]
  rfl

lemma digitsValue_singleton (c : Char) : digitsValue [c] = c.toNat - '0'.toNat :=
  Nat.ofDigits_singleton

lemma natOfDigits_eq_digitsValue (ds : List Char) : natOfDigits ds = digitsValue ds := by
  induction ds using List.reverseRecOn with
  | nil => rfl
  | append_singleton ds c ih =>
    rw [digitsValue_append, digitsValue_singleton, ← ih, natOfDigits, List.foldl_append,
      List.length_singleton, pow_one, mul_comm]
    rfl

/-- The decimal that a mantissa is read as. -/
lemma Token.MantissaValue.eq_decimal {ms : List Char} {q : ℚ} (h : MantissaValue ms q) :
    (∀ c ∈ ms, (c ≠ 'e' && c ≠ 'E') = true) ∧
      q = (decimalOfLiteral ms).1 * 10 ^ (decimalOfLiteral ms).2 := by
  cases h with
  | whole hds =>
    refine ⟨fun c hc => ne_mark_of_isDigit (hds.2 c hc), ?_⟩
    rw [decimalOfLiteral_digits hds.2, natOfDigits_eq_digitsValue, zpow_zero, mul_one]
  | @point ds ps hds hps hne =>
    refine ⟨ne_mark_point hds hps, ?_⟩
    rw [decimalOfLiteral_point hds hps, natOfDigits_eq_digitsValue, digitsValue_append, zpow_neg,
      zpow_natCast]
    push_cast
    field_simp

/-- The value of a literal is the decimal that it is read as. -/
theorem Token.LiteralValue.eq_decimal {cs : List Char} {q : ℚ} (h : LiteralValue cs q) :
    q = (decimalOfLiteral cs).1 * 10 ^ (decimalOfLiteral cs).2 := by
  cases h with
  | plain h => exact h.eq_decimal.2
  | @raised ms sign xs mark q h hmark hsign hxs =>
    have hvalue : intOfDigits (sign ++ xs) = digitsValue xs := by
      rw [← natOfDigits_eq_digitsValue]
      rcases hsign with rfl | rfl
      · exact intOfDigits_of_isDigits hxs
      · rfl
    obtain ⟨hmarks, hq⟩ := h.eq_decimal
    rw [decimalOfLiteral_exponent hmarks hmark, hvalue, hq, zpow_add₀ (by norm_num), zpow_natCast,
      mul_assoc]
  | @lowered ms xs mark q h hmark hxs =>
    have hvalue : intOfDigits ('-' :: xs) = -(digitsValue xs : ℤ) := by
      rw [← natOfDigits_eq_digitsValue]
      rfl
    obtain ⟨hmarks, hq⟩ := h.eq_decimal
    rw [decimalOfLiteral_exponent hmarks hmark, hvalue, hq, zpow_add₀ (by norm_num), zpow_neg,
      zpow_natCast, div_eq_mul_inv, mul_assoc]

namespace Formula
open Binary64 (Rounds)

/-- A literal is read as what its value is rounded to. -/
theorem rounds_literalValue? {literal : String} {q : ℚ} (h : LiteralValue literal.toList q) :
    Rounds q (literalValue? literal) := by
  rw [h.eq_decimal]
  exact Binary64.rounds_ofDecimal? _ _

def HasValue (literal : String) : Prop := ∃ q, LiteralValue literal.toList q

mutual
/-- All literals in the formula have the property. -/
def LiteralsAre (P : String → Prop) : Formula → Prop
  | number literal => P literal
  | name _ => True
  | call _ args => AllLiteralsAre P args
  | negation f => LiteralsAre P f
  | sum f g | difference f g | product f g | quotient f g | power f g =>
    LiteralsAre P f ∧ LiteralsAre P g
def AllLiteralsAre (P : String → Prop) : List Formula → Prop
  | [] => True
  | f :: fs => LiteralsAre P f ∧ AllLiteralsAre P fs
end

section
variable {P : String → Prop} {ts us : List Token}

/-- All numbers among the tokens have the property. -/
def NumbersAre (P : String → Prop) (ts : List Token) : Prop :=
  ∀ literal, Token.number literal ∈ ts → P literal

lemma numbersAre_append : NumbersAre P (ts ++ us) ↔ NumbersAre P ts ∧ NumbersAre P us := by
  simp only [NumbersAre, List.mem_append, or_imp, forall_and]

lemma numbersAre_cons {t : Token} (ht : ∀ literal, t ≠ .number literal) :
    NumbersAre P (t :: ts) ↔ NumbersAre P ts := by
  simp only [NumbersAre, List.mem_cons, (ht _).symm, false_or]

mutual
theorem IsSum.literalsAre {ts : List Token} {f : Formula} (h : IsSum ts f)
    (hts : NumbersAre P ts) : f.LiteralsAre P :=
  match h with
  | .mk hterm hmore =>
    have ⟨hleft, hright⟩ := numbersAre_append.mp hts
    hmore.literalsAre (hterm.literalsAre hleft) hright
theorem MoreTerms.literalsAre {ts : List Token} {f g : Formula} (h : MoreTerms f ts g)
    (hf : f.LiteralsAre P) (hts : NumbersAre P ts) : g.LiteralsAre P :=
  match h with
  | .nil _ => hf
  | .plus hterm hmore | .minus hterm hmore =>
    have ⟨hleft, hright⟩ := numbersAre_append.mp ((numbersAre_cons (by simp)).mp hts)
    hmore.literalsAre ⟨hf, hterm.literalsAre hleft⟩ hright
theorem IsTerm.literalsAre {ts : List Token} {f : Formula} (h : IsTerm ts f)
    (hts : NumbersAre P ts) : f.LiteralsAre P :=
  match h with
  | .mk hsigned hmore =>
    have ⟨hleft, hright⟩ := numbersAre_append.mp hts
    hmore.literalsAre (hsigned.literalsAre hleft) hright
theorem MoreFactors.literalsAre {ts : List Token} {f g : Formula} (h : MoreFactors f ts g)
    (hf : f.LiteralsAre P) (hts : NumbersAre P ts) : g.LiteralsAre P :=
  match h with
  | .nil _ => hf
  | .star hsigned hmore | .slash hsigned hmore =>
    have ⟨hleft, hright⟩ := numbersAre_append.mp ((numbersAre_cons (by simp)).mp hts)
    hmore.literalsAre ⟨hf, hsigned.literalsAre hleft⟩ hright
theorem IsSigned.literalsAre {ts : List Token} {f : Formula} (h : IsSigned ts f)
    (hts : NumbersAre P ts) : f.LiteralsAre P :=
  match h with
  | .minus h => h.literalsAre ((numbersAre_cons (by simp)).mp hts)
  | .plus h => h.literalsAre ((numbersAre_cons (by simp)).mp hts)
  | .power h => h.literalsAre hts
theorem IsPower.literalsAre {ts : List Token} {f : Formula} (h : IsPower ts f)
    (hts : NumbersAre P ts) : f.LiteralsAre P :=
  match h with
  | .operand h => h.literalsAre hts
  | .power hbase hexponent =>
    have ⟨hleft, hright⟩ := numbersAre_append.mp hts
    ⟨hbase.literalsAre hleft, hexponent.literalsAre ((numbersAre_cons (by simp)).mp hright)⟩
theorem IsOperand.literalsAre {ts : List Token} {f : Formula} (h : IsOperand ts f)
    (hts : NumbersAre P ts) : f.LiteralsAre P :=
  match h with
  | .number literal => hts literal (by simp)
  | .name _ => trivial
  | .call _ harg hmore =>
    have hinside := (numbersAre_cons (by simp)).mp ((numbersAre_cons (by simp)).mp hts)
    have ⟨hleft, hright⟩ := numbersAre_append.mp hinside
    ⟨harg.literalsAre hleft, hmore.literalsAre hright⟩
  | .group h => h.literalsAre (numbersAre_append.mp ((numbersAre_cons (by simp)).mp hts)).1
theorem MoreArguments.literalsAre {ts : List Token} {args : List Formula}
    (h : MoreArguments ts args) (hts : NumbersAre P ts) : AllLiteralsAre P args :=
  match h with
  | .closing => trivial
  | .comma harg hmore =>
    have ⟨hleft, hright⟩ := numbersAre_append.mp ((numbersAre_cons (by simp)).mp hts)
    ⟨harg.literalsAre hleft, hmore.literalsAre hright⟩
end

end

/-- The numbers that a text is cut into have values. -/
lemma numbersAre_of_cuts {cs : List Char} {ts : List Token} (h : Cuts cs ts) :
    NumbersAre HasValue ts := by
  induction h with
  | nil => simp [NumbersAre]
  | blank _ _ ih => exact ih
  | @lexeme cs rest t ts hlexeme h ih =>
    intro literal hliteral
    rcases List.mem_cons.mp hliteral with rfl | hliteral
    · cases hlexeme with
      | number hlongest => simpa [HasValue] using hlongest.1.exists_value
      | operator hoperator => cases hoperator
    · exact ih literal hliteral

end Formula

end EquationCompiler
