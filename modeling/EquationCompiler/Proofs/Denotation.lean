import EquationCompiler.Proofs.Construction
import EquationCompiler.Proofs.ExactDecimal

/-!
# What a printed text denotes

A formula denotes a real number once its names have meanings: literals are the
numbers that they spell, signs and operators are the operations on real numbers,
and nothing is divided by zero. Over exact numbers the text of an expression, in
either dialect, denotes the value of the expression wherever it is defined.
-/
namespace EquationCompiler

/-- What names, applied names and two stars mean in a text. -/
structure Interpretation where
  name : String → Option ℝ
  call : String → List ℝ → Option ℝ
  power : ℝ → ℝ → Option ℝ

namespace Formula
variable (I : Interpretation)

mutual
/-- The number that a formula denotes, if it does. -/
noncomputable def denote : Formula → Option ℝ
  | number literal => some (literalReal literal.toList)
  | name s => I.name s
  | call f args => do
    let xs ← denoteAll args
    I.call f xs
  | negation f => do
    let x ← denote f
    return -x
  | sum f g => do
    let x ← denote f
    let y ← denote g
    return x + y
  | difference f g => do
    let x ← denote f
    let y ← denote g
    return x - y
  | product f g => do
    let x ← denote f
    let y ← denote g
    return x * y
  | quotient f g => do
    let x ← denote f
    let y ← denote g
    if y = 0 then none else return x / y
  | power f g => do
    let x ← denote f
    let y ← denote g
    I.power x y
noncomputable def denoteAll : List Formula → Option (List ℝ)
  | [] => some []
  | f :: fs => do
    let x ← denote f
    let xs ← denoteAll fs
    return x :: xs
end

variable {I} {f g : Formula} {x y : ℝ}

attribute [local simp] denote denoteAll

lemma denote_negation (hf : f.denote I = some x) : (negation f).denote I = some (-x) := by
  simp [hf]

lemma denote_sum (hf : f.denote I = some x) (hg : g.denote I = some y) :
    (sum f g).denote I = some (x + y) := by
  simp [hf, hg]

lemma denote_difference (hf : f.denote I = some x) (hg : g.denote I = some y) :
    (difference f g).denote I = some (x - y) := by
  simp [hf, hg]

lemma denote_product (hf : f.denote I = some x) (hg : g.denote I = some y) :
    (product f g).denote I = some (x * y) := by
  simp [hf, hg]

lemma denote_quotient (hf : f.denote I = some x) (hg : g.denote I = some y) (hy : y ≠ 0) :
    (quotient f g).denote I = some (x / y) := by
  simp [hf, hg, hy]

lemma denote_power (hf : f.denote I = some x) (hg : g.denote I = some y) :
    (power f g).denote I = I.power x y := by
  simp [hf, hg]

lemma denoteAll_map {β : Type} {fs : β → Formula} {xs : β → ℝ} {bs : List β}
    (h : ∀ b ∈ bs, (fs b).denote I = some (xs b)) :
    denoteAll I (bs.map fs) = some (bs.map xs) := by
  induction bs with
  | nil => rfl
  | cons b bs ih =>
    rw [List.forall_mem_cons] at h
    simp [h.1, ih h.2]

lemma denote_call {name : String} {fs : List Formula} {xs : List ℝ}
    (h : denoteAll I fs = some xs) : (call name fs).denote I = I.call name xs := by
  simp [h]

end Formula

namespace Layout
open Formula
variable {I : Interpretation}

/-- The factors after the first one multiply a term by the number. -/
inductive TailMeans (I : Interpretation) : List (Bool × Formula) → ℝ → Prop
  | nil : TailMeans I [] 1
  | times {g : Formula} {y b : ℝ} {tail : List (Bool × Formula)} (hg : g.denote I = some y)
      (hmore : TailMeans I tail b) : TailMeans I ((false, g) :: tail) (y * b)
  | divide {g : Formula} {y b : ℝ} {tail : List (Bool × Formula)} (hg : g.denote I = some y)
      (hy : y ≠ 0) (hmore : TailMeans I tail b) : TailMeans I ((true, g) :: tail) (y⁻¹ * b)

/-- The factors of the layout multiply to the number. -/
def Means (I : Interpretation) (l : Layout) (x : ℝ) : Prop :=
  ∃ a b, l.head.denote I = some a ∧ TailMeans I l.tail b ∧ a * b = x

lemma TailMeans.append {tail more : List (Bool × Formula)} {b c : ℝ} (h : TailMeans I tail b)
    (hmore : TailMeans I more c) : TailMeans I (tail ++ more) (b * c) := by
  induction h with
  | nil => simpa using hmore
  | times hg _ ih =>
    rw [List.cons_append, mul_assoc]
    exact .times hg ih
  | divide hg hy _ ih =>
    rw [List.cons_append, mul_assoc]
    exact .divide hg hy ih

/-- A term is extended factor by factor. -/
lemma TailMeans.extend {tail : List (Bool × Formula)} {b : ℝ} (h : TailMeans I tail b)
    {f : Formula} {a : ℝ} (hf : f.denote I = some a) :
    (tail.foldl Layout.extend f).denote I = some (a * b) := by
  induction h generalizing f a with
  | nil => simpa using hf
  | times hg _ ih =>
    rw [List.foldl_cons, ← mul_assoc]
    exact ih (denote_product hf hg)
  | divide hg hy _ ih =>
    rw [List.foldl_cons, ← mul_assoc, ← div_eq_mul_inv]
    exact ih (denote_quotient hf hg hy)

variable {l : Layout} {x : ℝ}

lemma Means.formula (h : l.Means I x) : l.formula.denote I = some x := by
  obtain ⟨a, b, hhead, htail, rfl⟩ := h
  exact htail.extend hhead

lemma means_single {f : Formula} (p : Precedence) (h : f.denote I = some x) :
    (single f p).Means I x := ⟨x, 1, h, .nil, mul_one x⟩

lemma Means.atLeast (h : l.Means I x) (needed : Precedence) : (l.atLeast needed).Means I x := by
  unfold Layout.atLeast
  split_ifs
  · exact means_single _ h.formula
  · exact h

/-- A sign before the first factor is a sign before the term. -/
lemma Means.negate (h : l.Means I x) : l.negate.Means I (-x) := by
  obtain ⟨a, b, hhead, htail, rfl⟩ := h
  rw [← neg_mul]
  exact means_single _ (htail.extend (denote_negation hhead))

lemma tailMeans_items {ls : List Layout} {xs : List ℝ} (h : List.Forall₂ (Means I) ls xs) :
    TailMeans I (ls.flatMap items) xs.prod := by
  induction h with
  | nil => exact .nil
  | cons hl _ ih =>
    obtain ⟨a, b, hhead, htail, rfl⟩ := hl
    rw [List.flatMap_cons, List.prod_cons]
    exact TailMeans.append (.times hhead htail) ih

lemma means_chain {ls : List Layout} {xs : List ℝ} (h : List.Forall₂ (Means I) ls xs)
    (hne : ls ≠ []) : (chain ls).Means I xs.prod := by
  cases h with
  | nil => exact absurd rfl hne
  | cons hl hls =>
    obtain ⟨a, b, hhead, htail, rfl⟩ := hl
    exact ⟨a, _, hhead, htail.append (tailMeans_items hls), by rw [List.prod_cons, mul_assoc]⟩

end Layout

namespace Dialect
open Formula
variable {α : Type} [ExactNumeral α] [SpelledNumeral α] {I : Interpretation}

lemma denote_unsignedFormula {cs : List Char} (h : ∃ c ∈ cs.head?, c.isDigit = true) :
    (unsignedFormula cs).denote I = some (literalReal cs) := by
  obtain ⟨c, hc, hdigit⟩ := h
  rw [unsignedFormula, Option.mem_def.mp hc, Option.any_some, if_pos hdigit, denote,
    String.toList_ofList]

/-- The text of an integer. -/
lemma denote_numberFormula_int (n : ℤ) :
    (numberFormula (toString n).toList).denote I = some (n : ℝ) := by
  cases n with
  | ofNat m =>
    have hdigits := isDigits_toDigits m
    obtain ⟨c, hc, hdigit⟩ := hdigits.head
    rw [show (toString (Int.ofNat m)).toList = Nat.toDigits 10 m from Nat.toList_repr,
      numberFormula_unsigned (head_ne_minus hc hdigit), denote_unsignedFormula hdigits.head,
      literalReal_toDigits]
    simp
  | negSucc m =>
    rw [toList_toString_negSucc, numberFormula,
      denote_negation (denote_unsignedFormula (isDigits_toDigits (m + 1)).head),
      literalReal_toDigits]
    simp [Int.cast_negSucc]

/-- A number is written as a text that denotes it. -/
theorem denote_numeral (d : Dialect) (x : α) (divides : Bool) :
    (d.numeral x divides).denote I = some (toReal x) := by
  have htext : (numberFormula (Numeral.text x).toList).denote I = some (toReal x) := by
    obtain ⟨cs, hhead, ⟨htext, hvalue⟩ | ⟨htext, hvalue⟩⟩ := SpelledNumeral.text_spells x
    · obtain ⟨c, hc, hdigit⟩ := hhead
      rw [htext, numberFormula_unsigned (head_ne_minus hc hdigit),
        denote_unsignedFormula ⟨c, hc, hdigit⟩, hvalue]
    · rw [htext, numberFormula, denote_negation (denote_unsignedFormula hhead), hvalue, neg_neg]
  unfold numeral number
  split
  · next n hwhole =>
    split_ifs
    · exact htext
    · rw [denote_numberFormula_int, ((ExactScalar.whole?_eq_some_iff x n).mp hwhole).1]
  · exact htext

end Dialect

end EquationCompiler
