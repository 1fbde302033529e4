import EquationCompiler.Proofs.Layout

/-!
# Types in C++

In C++ a row of digits is an integer, and so is what is computed from integers. A
division of two integers drops the remainder. Formulas are read with these types
here, and terms factor by factor: whether a factor divides integers depends on all
factors before it.
-/
namespace EquationCompiler

namespace Formula

/-- Whether a formula is an integer in C++. Names and calls are no integers. -/
def isInteger : Formula → Bool
  | number literal => literal.toList.all Char.isDigit
  | name _ | call _ _ | power _ _ => false
  | negation f => f.isInteger
  | sum f g | difference f g | product f g | quotient f g => f.isInteger && g.isInteger

mutual
/-- Whether some division in a formula has two integer operands in C++. -/
def dividesIntegers : Formula → Bool
  | number _ | name _ => false
  | call _ args => dividesIntegersAny args
  | negation f => f.dividesIntegers
  | sum f g | difference f g | product f g | power f g => f.dividesIntegers || g.dividesIntegers
  | quotient f g => f.isInteger && g.isInteger || f.dividesIntegers || g.dividesIntegers
def dividesIntegersAny : List Formula → Bool
  | [] => false
  | f :: fs => f.dividesIntegers || dividesIntegersAny fs
end

lemma dividesIntegersAny_iff {fs : List Formula} :
    dividesIntegersAny fs = true ↔ ∃ f ∈ fs, f.dividesIntegers = true := by
  induction fs with
  | nil => simp [dividesIntegersAny]
  | cons f fs ih => simp [dividesIntegersAny, ih]

/-- All these factors are integers. -/
def AllIntegers (items : List (Bool × Formula)) : Prop := ∀ i ∈ items, i.2.isInteger = true

/-- Integers are divided in the factors of a term, given whether all before them are integers. -/
def DividesAfter : Prop → List (Bool × Formula) → Prop
  | _, [] => False
  | before, (divides, g) :: more =>
    g.dividesIntegers = true ∨ (divides = true ∧ before ∧ g.isInteger = true) ∨
      DividesAfter (before ∧ g.isInteger = true) more

@[simp] lemma allIntegers_nil : AllIntegers [] := by simp [AllIntegers]

@[simp] lemma allIntegers_cons {i : Bool × Formula} {items : List (Bool × Formula)} :
    AllIntegers (i :: items) ↔ i.2.isInteger = true ∧ AllIntegers items := by
  simp [AllIntegers]

@[simp] lemma allIntegers_append {items more : List (Bool × Formula)} :
    AllIntegers (items ++ more) ↔ AllIntegers items ∧ AllIntegers more := by
  simp [AllIntegers, or_imp, forall_and]

lemma allIntegers_flatMap {β : Type} {items : β → List (Bool × Formula)} {bs : List β} :
    AllIntegers (bs.flatMap items) ↔ ∀ b ∈ bs, AllIntegers (items b) := by
  induction bs with
  | nil => simp
  | cons b bs ih => simp [ih]

lemma dividesAfter_append {before : Prop} {items more : List (Bool × Formula)} :
    DividesAfter before (items ++ more) ↔
      DividesAfter before items ∨ DividesAfter (before ∧ AllIntegers items) more := by
  induction items generalizing before with
  | nil => simp [DividesAfter]
  | cons i items ih => simp [DividesAfter, ih, or_assoc, and_assoc]

lemma isInteger_foldl_extend {f : Formula} {tail : List (Bool × Formula)} :
    (tail.foldl Layout.extend f).isInteger = true ↔ f.isInteger = true ∧ AllIntegers tail := by
  induction tail generalizing f with
  | nil => simp
  | cons i tail ih =>
    obtain ⟨divides, g⟩ := i
    rw [List.foldl_cons, ih]
    cases divides <;> simp [Layout.extend, isInteger, and_assoc]

lemma dividesIntegers_foldl_extend {f : Formula} {tail : List (Bool × Formula)} :
    (tail.foldl Layout.extend f).dividesIntegers = true ↔
      f.dividesIntegers = true ∨ DividesAfter (f.isInteger = true) tail := by
  induction tail generalizing f with
  | nil => simp [DividesAfter]
  | cons i tail ih =>
    obtain ⟨divides, g⟩ := i
    rw [List.foldl_cons, ih]
    cases divides with
    | false => simp [Layout.extend, dividesIntegers, isInteger, DividesAfter, or_assoc]
    | true =>
      simp only [Layout.extend, dividesIntegers, isInteger, DividesAfter, Bool.or_eq_true,
        Bool.and_eq_true, true_and]
      tauto

/-- Factors of several texts one after the other. -/
lemma dividesAfter_flatMap {β : Type} {items : β → List (Bool × Formula)} {integer : β → Prop}
    {divides : Prop → β → Prop} {bs : List β}
    (hinteger : ∀ b ∈ bs, AllIntegers (items b) ↔ integer b)
    (hdivides : ∀ b ∈ bs, ∀ before, DividesAfter before (items b) ↔ divides before b)
    (before : Prop) :
    DividesAfter before (bs.flatMap items) ↔
      ∃ earlier b later, bs = earlier ++ b :: later ∧
        divides (before ∧ ∀ x ∈ earlier, integer x) b := by
  induction bs generalizing before with
  | nil => simp [DividesAfter]
  | cons b bs ih =>
    rw [List.forall_mem_cons] at hinteger hdivides
    rw [List.flatMap_cons, dividesAfter_append, hdivides.1, hinteger.1, ih hinteger.2 hdivides.2]
    constructor
    · rintro (h | ⟨earlier, c, later, rfl, h⟩)
      · exact ⟨[], b, bs, rfl, by simpa using h⟩
      · exact ⟨b :: earlier, c, later, rfl, by simpa [and_assoc] using h⟩
    · rintro ⟨earlier, c, later, heq, h⟩
      cases earlier with
      | nil =>
        cases heq
        exact Or.inl (by simpa using h)
      | cons a earlier =>
        cases heq
        exact Or.inr ⟨earlier, c, later, rfl, by simpa [and_assoc] using h⟩

end Formula

namespace Layout
open Formula

lemma isInteger_formula {l : Layout} : l.formula.isInteger = true ↔ AllIntegers l.items := by
  rw [formula, isInteger_foldl_extend, items, allIntegers_cons]

lemma dividesIntegers_formula {l : Layout} :
    l.formula.dividesIntegers = true ↔ DividesAfter True l.items := by
  rw [formula, dividesIntegers_foldl_extend]
  simp [items, DividesAfter]

/-- A sign does not change the types. -/
lemma isInteger_negate {l : Layout} :
    l.negate.formula.isInteger = true ↔ AllIntegers l.items := by
  rw [negate, formula_single, isInteger_foldl_extend]
  simp [items, Formula.isInteger]

lemma dividesIntegers_negate {l : Layout} :
    l.negate.formula.dividesIntegers = true ↔ DividesAfter True l.items := by
  rw [negate, formula_single, dividesIntegers_foldl_extend]
  simp [items, DividesAfter, Formula.isInteger, Formula.dividesIntegers]

lemma allIntegers_single {f : Formula} {p : Precedence} :
    AllIntegers (single f p).items ↔ f.isInteger = true := by
  simp [items, single]

lemma dividesAfter_single {before : Prop} {f : Formula} {p : Precedence} :
    DividesAfter before (single f p).items ↔ f.dividesIntegers = true := by
  simp [items, single, DividesAfter]

lemma items_chain (ls : List Layout) (h : ls ≠ []) : (chain ls).items = ls.flatMap items := by
  obtain ⟨l, ls, rfl⟩ := List.exists_cons_of_ne_nil h
  simp [chain, items]

lemma items_atLeast_product {l : Layout} (h : l.precedence = .sum → l.tail = []) :
    (l.atLeast .product).items = l.items := by
  unfold atLeast
  split_ifs with hrank
  · obtain ⟨head, tail, precedence⟩ := l
    cases precedence with
    | sum =>
      obtain rfl : tail = [] := h rfl
      rfl
    | product | power | atom => exact absurd hrank (by simp [Precedence.rank])
  · rfl

end Layout

end EquationCompiler
