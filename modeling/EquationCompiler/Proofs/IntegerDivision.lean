import EquationCompiler.Proofs.CppTypes
import EquationCompiler.Proofs.MachineText
import EquationCompiler.Proofs.PrintRead

/-!
# Division of integers in C++

The expressions in whose C++ text integers are divided, described without the text:
somewhere all that stands before a division line in the same term is integers, and
so is what stands below it. The printer prevents this for numbers, but not for sums
of numbers.
-/
namespace EquationCompiler

namespace Expr
variable {α : Type} [Numeral α]

/-- The coefficient of the fraction is written as an integer, or not at all. It is made a decimal
if nothing else stands above a division line. -/
def Fraction.LeadsWithInteger (f : Fraction α) : Prop :=
  (Scalar.isOne (Scalar.magnitude f.coefficient) = true ∧ f.above ≠ []) ∨
    ((Scalar.whole? (Scalar.magnitude f.coefficient)).isSome ∧ (f.above ≠ [] ∨ f.below = []))

/-- The text of the expression is an integer in C++. Only numbers, sums and fractions can be. A
number below a division line is always written as a decimal. -/
inductive IsInteger : Expr α → Prop
  | number {x : α} (h : (Scalar.whole? x).isSome) : IsInteger (number x)
  | sum {ts : List (Expr α)} (h : ∀ t ∈ ts, IsInteger (splitSign t).2) : IsInteger (sum ts)
  | fraction {e : Expr α} {f : Fraction α} (hf : e.asFraction? = some f)
      (hlead : f.LeadsWithInteger) (habove : ∀ a ∈ f.above, IsInteger a)
      (hnumber : ∀ b ∈ f.below, b.asNumber? = none) (hbelow : ∀ b ∈ f.below, IsInteger b) :
      IsInteger e

/-- The text of the expression below a division line is an integer. -/
def IsIntegerDivisor (e : Expr α) : Prop := e.asNumber? = none ∧ e.IsInteger

/-- In the C++ text of the expression integers are divided, given whether all factors that stand
before it in the same term are integers. -/
inductive DividesIntegers : Prop → Expr α → Prop
  | term {before : Prop} {ts : List (Expr α)} {t : Expr α} (ht : t ∈ ts)
      (h : DividesIntegers True (splitSign t).2) : DividesIntegers before (sum ts)
  | argument {before : Prop} {f : Elementary} {args : List (Expr α)} {a : Expr α} (ha : a ∈ args)
      (h : DividesIntegers True a) : DividesIntegers before (call f args)
  | base {before : Prop} {b e : Expr α} (hpower : (power b e).asFraction? = none)
      (h : DividesIntegers True b) : DividesIntegers before (power b e)
  | exponent {before : Prop} {b e : Expr α} (hpower : (power b e).asFraction? = none)
      (h : DividesIntegers True e) : DividesIntegers before (power b e)
  | numerator {before : Prop} {e a : Expr α} {f : Fraction α} {earlier later : List (Expr α)}
      (hf : e.asFraction? = some f) (ha : f.above = earlier ++ a :: later)
      (h : DividesIntegers (((Scalar.isNegative f.coefficient = true ∨ before) ∧
        f.LeadsWithInteger) ∧ ∀ x ∈ earlier, IsInteger x) a) : DividesIntegers before e
  | divisor {before : Prop} {e b : Expr α} {f : Fraction α} {earlier later : List (Expr α)}
      (hf : e.asFraction? = some f) (hb : f.below = earlier ++ b :: later)
      (h : DividesIntegers (True ∧ ∀ x ∈ earlier, IsIntegerDivisor x) b) : DividesIntegers before e
  /-- The division line itself. A sign before the fraction starts a term. -/
  | line {before : Prop} {e : Expr α} {f : Fraction α} (hf : e.asFraction? = some f)
      (hbefore : Scalar.isNegative f.coefficient = true ∨ before) (hlead : f.LeadsWithInteger)
      (habove : ∀ a ∈ f.above, IsInteger a) (hne : f.below ≠ [])
      (hbelow : ∀ b ∈ f.below, IsIntegerDivisor b) : DividesIntegers before e

lemma isInteger_fraction_iff {e : Expr α} {f : Fraction α} (hf : e.asFraction? = some f) :
    e.IsInteger ↔ (f.LeadsWithInteger ∧ ∀ a ∈ f.above, IsInteger a) ∧
      ∀ b ∈ f.below, IsIntegerDivisor b := by
  constructor
  · intro h
    cases h with
    | number h | sum h => cases hf
    | fraction hf' hlead habove hnumber hbelow =>
      obtain rfl := Option.some.inj (hf.symm.trans hf')
      exact ⟨⟨hlead, habove⟩, fun b hb => ⟨hnumber b hb, hbelow b hb⟩⟩
  · rintro ⟨⟨hlead, habove⟩, hbelow⟩
    exact .fraction hf hlead habove (fun b hb => (hbelow b hb).1) fun b hb => (hbelow b hb).2

lemma dividesIntegers_fraction_iff {before : Prop} {e : Expr α} {f : Fraction α}
    (hf : e.asFraction? = some f) :
    DividesIntegers before e ↔
      (∃ earlier a later, f.above = earlier ++ a :: later ∧
        DividesIntegers (((Scalar.isNegative f.coefficient = true ∨ before) ∧
          f.LeadsWithInteger) ∧ ∀ x ∈ earlier, IsInteger x) a) ∨
      (∃ earlier b later, f.below = earlier ++ b :: later ∧
        DividesIntegers (True ∧ ∀ x ∈ earlier, IsIntegerDivisor x) b) ∨
      ((Scalar.isNegative f.coefficient = true ∨ before) ∧ f.LeadsWithInteger ∧
        (∀ a ∈ f.above, IsInteger a) ∧ f.below ≠ [] ∧ ∀ b ∈ f.below, IsIntegerDivisor b) := by
  constructor
  · intro h
    cases h with
    | term ht h | argument ha h => cases hf
    | base hpower h | exponent hpower h => cases hpower.symm.trans hf
    | numerator hf' ha h =>
      obtain rfl := Option.some.inj (hf.symm.trans hf')
      exact Or.inl ⟨_, _, _, ha, h⟩
    | divisor hf' hb h =>
      obtain rfl := Option.some.inj (hf.symm.trans hf')
      exact Or.inr (Or.inl ⟨_, _, _, hb, h⟩)
    | line hf' hbefore hlead habove hne hbelow =>
      obtain rfl := Option.some.inj (hf.symm.trans hf')
      exact Or.inr (Or.inr ⟨hbefore, hlead, habove, hne, hbelow⟩)
  · rintro (⟨_, _, _, ha, h⟩ | ⟨_, _, _, hb, h⟩ | ⟨hbefore, hlead, habove, hne, hbelow⟩)
    · exact .numerator hf ha h
    · exact .divisor hf hb h
    · exact .line hf hbefore hlead habove hne hbelow

lemma not_dividesIntegers_number {before : Prop} {x : α} : ¬DividesIntegers before (number x) := by
  rintro h
  cases h with
  | numerator hf | divisor hf | line hf => cases hf

lemma isInteger_sum_iff {ts : List (Expr α)} :
    IsInteger (sum ts) ↔ ∀ t ∈ ts, IsInteger (splitSign t).2 := by
  constructor
  · intro h
    cases h with
    | sum h => exact h
    | fraction hf => cases hf
  · exact .sum

lemma dividesIntegers_sum_iff {before : Prop} {ts : List (Expr α)} :
    DividesIntegers before (sum ts) ↔ ∃ t ∈ ts, DividesIntegers True (splitSign t).2 := by
  constructor
  · intro h
    cases h with
    | term ht h => exact ⟨_, ht, h⟩
    | numerator hf | divisor hf | line hf => cases hf
  · rintro ⟨t, ht, h⟩
    exact .term ht h

lemma isInteger_unsignedFormula {cs : List Char} (h : IsDecimal cs) :
    (Dialect.unsignedFormula cs).isInteger = false := by
  unfold Dialect.unsignedFormula
  split_ifs with hhead
  · rcases h with h | ⟨-, -, c, hc, hdigit⟩
    · rw [not_isDigit_head_of_isName h] at hhead
      cases hhead
    · rw [Formula.isInteger, String.toList_ofList, List.all_eq_false]
      exact ⟨c, hc, hdigit⟩
  · rfl

lemma isInteger_unsignedFormula_digits {cs : List Char} (h : Token.IsDigits cs) :
    (Dialect.unsignedFormula cs).isInteger = true := by
  obtain ⟨c, hc, hdigit⟩ := h.head
  have hhead : cs.head?.any Char.isDigit = true := by
    rw [Option.mem_def.mp hc]
    exact hdigit
  rw [Dialect.unsignedFormula, if_pos hhead, Formula.isInteger, String.toList_ofList, List.all_eq_true]
  exact h.2

lemma dividesIntegers_numberFormula (cs : List Char) :
    (Dialect.numberFormula cs).dividesIntegers = false := by
  unfold Dialect.numberFormula Dialect.unsignedFormula
  split
  · rw [Formula.dividesIntegers]
    split_ifs <;> rfl
  · split_ifs <;> rfl

variable [Legible α]

/-- In C++ a number is an integer if it is whole and not made a decimal for a division. -/
lemma isInteger_numeral {x : α} {divides : Bool} :
    (Dialect.cpp.numeral x divides).isInteger = true ↔ (Scalar.whole? x).isSome ∧ divides = false := by
  obtain ⟨cs, htext, hcs⟩ := Dialect.cpp.number_spec x divides
  have hhead : cs.head? ≠ some '-' := by
    rcases hcs with ⟨-, -, h⟩ | ⟨-, h⟩
    · obtain ⟨c, hc, hdigit⟩ := h.head
      exact head_ne_minus hc hdigit
    · exact h.head_ne_minus
  have hnumeral : (Dialect.cpp.numeral x divides).isInteger = (Dialect.unsignedFormula cs).isInteger := by
    unfold Dialect.numeral
    rcases htext with h | h
    · rw [h, numberFormula_unsigned hhead]
    · rw [h]
      rfl
  rw [hnumeral]
  rcases hcs with ⟨hwhole, hdivides, hdigits⟩ | ⟨hor, hdecimal⟩
  · simp only [isInteger_unsignedFormula_digits hdigits, hwhole, true_and, true_iff]
    simpa using hdivides
  · simp only [isInteger_unsignedFormula hdecimal]
    rcases hor with hnone | hdivides
    · simp [hnone]
    · simp only [Bool.and_eq_true] at hdivides
      simp [hdivides.1]

/-- The layout of an expression has the types of the expression. -/
structure Mirrors (l : Layout) (e : Expr α) : Prop where
  tail_of_sum : l.precedence = .sum → l.tail = []
  isInteger : Formula.AllIntegers l.items ↔ e.IsInteger
  divides (before : Prop) : Formula.DividesAfter before l.items ↔ DividesIntegers before e

omit [Legible α] in
lemma Mirrors.isInteger_formula {l : Layout} {e : Expr α} (h : Mirrors l e) :
    l.formula.isInteger = true ↔ e.IsInteger := Layout.isInteger_formula.trans h.isInteger

omit [Legible α] in
lemma Mirrors.dividesIntegers_formula {l : Layout} {e : Expr α} (h : Mirrors l e) :
    l.formula.dividesIntegers = true ↔ DividesIntegers True e :=
  Layout.dividesIntegers_formula.trans (h.divides True)

omit [Legible α] in
lemma mirrors_single {f : Formula} {p : Precedence} {e : Expr α}
    (hinteger : f.isInteger = true ↔ e.IsInteger)
    (hdivides : ∀ before, f.dividesIntegers = true ↔ DividesIntegers before e) :
    Mirrors (.single f p) e where
  tail_of_sum _ := rfl
  isInteger := Layout.allIntegers_single.trans hinteger
  divides before := Layout.dividesAfter_single.trans (hdivides before)

variable {layout : Expr α → Layout}

lemma mirrors_number (x : α) (p : Precedence) :
    Mirrors (.single (Dialect.cpp.numeral x false) p) (number x) := by
  refine mirrors_single (isInteger_numeral.trans ?_) fun before => ?_
  · constructor
    · rintro ⟨h, -⟩
      exact .number h
    · rintro h
      cases h with
      | number h => exact ⟨h, rfl⟩
      | fraction hf => cases hf
  · rw [Dialect.numeral, dividesIntegers_numberFormula]
    simp [not_dividesIntegers_number]

omit [Legible α] in
/-- The types of a sum by the types of its terms without their signs. -/
lemma types_foldl_addTerm (f : Formula) {ts : List (Expr α)}
    (hts : ∀ t ∈ ts, Mirrors (layout (splitSign t).2) (splitSign t).2) :
    ((ts.foldl (addTerm layout) f).isInteger = true ↔
        f.isInteger = true ∧ ∀ t ∈ ts, IsInteger (splitSign t).2) ∧
      ((ts.foldl (addTerm layout) f).dividesIntegers = true ↔
        f.dividesIntegers = true ∨ ∃ t ∈ ts, DividesIntegers True (splitSign t).2) := by
  induction ts generalizing f with
  | nil => simp
  | cons t ts ih =>
    obtain ⟨ht, hts⟩ := List.forall_mem_cons.mp hts
    obtain ⟨hinteger, hdivides⟩ := ih (addTerm layout f t) hts
    rw [List.foldl_cons, hinteger, hdivides, addTerm]
    split_ifs
    · simp [Formula.isInteger, Formula.dividesIntegers, ht.isInteger_formula,
        ht.dividesIntegers_formula, and_assoc, or_assoc]
    · simp [Formula.isInteger, Formula.dividesIntegers, ht.isInteger_formula,
        ht.dividesIntegers_formula, and_assoc, or_assoc]

omit [Legible α] in
lemma mirrors_sum {ts : List (Expr α)} (hne : ts ≠ [])
    (h : ∀ t ∈ ts, Mirrors (layout (splitSign t).2) (splitSign t).2) :
    Mirrors (layoutSum layout ts) (sum ts) := by
  obtain ⟨t, ts, rfl⟩ := List.exists_cons_of_ne_nil hne
  obtain ⟨hfirst, hlater⟩ := List.forall_mem_cons.mp h
  obtain ⟨hinteger, hdivides⟩ := types_foldl_addTerm
    (if (splitSign t).1 then ((layout (splitSign t).2).atLeast .product).negate.formula
      else ((layout (splitSign t).2).atLeast .product).formula) hlater
  have hitems := Layout.items_atLeast_product hfirst.tail_of_sum
  rw [layoutSum_cons]
  refine mirrors_single ?_ fun before => ?_
  · rw [hinteger, isInteger_sum_iff, List.forall_mem_cons]
    split_ifs
    · rw [Layout.isInteger_negate, hitems, hfirst.isInteger]
    · rw [Layout.isInteger_formula, hitems, hfirst.isInteger]
  · rw [hdivides, dividesIntegers_sum_iff, List.exists_mem_cons_iff]
    split_ifs
    · rw [Layout.dividesIntegers_negate, hitems, hfirst.divides]
    · rw [Layout.dividesIntegers_formula, hitems, hfirst.divides]

/-- A number below a division line is a decimal, anything else stands there as it is. -/
lemma items_divisor {e : Expr α} (h : Mirrors (layout e) e) :
    (Formula.AllIntegers (layoutDivisor .cpp layout .product e).items ↔ IsIntegerDivisor e) ∧
      ∀ before, Formula.DividesAfter before (layoutDivisor .cpp layout .product e).items ↔
        DividesIntegers before e := by
  unfold IsIntegerDivisor
  cases e with
  | number x =>
    rw [layoutDivisor, Layout.allIntegers_single, isInteger_numeral]
    refine ⟨by simp, fun before => ?_⟩
    rw [Layout.dividesAfter_single, Dialect.numeral, dividesIntegers_numberFormula]
    simp [not_dividesIntegers_number]
  | _ =>
    rw [layoutDivisor, Layout.items_atLeast_product h.tail_of_sum]
    · exact ⟨h.isInteger.trans (by simp [asNumber?]), h.divides⟩
    · simp

omit [Legible α] in
/-- All divisors after a line are read as one factor. -/
lemma layoutBelow_eq (layout : Expr α → Layout) {es : List (Expr α)} (hne : es ≠ []) :
    ∃ g, layoutBelow .cpp layout es = [(true, g)] ∧
      (g.isInteger = true ↔
        Formula.AllIntegers (es.flatMap fun e => (layoutDivisor .cpp layout .product e).items)) ∧
      (g.dividesIntegers = true ↔
        Formula.DividesAfter True
          (es.flatMap fun e => (layoutDivisor .cpp layout .product e).items)) := by
  match es with
  | [e] =>
    have hformula : (layoutDivisor .cpp layout .power e).formula =
        (layoutDivisor .cpp layout .product e).formula := by
      cases e <;> simp [layoutDivisor]
    refine ⟨_, rfl, ?_, ?_⟩
    · rw [hformula, Layout.isInteger_formula]
      simp
    · rw [hformula, Layout.dividesIntegers_formula]
      simp
  | e :: f :: more =>
    have hitems := Layout.items_chain ((e :: f :: more).map (layoutDivisor .cpp layout .product))
      (by simp)
    rw [List.flatMap_map] at hitems
    refine ⟨_, rfl, ?_, ?_⟩
    · rw [Layout.isInteger_formula, hitems]
    · rw [Layout.dividesIntegers_formula, hitems]

/-- The coefficient as it is written. -/
lemma allIntegers_lead (f : Fraction α) :
    Formula.AllIntegers ((layoutLead .cpp f).flatMap Layout.items) ↔ f.LeadsWithInteger := by
  unfold layoutLead Fraction.LeadsWithInteger
  by_cases hwritten : (!Scalar.isOne (Scalar.magnitude f.coefficient) || f.above.isEmpty) = true
  · have hnot : ¬(Scalar.isOne (Scalar.magnitude f.coefficient) = true ∧ f.above ≠ []) := by
      simp only [Bool.or_eq_true, Bool.not_eq_true', List.isEmpty_iff] at hwritten
      rintro ⟨hone, habove⟩
      rcases hwritten with h | h
      · exact absurd hone (by simp [h])
      · exact habove h
    have hplace : (f.above.isEmpty && !f.below.isEmpty) = false ↔ f.above ≠ [] ∨ f.below = [] := by
      cases f.above <;> cases f.below <;> simp
    simp only [if_pos hwritten, List.flatMap_cons, List.flatMap_nil, List.append_nil,
      Layout.allIntegers_single, isInteger_numeral, hnot, false_or, hplace]
  · simp only [if_neg hwritten, List.flatMap_nil, Formula.allIntegers_nil, true_iff]
    simp only [Bool.or_eq_true, Bool.not_eq_true', List.isEmpty_iff, not_or] at hwritten
    exact Or.inl ⟨by simpa using hwritten.1, hwritten.2⟩

omit [Legible α] in
lemma not_dividesAfter_lead (f : Fraction α) (before : Prop) :
    ¬Formula.DividesAfter before ((layoutLead .cpp f).flatMap Layout.items) := by
  unfold layoutLead
  dsimp only
  split_ifs
  · rw [List.flatMap_cons, List.flatMap_nil, List.append_nil, Layout.dividesAfter_single,
      Dialect.numeral, dividesIntegers_numberFormula]
    simp
  · simp [Formula.DividesAfter]

omit [Legible α] in
/-- All factors of a fraction, those of the divisors as one. -/
lemma items_unsigned (f : Fraction α) :
    (layoutUnsigned .cpp layout f).items = (layoutLead .cpp f).flatMap Layout.items ++
      (f.above.flatMap fun e => ((layout e).atLeast .product).items) ++
      layoutBelow .cpp layout f.below := by
  have hne : layoutLead .cpp f ++ f.above.map (fun e => (layout e).atLeast .product) ≠ [] := by
    unfold layoutLead
    dsimp only
    split_ifs with h
    · simp
    · simp only [Bool.or_eq_true, List.isEmpty_iff, not_or] at h
      simpa using h.2
  have hitems := Layout.items_chain _ hne
  rw [List.flatMap_append, List.flatMap_map] at hitems
  rw [← hitems]
  rfl

/-- The types of what stands above the division line. -/
lemma types_numerator {f : Fraction α} (habove : ∀ a ∈ f.above, Mirrors (layout a) a) :
    (Formula.AllIntegers ((layoutLead .cpp f).flatMap Layout.items ++
        f.above.flatMap fun a => ((layout a).atLeast .product).items) ↔
      f.LeadsWithInteger ∧ ∀ a ∈ f.above, IsInteger a) ∧
    ∀ before, Formula.DividesAfter before ((layoutLead .cpp f).flatMap Layout.items ++
        f.above.flatMap fun a => ((layout a).atLeast .product).items) ↔
      ∃ earlier a later, f.above = earlier ++ a :: later ∧
        DividesIntegers ((before ∧ f.LeadsWithInteger) ∧ ∀ x ∈ earlier, IsInteger x) a := by
  have hitems : ∀ a ∈ f.above, ((layout a).atLeast .product).items = (layout a).items :=
    fun a ha => Layout.items_atLeast_product (habove a ha).tail_of_sum
  have hinteger : ∀ a ∈ f.above,
      (Formula.AllIntegers ((layout a).atLeast .product).items ↔ IsInteger a) :=
    fun a ha => by rw [hitems a ha, (habove a ha).isInteger]
  refine ⟨?_, fun before => ?_⟩
  · rw [Formula.allIntegers_append, allIntegers_lead, Formula.allIntegers_flatMap]
    exact and_congr_right fun _ => forall₂_congr hinteger
  · rw [Formula.dividesAfter_append, allIntegers_lead, Formula.dividesAfter_flatMap hinteger
      fun a ha before => by rw [hitems a ha, (habove a ha).divides]]
    simp only [not_dividesAfter_lead, false_or]

/-- The types of a fraction without its sign. -/
lemma types_unsigned {f : Fraction α} (habove : ∀ a ∈ f.above, Mirrors (layout a) a)
    (hbelow : ∀ b ∈ f.below, Mirrors (layout b) b) :
    (Formula.AllIntegers (layoutUnsigned .cpp layout f).items ↔
        (f.LeadsWithInteger ∧ ∀ a ∈ f.above, IsInteger a) ∧ ∀ b ∈ f.below, IsIntegerDivisor b) ∧
      ∀ before, Formula.DividesAfter before (layoutUnsigned .cpp layout f).items ↔
        (∃ earlier a later, f.above = earlier ++ a :: later ∧
          DividesIntegers ((before ∧ f.LeadsWithInteger) ∧ ∀ x ∈ earlier, IsInteger x) a) ∨
        (∃ earlier b later, f.below = earlier ++ b :: later ∧
          DividesIntegers (True ∧ ∀ x ∈ earlier, IsIntegerDivisor x) b) ∨
        (before ∧ f.LeadsWithInteger ∧ (∀ a ∈ f.above, IsInteger a) ∧ f.below ≠ [] ∧
          ∀ b ∈ f.below, IsIntegerDivisor b) := by
  obtain ⟨habove, hnumerator⟩ := types_numerator habove
  rw [items_unsigned]
  by_cases hne : f.below = []
  · rw [hne, layoutBelow, List.append_nil]
    refine ⟨?_, fun before => ?_⟩
    · rw [habove]
      simp
    · rw [hnumerator]
      simp
  · obtain ⟨g, hline, hinteger, hdivides⟩ := layoutBelow_eq layout hne
    have hdivisors := Formula.dividesAfter_flatMap (fun b hb => (items_divisor (hbelow b hb)).1)
      (fun b hb => (items_divisor (hbelow b hb)).2) True
    have hintegers : g.isInteger = true ↔ ∀ b ∈ f.below, IsIntegerDivisor b := by
      rw [hinteger, Formula.allIntegers_flatMap]
      exact forall₂_congr fun b hb => (items_divisor (hbelow b hb)).1
    rw [hline]
    refine ⟨?_, fun before => ?_⟩
    · rw [Formula.allIntegers_append, habove]
      simp [hintegers]
    · rw [Formula.dividesAfter_append, hnumerator, habove]
      simp only [Formula.DividesAfter, hdivides, hdivisors, hintegers, true_and, or_false, and_assoc,
        ne_eq, hne, not_false_eq_true]

/-- The fraction as which an expression is printed has the types of the expression. -/
lemma mirrors_fraction {e : Expr α} {f : Fraction α} (hf : e.asFraction? = some f)
    (h : ∀ p ∈ e.parts, Mirrors (layout p) p) : Mirrors (layoutFraction .cpp layout f) e := by
  rw [parts_of_asFraction? hf] at h
  obtain ⟨habove, hbelow⟩ := List.forall_mem_append.mp h
  obtain ⟨hinteger, hdivides⟩ := types_unsigned habove hbelow
  unfold layoutFraction
  split_ifs with hnegative
  · refine mirrors_single ?_ fun before => ?_
    · exact Layout.isInteger_negate.trans (hinteger.trans (isInteger_fraction_iff hf).symm)
    · refine Layout.dividesIntegers_negate.trans ((hdivides True).trans ?_)
      rw [dividesIntegers_fraction_iff hf]
      simp [hnegative]
  · refine ⟨fun hsum => absurd hsum (by simp [layoutUnsigned]), ?_, fun before => ?_⟩
    · rw [hinteger, isInteger_fraction_iff hf]
    · rw [hdivides, dividesIntegers_fraction_iff hf]
      simp [hnegative]

omit [Legible α] in
/-- A power that is no fraction is a call in C++. -/
lemma mirrors_power {b e : Expr α} (hpower : (power b e).asFraction? = none)
    (hb : Mirrors (layout b) b) (he : Mirrors (layout e) e) :
    Mirrors (layoutPower .cpp layout b e) (power b e) := by
  have hinteger : ¬IsInteger (power b e) := by
    rintro h
    cases h with
    | fraction hf => cases hpower.symm.trans hf
  have hdivides (before : Prop) : DividesIntegers before (power b e) ↔
      DividesIntegers True b ∨ DividesIntegers True e := by
    constructor
    · intro h
      cases h with
      | base _ h => exact Or.inl h
      | exponent _ h => exact Or.inr h
      | numerator hf | divisor hf | line hf => cases hpower.symm.trans hf
    · rintro (h | h)
      · exact .base hpower h
      · exact .exponent hpower h
  unfold layoutPower
  split_ifs with hhalf
  · cases e with
    | number x =>
      refine mirrors_single (by simp [Formula.isInteger, hinteger]) fun before => ?_
      rw [hdivides, Formula.dividesIntegers, Formula.dividesIntegersAny_iff]
      simp [hb.dividesIntegers_formula, not_dividesIntegers_number]
    | _ => cases hhalf
  · refine mirrors_single (by simp [Formula.isInteger, hinteger]) fun before => ?_
    rw [hdivides, Formula.dividesIntegers, Formula.dividesIntegersAny_iff]
    simp [hb.dividesIntegers_formula, he.dividesIntegers_formula]

omit [Legible α] in
lemma mirrors_call {f : Elementary} {args : List (Expr α)} (h : ∀ a ∈ args, Mirrors (layout a) a) :
    Mirrors (.single (.call (Dialect.cpp.function f) (args.map fun a => (layout a).formula)) .atom)
      (call f args) := by
  refine mirrors_single ?_ fun before => ?_
  · simp only [Formula.isInteger, Bool.false_eq_true, false_iff]
    rintro h
    cases h with
    | fraction hf => cases hf
  · rw [Formula.dividesIntegers, Formula.dividesIntegersAny_iff]
    constructor
    · rintro ⟨g, hg, hdivides⟩
      obtain ⟨a, ha, rfl⟩ := List.mem_map.mp hg
      exact .argument ha ((h a ha).dividesIntegers_formula.mp hdivides)
    · intro hdivides
      cases hdivides with
      | argument ha hdivides =>
        exact ⟨_, List.mem_map.mpr ⟨_, ha, rfl⟩, (h _ ha).dividesIntegers_formula.mpr hdivides⟩
      | numerator hf | divisor hf | line hf => cases hf

omit [Legible α] in
/-- Names and constants are neither integers nor divisions. -/
lemma mirrors_name {s : String} {e : Expr α}
    (he : (∃ t, e = symbol t) ∨ ∃ c, e = constant c) :
    Mirrors (.single (.name s) .atom) e := by
  have hinteger : ¬e.IsInteger := by
    rintro h
    cases h with
    | number h | sum h => simp at he
    | fraction hf => rcases he with ⟨t, rfl⟩ | ⟨c, rfl⟩ <;> cases hf
  have hdivides (before : Prop) : ¬DividesIntegers before e := by
    rintro h
    cases h with
    | term ht h | argument ha h | base hpower h | exponent hpower h => simp at he
    | numerator hf | divisor hf | line hf => rcases he with ⟨t, rfl⟩ | ⟨c, rfl⟩ <;> cases hf
  refine mirrors_single (by simp [Formula.isInteger, hinteger]) fun before => ?_
  simp [Formula.dividesIntegers, hdivides]

/-- The layout of an expression has its types if the layouts of its parts have theirs. -/
lemma mirrors_layoutWith {e : Expr α} (he : Writable e)
    (h : ∀ p ∈ e.parts, Mirrors (layout p) p) : Mirrors (layoutWith .cpp layout e) e := by
  cases he with
  | number x => exact mirrors_number x _
  | @symbol s hs => exact mirrors_name (Or.inl ⟨s, rfl⟩)
  | constant c => exact mirrors_name (Or.inr ⟨c, rfl⟩)
  | sum hne hts => exact mirrors_sum hne fun t ht => h _ (List.mem_map.mpr ⟨t, ht, rfl⟩)
  | product hfs => exact mirrors_fraction rfl h
  | @power b e hb he =>
    rw [layoutWith]
    split_ifs with hnegative
    · exact mirrors_fraction (by rw [asFraction?, if_pos hnegative]) h
    · rw [parts, if_neg hnegative] at h
      exact mirrors_power (by rw [asFraction?, if_neg hnegative]) (h b (by simp)) (h e (by simp))
  | call hne hargs => exact mirrors_call h

/-- Within enough rounds the layout of an expression has its types. -/
theorem mirrors_layoutIn {rounds : ℕ} {e : Expr α} (he : Writable e) (hrounds : e.bulk < rounds) :
    Mirrors (layoutIn .cpp rounds e) e :=
  rounds_induction (R := fun rounds e => Mirrors (layoutIn .cpp rounds e) e)
    hereditary_writable.of_mem_parts mirrors_layoutWith he hrounds

/-- The C++ text of an expression divides integers exactly if the expression does. -/
theorem dividesIntegers_written {e : Expr α} (he : Writable e) :
    (e.written .cpp).dividesIntegers = true ↔ e.DividesIntegers True :=
  (mirrors_layoutIn he e.bulk_lt_rounds).dividesIntegers_formula

omit [Legible α] in
/-- What is read from a text can be written. -/
lemma writable_parse {v : Vocabulary} {text : String} {e : Expr α} (h : parse v text = .ok e) :
    Writable e := by
  obtain ⟨f, hread, hcompile⟩ := Formula.bind_eq_ok.mp h
  exact Formula.hereditary_compile hereditary_writable .constant
    (fun s hs => .symbol (Formula.isName_of_read hread hs)) hcompile

omit [Legible α] in
lemma writable_derivatives {e : Expr α} (he : Writable e) (names : List String) :
    Writable (names.foldl (fun e name => e.derivative name) e) := by
  induction names generalizing e with
  | nil => exact he
  | cons name names ih => exact ih (hereditary_writable.derivative name he)

/-- The C++ text of a parsed expression, or of a derivative of one of any order, divides integers
exactly if integers stand above and below a division line of the expression. -/
theorem read_toCpp_dividesIntegers_iff {v : Vocabulary} {text cpp : String} {e : Expr Float}
    (names : List String) (hparse : parse v text = .ok e)
    (hcpp : (names.foldl (fun e name => e.derivative name) e).toCpp = .ok cpp) :
    ∃ f, Formula.read cpp = .ok f ∧ (f.dividesIntegers = true ↔
      DividesIntegers True (names.foldl (fun e name => e.derivative name) e)) := by
  have hwritable := writable_derivatives (writable_parse hparse) names
  generalize names.foldl (fun e name => e.derivative name) e = derived at hcpp hwritable
  unfold toCpp at hcpp
  split at hcpp
  · cases hcpp
  · obtain rfl := Except.ok.inj hcpp
    exact ⟨derived.written .cpp, read_print .cpp hwritable, dividesIntegers_written hwritable⟩

/-- Sums whose terms have been collected to integers are divided as integers. -/
theorem dividesIntegers_quotient_of_sums :
    ∃ e : Expr Float, parse ⟨[]⟩ "(5+1/3+1/3+1/3)/(3+1/3+1/3+1/3)" = .ok e ∧
      e.toCpp = .ok "(5 + 1)/(3 + 1)" ∧ DividesIntegers True e := by
  have htext : (parse (α := Float) ⟨[]⟩ "(5+1/3+1/3+1/3)/(3+1/3+1/3+1/3)" >>= toCpp).toOption =
      some "(5 + 1)/(3 + 1)" := by decide +kernel
  have hread : (Formula.read "(5 + 1)/(3 + 1)").toOption.map Formula.dividesIntegers = some true := by
    decide +kernel
  cases hparse : parse (α := Float) ⟨[]⟩ "(5+1/3+1/3+1/3)/(3+1/3+1/3+1/3)" with
  | error fault =>
    rw [hparse] at htext
    cases htext
  | ok e =>
    rw [hparse] at htext
    have hcpp : e.toCpp = .ok "(5 + 1)/(3 + 1)" := by
      cases h : e.toCpp with
      | error fault => simp [bind, Except.bind, Except.toOption, h] at htext
      | ok cpp => simpa [bind, Except.bind, Except.toOption, h] using htext
    obtain ⟨f, hf, hdivides⟩ := read_toCpp_dividesIntegers_iff [] hparse hcpp
    rw [hf] at hread
    exact ⟨e, rfl, hcpp, hdivides.mp (Option.some.inj hread)⟩

end Expr

end EquationCompiler
