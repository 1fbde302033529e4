import EquationCompiler.Proofs.ParseLanguage
import EquationCompiler.Proofs.WrittenValue

/-!
# The C++ text means the expression

How names are read in C++: `pow`, `sqrt` and `fabs` are the power, the square
root and the absolute value, the other functions have their usual names, and
`M_PI` and `M_E` are constants. The C++ text of whatever expression is obtained
denotes its value, unless a symbol has the name of one of these constants: such a
symbol is written like the constant.
-/
namespace EquationCompiler

open Classical in
/-- The power of two numbers where it is defined. -/
noncomputable def power? (x y : ℝ) : Option ℝ := if PowerDefined x y then some (x ^ y) else none

/-- The square root of one number that is not negative. -/
noncomputable def root? : List ℝ → Option ℝ
  | [x] => if 0 ≤ x then some (Real.sqrt x) else none
  | _ => none

open Classical in
/-- The function where it is defined. -/
noncomputable def Elementary.real? (f : Elementary) (xs : List ℝ) : Option ℝ :=
  if f.DefinedAt xs then some (f.real xs) else none

lemma power?_eq {x y : ℝ} (h : PowerDefined x y) : power? x y = some (x ^ y) := if_pos h

lemma root?_eq {x : ℝ} (h : 0 ≤ x) : root? [x] = some (Real.sqrt x) := if_pos h

lemma Elementary.real?_eq {f : Elementary} {xs : List ℝ} (h : f.DefinedAt xs) :
    f.real? xs = some (f.real xs) := if_pos h

namespace Interpretation

/-- The meaning of C++ texts. There is no operator for powers. -/
noncomputable def cpp (ρ : String → Option ℝ) : Interpretation where
  name s :=
    if s = "M_PI" then some Real.pi
    else if s = "M_E" then some (Real.exp 1)
    else ρ s
  call f xs :=
    if f = "pow" then
      match xs with
      | [x, y] => power? x y
      | _ => none
    else if f = "sqrt" then root? xs
    else if f = "fabs" then Elementary.abs.real? xs
    else if f = "abs" then none
    else (Elementary.ofName? f).bind fun g => g.real? xs
  power _ _ := none

end Interpretation

namespace Expr

lemma suits_cpp (ρ : String → Option ℝ) :
    Suits (.cpp ρ) .cpp ρ fun s => s ≠ "M_PI" ∧ s ≠ "M_E" where
  symbol h := by simp [Interpretation.cpp, h.1, h.2]
  constant c := by cases c <;> rfl
  call {f xs} h := by
    have hreal := Elementary.real?_eq h
    cases f <;> exact hreal
  root h := root?_eq h
  power h := power?_eq h

section
variable {α : Type} [Scalar α]

mutual
/-- Where all numbers are finite, none in an expression is not. -/
theorem nonFinite?_eq_none (h : ∀ x : α, Scalar.isFinite x = true) (e : Expr α) :
    e.nonFinite? = none := by
  cases e with
  | number x => rw [nonFinite?, if_pos (h x)]
  | symbol s | constant c => rfl
  | sum es | product es | call f es => exact nonFiniteAny?_eq_none h es
  | power b e =>
    rw [nonFinite?, nonFinite?_eq_none h b, nonFinite?_eq_none h e]
    rfl
theorem nonFiniteAny?_eq_none (h : ∀ x : α, Scalar.isFinite x = true) (es : List (Expr α)) :
    nonFiniteAny? es = none := by
  match es with
  | [] => rfl
  | e :: es =>
    rw [nonFiniteAny?, nonFinite?_eq_none h e, nonFiniteAny?_eq_none h es]
    rfl
end

end

/-- Over exact numbers the C++ text of a well-formed expression denotes its value. -/
theorem toCpp_denotes {α : Type} [ExactNumeral α] [SpelledNumeral α]
    (hfinite : ∀ x : α, Scalar.isFinite x = true) {e : Expr α}
    (he : Formed (fun s => Token.IsName s.toList) e)
    (hnames : e.contains "M_PI" = false ∧ e.contains "M_E" = false) :
    ∃ (cpp : String) (f : Formula), e.toCpp = .ok cpp ∧ f.SpelledBy cpp ∧
      ∀ ρ, e.Defined ρ → f.denote (.cpp ρ) = some (e.value ρ) := by
  refine ⟨(e.print .cpp).text, e.written .cpp, ?_, ?_, fun ρ hd => ?_⟩
  · rw [toCpp, nonFinite?_eq_none hfinite]
  · exact Formula.read_eq_ok_iff.mp (read_print .cpp he.writable)
  · refine denote_written (suits_cpp ρ) (he.of_contains fun s hs _ => ⟨?_, ?_⟩) hd
    · rintro rfl
      rw [hnames.1] at hs
      cases hs
    · rintro rfl
      rw [hnames.2] at hs
      cases hs

/-- The C++ text of whatever is obtained denotes its value wherever that is defined, if no symbol
is called like a constant of C++. -/
theorem toCpp_denotes_value {e : Expr ExactDecimal} (he : Obtained e)
    (hnames : e.contains "M_PI" = false ∧ e.contains "M_E" = false)
    (hfree : LimitFree fun limit => @toCpp ExactDecimal (ExactDecimal.numeral limit) e) :
    ∃ (cpp : String) (f : Formula), e.toCpp = .ok cpp ∧ f.SpelledBy cpp ∧
      ∀ ρ, e.Defined ρ → f.denote (.cpp ρ) = some (e.value ρ) := by
  have hlimit : 10 ^ 15 ≤ 10 ^ 15 := le_rfl
  obtain ⟨cpp, f, hcpp, hspelled, hvalue⟩ := @toCpp_denotes ExactDecimal
    (ExactDecimal.exactNumeral hlimit) (ExactDecimal.spelledNumeral hlimit) (fun _ => rfl) e
    he.formed hnames
  exact ⟨cpp, f, hfree.eq_exact.trans hcpp, hspelled, hvalue⟩

/-- A derivative with a square root and a power below the line, under the assignment of ones. -/
theorem toCpp_denotes_value_derivative :
    ∃ e : Expr ExactDecimal, parse ⟨["x", "y"]⟩ "2.5*x - 3*pi/sqrt(y)*x**-2" = .ok e ∧
      (derivative "x" e).toCpp = .ok "2.5 + 6*M_PI/(sqrt(y)*pow(x, 3))" ∧
      ∃ f : Formula, f.SpelledBy "2.5 + 6*M_PI/(sqrt(y)*pow(x, 3))" ∧
        f.denote (.cpp fun _ => some 1) = some (5 / 2 + 6 * Real.pi) := by
  let e : Expr ExactDecimal := sum [product [number ⟨25, -1⟩, symbol "x"],
    product [number ⟨-3, 0⟩, constant .pi, power (symbol "y") (number ⟨-5, -1⟩),
      power (symbol "x") (number ⟨-2, 0⟩)]]
  let e' : Expr ExactDecimal := sum [number ⟨25, -1⟩, product [number ⟨6, 0⟩, constant .pi,
    power (symbol "y") (number ⟨-5, -1⟩), power (symbol "x") (number ⟨-3, 0⟩)]]
  have hparse : parse ⟨["x", "y"]⟩ "2.5*x - 3*pi/sqrt(y)*x**-2" = .ok e := by cbv
  have hderivative : derivative "x" e = e' := by cbv
  have htext (limit : ℕ) : @toCpp ExactDecimal (ExactDecimal.numeral limit) e' =
      .ok "2.5 + 6*M_PI/(sqrt(y)*pow(x, 3))" := by cbv
  have hd : e'.Defined fun _ => some 1 := by
    have hpower (w : ℝ) : PowerDefined 1 w := .of_pos one_pos w
    simp [e', hpower]
  have hvalue : e'.value (fun _ => some 1) = 5 / 2 + 6 * Real.pi := by
    simp [e', ExactDecimal.toReal_eq, Constant.real]
    norm_num
  obtain ⟨cpp, f, hcpp, hspelled, hdenote⟩ := toCpp_denotes_value (e := derivative "x" e)
    (.derivative "x" (.parse hparse)) (by rw [hderivative]; decide)
    (.of_eq _ fun limit _ => by rw [hderivative]; exact htext limit)
  rw [hderivative] at hcpp hdenote
  obtain rfl := Except.ok.inj (hcpp.symm.trans (htext _))
  exact ⟨e, hparse, by rw [hderivative]; exact hcpp, f, hspelled, by rw [hdenote _ hd, hvalue]⟩

/-- A symbol that is called like a constant is written like it, so the text denotes another
number. -/
theorem toCpp_captures_symbol :
    ∃ e : Expr ExactDecimal, parse ⟨["M_PI"]⟩ "M_PI*pi" = .ok e ∧
      (∀ limit, @toCpp ExactDecimal (ExactDecimal.numeral limit) e = .ok "M_PI*M_PI") ∧
      ∃ ρ, e.Defined ρ ∧ ∀ f : Formula, f.SpelledBy "M_PI*M_PI" →
        f.denote (.cpp ρ) ≠ some (e.value ρ) := by
  let e : Expr ExactDecimal := product [symbol "M_PI", constant .pi]
  have hcpp (limit : ℕ) : @toCpp ExactDecimal (ExactDecimal.numeral limit) e =
      .ok "M_PI*M_PI" := by cbv
  have hread : Formula.read "M_PI*M_PI" = .ok (.product (.name "M_PI") (.name "M_PI")) := by cbv
  refine ⟨e, by cbv, hcpp, fun _ => some 0, by simp [e], fun f hf => ?_⟩
  obtain rfl := Except.ok.inj (hread.symm.trans (Formula.read_eq_ok_iff.mpr hf))
  simp [e, Formula.denote, Interpretation.cpp, Real.pi_ne_zero]

end Expr

end EquationCompiler
