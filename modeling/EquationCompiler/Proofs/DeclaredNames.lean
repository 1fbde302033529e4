import EquationCompiler.Proofs.NamedExpression
import EquationCompiler.Proofs.Shadowing

/-!
# Names that a record declares

Parameters and substitutions have names of letters, digits and underscores. In an
expression a name does not start with a digit. There a declared name that does is a
number, or a number with a name after it, whatever the vocabulary has in it.
-/
namespace EquationCompiler

/-- The names of the parameters and of the substitutions. -/
def Record.declared (r : Record) : List String := r.parameters ++ r.substitutions.map (·.name)

namespace Token
variable {cs literal rest : List Char}

lemma takeNumber?_of_isDigit {c : Char} (hc : c.isDigit = true) (cs : List Char) :
    ∃ literal rest, takeNumber? (c :: cs) = some (literal, rest) := by
  have hmantissa : (takeMantissa? (c :: cs)).isSome = true := by
    unfold takeMantissa?
    rw [List.takeWhile_cons_of_pos hc]
    split <;> simp
  obtain ⟨⟨mantissa, tail⟩, hmantissa⟩ := Option.isSome_iff_exists.mp hmantissa
  exact ⟨_, _, by rw [takeNumber?, hmantissa]; rfl⟩

lemma isNameStart_of_not_isDigit {c : Char} (hc : isNameChar c = true)
    (hdigit : ¬c.isDigit = true) : isNameStart c = true := by
  simpa [isNameChar, isNameStart, Char.isAlphanum, hdigit] using hc

/-- Characters of names that are no name are a number, or a number and a name. -/
theorem exists_number_of_not_isName (hcs : Record.isName cs = true) (hname : ¬IsName cs) :
    ∃ literal rest, cs = literal ++ rest ∧ Longest NumberShape literal rest ∧
      (rest = [] ∨ IsName rest) := by
  obtain ⟨hne, hchars⟩ := Record.isName_iff.mp hcs
  obtain ⟨c, more, rfl⟩ := List.exists_cons_of_ne_nil hne
  have hdigit : c.isDigit = true := by
    by_contra hdigit
    rw [List.forall_mem_cons] at hchars
    exact hname ⟨isNameStart_of_not_isDigit hchars.1 hdigit, hchars.2⟩
  obtain ⟨literal, rest, htake⟩ := takeNumber?_of_isDigit hdigit more
  obtain ⟨htext, hlongest⟩ := takeNumber?_eq_some_iff.mp htake
  refine ⟨literal, rest, htext, hlongest, ?_⟩
  cases rest with
  | nil => exact .inl rfl
  | cons d rest =>
    have hrest : ∀ e ∈ d :: rest, isNameChar e = true := fun e he =>
      hchars e (htext ▸ List.mem_append_right _ he)
    rw [List.forall_mem_cons] at hrest
    refine .inr ⟨isNameStart_of_not_isDigit hrest.1 fun hd => ?_, hrest.2⟩
    exact absurd (hlongest.2 [d] ⟨rest, rfl⟩ (hlongest.1.snoc_digit hd)) (by simp)

lemma scan_lexeme {t : Token} (h : Lexeme cs rest t) (hstar : t ≠ star) :
    scan (cs ++ rest) = (t, cs ++ rest) :: scan rest := by
  obtain ⟨c, more, rfl, hblank, htake⟩ := h.take_eq fun ht => absurd ht hstar
  rw [List.cons_append, scan_cons hblank, htake]

end Token

namespace Formula
variable {literal rest : List Char}

/-- No formula goes on with a name after a number. -/
lemma read_number_name (hnumber : Token.Longest Token.NumberShape literal rest)
    (hname : Token.IsName rest) :
    read (String.ofList (literal ++ rest)) =
      .error (.unreadable .operatorOrEnd (literal.length + 1)) := by
  have hlongest : Token.Longest Token.IsName rest [] :=
    ⟨hname, fun more hmore _ => List.prefix_nil.mp hmore⟩
  have hrest : Token.scan rest = [(.name (String.ofList rest), rest)] := by
    have hscan := Token.scan_lexeme (.name hlongest) (by simp)
    rwa [List.append_nil] at hscan
  have hscan : Token.scan (literal ++ rest) =
      [(.number (String.ofList literal), literal ++ rest), (.name (String.ofList rest), rest)] := by
    rw [Token.scan_lexeme (.number hnumber) (by simp), hrest]
  have hstop (l r : String) :
      ofTokens [.number l, .name r] = .error ⟨.operatorOrEnd, [.name r]⟩ := rfl
  have hline : literal.reverse.takeWhile (· ≠ '\n') = literal.reverse := by
    rw [List.takeWhile_eq_self_iff]
    intro c hc
    have hchar := hnumber.1.isFormulaChar c (List.mem_reverse.mp hc)
    refine decide_eq_true fun hc => ?_
    subst hc
    exact absurd hchar (by decide)
  have hcolumn : columnOf (literal ++ rest) rest.length = literal.length + 1 := by
    rw [columnOf, List.length_append, Nat.add_sub_cancel, List.take_left, hline,
      List.length_reverse]
  rw [read_eq_descend, descend, String.toList_ofList, Token.tokens, hscan]
  simp [hstop, leftAt, hscan, hcolumn]

end Formula

namespace Expr
variable {α : Type} [Numeral α] {v : Vocabulary} {name : String}

/-- What is read where a name starts with a digit does not depend on the vocabulary. -/
theorem parse_digits (hchars : Record.isName name.toList = true)
    (hname : ¬Token.IsName name.toList) :
    ∃ literal rest, name.toList = literal ++ rest ∧
      Token.Longest Token.NumberShape literal rest ∧
      (parse v name : Except ExprFault (Expr α)) =
        if rest = [] then
          match Formula.literalValue? name with
          | some x => .ok (number x)
          | none => .error (.invalidNumber name)
        else .error (.unreadable .operatorOrEnd (literal.length + 1)) := by
  obtain ⟨literal, rest, htext, hlongest, hrest⟩ :=
    Token.exists_number_of_not_isName hchars hname
  refine ⟨literal, rest, htext, hlongest, ?_⟩
  have hspelled : name = String.ofList (literal ++ rest) := by
    rw [← htext, String.ofList_toList]
  by_cases hempty : rest = []
  · subst hempty
    rw [List.append_nil] at hspelled
    have hread := Formula.read_lexeme (.number hlongest) (.number _)
    rw [← hspelled] at hread
    rw [if_pos rfl, parse, hread]
    rfl
  · have hread := Formula.read_number_name hlongest (hrest.resolve_left hempty)
    rw [← hspelled] at hread
    rw [if_neg hempty, parse, hread]
    rfl

/-- A declared name is read as its symbol if it does not start with a digit. Otherwise it is read as
a number or not at all. In no text that is read under the declared names is one of them a constant
or a function. -/
theorem parse_declared {raw text : List Char} (hline : Line.classify raw = .record text) {n : ℕ}
    {r : Record} (hr : Record.split n text = .ok r) (hname : name ∈ r.declared) :
    (parse (.ofList r.declared) name = .ok (symbol name : Expr α) ↔
        Token.IsName name.toList) ∧
      (¬Token.IsName name.toList → ∃ literal rest, name.toList = literal ++ rest ∧
        Token.Longest Token.NumberShape literal rest ∧
        (parse (.ofList r.declared) name : Except ExprFault (Expr α)) =
          if rest = [] then
            match Formula.literalValue? name with
            | some x => .ok (number x)
            | none => .error (.invalidNumber name)
          else .error (.unreadable .operatorOrEnd (literal.length + 1))) ∧
      ∀ other (e : Expr α), parse (.ofList r.declared) other = .ok e →
        (e.OnlyConstants fun c => c.name ≠ name) ∧ e.OnlyApplies fun f => f.name ≠ name := by
  have hwritable := Record.writable_of_split hline hr
  have hchars : Record.isName name.toList = true := by
    rcases List.mem_append.mp hname with hname | hname
    · exact hwritable.parameters name hname
    · obtain ⟨s, hs, rfl⟩ := List.mem_map.mp hname
      exact (hwritable.substitutions s hs).name
  have hcontains : (Vocabulary.ofList r.declared).contains name = true := by simpa using hname
  have hshadowed {other : String} (h : (Vocabulary.ofList r.declared).contains other = false) :
      other ≠ name := by
    rintro rfl
    simp [hcontains] at h
  refine ⟨⟨fun hparse => ?_, fun h => Equation.parse_name hcontains (Formula.read_name h)⟩,
    parse_digits hchars, fun other e he => ⟨(onlyConstants_parse he).mono fun c => hshadowed,
      (onlyApplies_parse he).mono fun f => hshadowed⟩⟩
  by_contra hdigits
  obtain ⟨literal, rest, -, -, hother⟩ := parse_digits (α := α) hchars hdigits
  rw [hparse] at hother
  split_ifs at hother
  split at hother <;> cases hother

/-- All three names are declared, but only the first one is ever meant. -/
theorem parse_declared_digits :
    Line.classify "f(x, 2) [2x = 2*x] = x + 2".toList =
        .record "f(x, 2) [2x = 2*x] = x + 2".toList ∧
      Record.split 1 "f(x, 2) [2x = 2*x] = x + 2".toList =
        .ok ⟨1, "f", ["x", "2"], [⟨"2x", "2*x"⟩], "x + 2"⟩ ∧
      ∃ x : Float, parse (.ofList ["x", "2", "2x"]) "x" = .ok (symbol "x" : Expr Float) ∧
        parse (.ofList ["x", "2", "2x"]) "2" = .ok (number x) ∧
        parse (.ofList ["x", "2", "2x"]) "2x" =
          (.error (.unreadable .operatorOrEnd 2) : Except ExprFault (Expr Float)) := by
  have hline : Line.classify "f(x, 2) [2x = 2*x] = x + 2".toList =
      .record "f(x, 2) [2x = 2*x] = x + 2".toList := by decide
  have hr : Record.split 1 "f(x, 2) [2x = 2*x] = x + 2".toList =
      .ok ⟨1, "f", ["x", "2"], [⟨"2x", "2*x"⟩], "x + 2"⟩ := by decide
  have hx := (parse_declared (α := Float) hline hr
    (show "x" ∈ Record.declared _ by decide)).1.mpr (by decide)
  obtain ⟨two, rest, htwo, hlongest, hnumber⟩ :=
    (parse_declared (α := Float) hline hr
      (show "2" ∈ Record.declared _ by decide)).2.1 (by decide)
  obtain ⟨factor, rest', htimes, hlongest', hrefused⟩ :=
    (parse_declared (α := Float) hline hr
      (show "2x" ∈ Record.declared _ by decide)).2.1 (by decide)
  -- the longest number at the start is the one that is taken
  cases Token.takeNumber?_eq_some_iff.mpr ⟨htwo, hlongest⟩
  cases Token.takeNumber?_eq_some_iff.mpr ⟨htimes, hlongest'⟩
  have hvalue : (Formula.literalValue? "2" : Option Float).isSome = true := by decide +kernel
  obtain ⟨x, hvalue⟩ := Option.isSome_iff_exists.mp hvalue
  rw [if_pos rfl, hvalue] at hnumber
  exact ⟨hline, hr, x, hx, hnumber, hrefused⟩

end Expr

end EquationCompiler
