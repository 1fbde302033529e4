import EquationCompiler.Number.Machine
import EquationCompiler.Proofs.BestEffort
import EquationCompiler.Proofs.ParseLanguage
import EquationCompiler.Proofs.RecordRoundTrip

/-!
# Naming an expression

Instead of an expression a record may have a name for it, with the expression as
the text of the only substitution. The equation is the same, unless the text has
a comma. A comma ends the substitution, and the line no longer has the shape of a
record.
-/
namespace EquationCompiler

open Text (Padded)

namespace Token
variable {cs : List Char}

/-- The characters that tokens are spelled with, and blanks. -/
def IsFormulaChar (c : Char) : Prop :=
  isNameChar c = true ∨ c ∈ [' ', '\t', '.', '+', '-', '*', '/', '^', '(', ')', ',']

instance : DecidablePred IsFormulaChar := fun _ => inferInstanceAs (Decidable (_ ∨ _))

lemma isFormulaChar_of_isDigit {c : Char} (h : c.isDigit = true) : IsFormulaChar c :=
  .inl (by simp [isNameChar, Char.isAlphanum, h])

lemma NumberShape.isFormulaChar (h : NumberShape cs) : ∀ c ∈ cs, IsFormulaChar c := by
  obtain ⟨mantissa, exponent, hmantissa, hexponent, rfl⟩ := h
  intro c hc
  rcases List.mem_append.mp hc with hc | hc
  · rcases hmantissa.mem c hc with hc | rfl
    · exact isFormulaChar_of_isDigit hc
    · decide
  · rcases hexponent with rfl | ⟨mark, sign, digits, hmark, hsign, hdigits, rfl⟩
    · cases hc
    · rcases List.mem_cons.mp hc with rfl | hc
      · rcases hmark with rfl | rfl <;> decide
      · rcases List.mem_append.mp hc with hc | hc
        · rcases hsign with rfl | rfl | rfl
          · cases hc
          all_goals
            rw [List.mem_singleton] at hc
            subst hc
            decide
        · exact isFormulaChar_of_isDigit (hdigits.2 c hc)

lemma IsName.isNameChar (h : IsName cs) : ∀ c ∈ cs, isNameChar c = true := by
  cases cs with
  | nil => cases h
  | cons first rest => exact List.forall_mem_cons.mpr ⟨isNameChar_of_isNameStart h.1, h.2⟩

lemma Lexeme.isFormulaChar {rest : List Char} {t : Token} (h : Lexeme cs rest t) :
    ∀ c ∈ cs, IsFormulaChar c := by
  cases h with
  | number h => exact h.1.isFormulaChar
  | name h => exact fun c hc => .inl (h.1.isNameChar c hc)
  | operator h => cases h <;> simp [IsFormulaChar]

theorem Cuts.isFormulaChar {ts : List Token} (h : Cuts cs ts) : ∀ c ∈ cs, IsFormulaChar c := by
  induction h with
  | nil => exact nofun
  | blank hblank _ ih =>
    refine List.forall_mem_cons.mpr ⟨?_, ih⟩
    simp only [isBlank, Bool.or_eq_true, decide_eq_true_eq] at hblank
    rcases hblank with rfl | rfl <;> decide
  | lexeme hlexeme _ ih =>
    intro c hc
    exact (List.mem_append.mp hc).elim (hlexeme.isFormulaChar c) (ih c)

lemma IsName.isName (h : IsName cs) : Record.isName cs = true := by
  refine Record.isName_iff.mpr ⟨?_, h.isNameChar⟩
  rintro rfl
  cases h

end Token

namespace Formula

/-- A token that is an operand is a formula. -/
lemma read_lexeme {cs : List Char} {t : Token} {f : Formula} (h : Token.Lexeme cs [] t)
    (hf : IsOperand [t] f) : read (String.ofList cs) = .ok f := by
  have hcuts := Token.Cuts.lexeme h .nil
  rw [List.append_nil] at hcuts
  refine read_eq_ok_iff.mpr ⟨_, ?_, .mk (.mk (.power (.operand hf)) (.nil _)) (.nil _)⟩
  rwa [String.toList_ofList]

/-- A name spells itself. -/
theorem read_name {name : String} (h : Token.IsName name.toList) :
    read name = .ok (.name name) := by
  have hlongest : Token.Longest Token.IsName name.toList [] :=
    ⟨h, fun more hmore _ => List.prefix_nil.mp hmore⟩
  have hlexeme := Token.Lexeme.name hlongest
  rw [String.ofList_toList] at hlexeme
  simpa using read_lexeme hlexeme (.name name)

end Formula

namespace Equation
variable {α : Type} [Numeral α] {n : ℕ} {function : String} {parameters : List String}
  {text : String} {e : Equation α}

/-- A record without substitutions gives the expression that its text denotes. -/
lemma resolve_plain (h : resolve ⟨n, function, parameters, [], text⟩ = .ok e) :
    Expr.parse (Vocabulary.ofList parameters) text = .ok e.expression ∧
      e.expression.nonFinite? = none ∧
      e = ⟨n, function, parameters, [], e.expression⟩ := by
  obtain ⟨expression, done, hparse, hrun, hfinite, rfl⟩ := resolve_inv h
  cases hrun
  rw [List.map_nil, List.append_nil] at hparse
  exact ⟨hparse, hfinite, rfl⟩

/-- The equation is the same if the expression has a name. -/
theorem resolve_named (h : resolve ⟨n, function, parameters, [], text⟩ = .ok e) {name : String}
    (hname : Token.IsName name.toList) :
    resolve ⟨n, function, parameters, [⟨name, text⟩], name⟩ =
      .ok { e with substitutions := [⟨name, text⟩] } := by
  obtain ⟨hparse, hfinite, he⟩ := resolve_plain h
  have hsymbol : Expr.parse (Vocabulary.ofList (parameters ++ [name])) name =
      .ok (.symbol name : Expr α) := parse_name (by simp) (Formula.read_name hname)
  rw [he]
  simp [resolve, compile, Progress.step, hsymbol, hparse, hfinite, substituteAll, Expr.substitute,
    bind, Except.bind, pure, Except.pure]

end Equation

namespace Shape
variable {cs : List Char}

/-- There is no substitution without an equals sign. -/
lemma substitution?_of_not_mem (h : '=' ∉ cs) : substitution? cs = none := by
  cases htake : takeName? cs with
  | none => rw [substitution?, htake]; rfl
  | some taken =>
    have hrest : taken.2 <:+ cs := by
      rw [takeName?] at htake
      split_ifs at htake
      cases htake
      exact (List.dropWhile_suffix _).trans (List.dropWhile_suffix _)
    have hexpect : expect? '=' taken.2 = none := by
      rw [expect?]
      split
      · next d rest hskip =>
        refine if_neg fun hd => h (hrest.mem ((List.dropWhile_suffix isBlank).mem ?_))
        rw [skipBlanks] at hskip
        rw [hskip, hd]
        exact List.mem_cons_self
      · rfl
    rw [substitution?, htake]
    simp [hexpect]

/-- A comma ends a substitution, and what comes after it is another one. -/
lemma takeBlock?_of_comma {gap name text : List Char} (hgap : ∀ c ∈ gap, isBlank c = true)
    (hname : ∀ c ∈ name, isNameChar c = true) (hclosing : ']' ∉ text) (hequals : '=' ∉ text)
    (hcomma : ',' ∈ text) (rest : List Char) :
    takeBlock? (gap ++ '[' :: (name ++ " = ".toList ++ text ++ ']' :: rest)) = none := by
  obtain ⟨before, after, rfl, hbefore⟩ := List.eq_append_cons_of_mem hcomma
  have hseparator {c : Char} (hc : isNameChar c = false) (hne : c ∉ " = ".toList) :
      c ∉ name ++ " = ".toList := by
    rw [List.mem_append, not_or]
    exact ⟨fun hmem => by simp [hname c hmem] at hc, hne⟩
  have hpieces : Text.pieces ',' (name ++ " = ".toList ++ (before ++ ',' :: after)) =
      (name ++ " = ".toList ++ before) :: Text.pieces ',' after := by
    rw [← List.append_assoc]
    refine Text.pieces_append_cons ?_ after
    rw [List.mem_append, not_or]
    exact ⟨hseparator (by decide) (by decide), hbefore⟩
  have hcut : ']' ∉ name ++ " = ".toList ++ (before ++ ',' :: after) := by
    rw [List.mem_append, not_or]
    exact ⟨hseparator (by decide) (by decide), hclosing⟩
  -- The first piece after the comma has no equals sign.
  obtain ⟨piece, more, hmore⟩ := List.exists_cons_of_ne_nil (Text.pieces_ne_nil ',' after)
  have hpiece : piece ∈ Text.pieces ',' after := hmore ▸ List.mem_cons_self
  have hnone : substitution? piece = none := by
    refine substitution?_of_not_mem fun hmem => hequals ?_
    exact List.mem_append_right _ (List.mem_cons_of_mem _ (Text.mem_of_mem_pieces hpiece hmem))
  rw [takeBlock?, expect?_append hgap (by decide)]
  simp only [Option.bind_eq_bind, Text.cut?_append_cons _ hcut, Option.bind_some, hpieces,
    mapM_eq_none (List.mem_cons_of_mem _ hpiece) hnone, Option.bind_none]

end Shape

namespace Record

/-- The record with the expression as it is. -/
def plain (head text : List Char) : List Char := head ++ " = ".toList ++ text

/-- The record with a name for the expression. -/
def named (head name text : List Char) : List Char :=
  head ++ " [".toList ++ name ++ " = ".toList ++ text ++ "] = ".toList ++ name

variable {function : String} {parameters : List String} {head : List Char}

lemma writesSubstitution_trim (name text : List Char) :
    WritesSubstitution ⟨String.ofList name, String.ofList (Text.trim text)⟩
      (name ++ [' '] ++ '=' :: ([' '] ++ text)) := by
  refine ⟨name ++ [' '], [' '] ++ text, ?_, ?_, rfl⟩
  · rw [String.toList_ofList]
    exact (Padded.refl _ _).append_right Shape.isBlank_space
  · rw [String.toList_ofList]
    exact (Text.padded_trim text).append_left fun c hc =>
      Shape.isBlank_text (Shape.isBlank_space c hc)

/-- A head has no characters but those of names, blanks and its separators. -/
lemma not_mem_of_writesHead (hfunction : isName function.toList = true)
    (hparameters : ∀ p ∈ parameters, isName p.toList = true)
    (hhead : WritesHead function parameters head) {c : Char} (hc : Shape.isNameChar c = false)
    (hblank : Shape.isBlank c = false) (hseparator : c ∉ ['(', ',', ')']) : c ∉ head := by
  obtain ⟨first, texts, hfirst, htexts, rfl⟩ := hhead
  simp only [List.mem_cons, List.not_mem_nil, or_false, not_or] at hseparator
  have hname : c ∉ first := not_mem_of_padded hfunction hfirst hc hblank
  have hnames : c ∉ [','].intercalate texts := Text.not_mem_intercalate
    (not_mem_parameters hparameters htexts hc hblank) hseparator.2.1
  simp [hname, hnames, hseparator]

lemma no_comment_of_writesHead (hfunction : isName function.toList = true)
    (hparameters : ∀ p ∈ parameters, isName p.toList = true)
    (hhead : WritesHead function parameters head) : '#' ∉ head :=
  not_mem_of_writesHead hfunction hparameters hhead (by decide) (by decide) (by decide)

/-- Without a parameter a line is no record. -/
lemma parameters_ne_nil_of_classify (hfunction : isName function.toList = true)
    (hhead : WritesHead function parameters head) {rest raw text : List Char}
    (hraw : Comment.strip raw = head ++ rest) (h : Line.classify raw = .record text) :
    parameters ≠ [] := by
  rintro rfl
  obtain ⟨trimmed, ⟨first, texts, hfirst, htexts, rfl⟩, htrim⟩ :=
    hhead.exists_trim hfunction rest
  cases htexts
  obtain ⟨rfl, hshape⟩ := Line.shape_of_classify h
  obtain ⟨gap, hgap, htake⟩ := Shape.takeName?_of_padded hfunction hfirst
    ('(' :: ')' :: Text.trimEnd rest) (by rintro _ ⟨⟩; decide)
  have hopening := Shape.expect?_append hgap (show Shape.isBlank '(' = false by decide)
    (')' :: Text.trimEnd rest)
  have hline : first ++ '(' :: ([','].intercalate [] ++ [')']) ++ Text.trimEnd rest =
      first ++ '(' :: ')' :: Text.trimEnd rest := by simp [List.intercalate]
  rw [hraw, htrim, hline, Shape.ofText?, htake] at hshape
  simp [hopening, Text.cut?, Text.pieces, Shape.parameter?, Shape.takeName?, Shape.skipBlanks]
    at hshape

/-- Before a blank expression a line is no record. -/
lemma expression_ne_nil_of_classify {subs : List Substitution} {block expression : List Char}
    (hfront : Front function parameters subs head block) {raw text : List Char}
    (hraw : Comment.strip raw = head ++ (block ++ '=' :: expression))
    (h : Line.classify raw = .record text) : Text.trim expression ≠ [] := by
  intro hblank
  obtain ⟨trimmed, htrimmed, htrim⟩ := hfront.exists_trim expression
  obtain ⟨rfl, hshape⟩ := Line.shape_of_classify h
  rw [hraw, htrim, Shape.isSome_ofText? htrimmed,
    Text.trimEnd_of_blank (Text.blank_of_trim_eq_nil hblank)] at hshape
  cases hshape

variable {α : Type} [Numeral α]

/-- The text of a resolved expression has no characters but those of formulas and blanks. -/
lemma not_mem_of_resolve {n : ℕ} {text : List Char} {e : Equation α}
    (h : Equation.resolve ⟨n, function, parameters, [], String.ofList (Text.trim text)⟩ = .ok e)
    {c : Char} (hc : ¬Token.IsFormulaChar c) (hblank : Text.isBlank c = false) : c ∉ text := by
  obtain ⟨hparse, -, -⟩ := Equation.resolve_plain h
  obtain ⟨f, hread, -⟩ := Formula.bind_eq_ok.mp hparse
  obtain ⟨ts, hcuts, -⟩ := Formula.read_eq_ok_iff.mp hread
  rw [String.toList_ofList] at hcuts
  exact (Text.padded_trim text).not_mem (fun hmem => hc (hcuts.isFormulaChar c hmem)) hblank

section
variable (hfunction : isName function.toList = true)
  (hparameters : ∀ p ∈ parameters, isName p.toList = true)
  (hhead : WritesHead function parameters head) {text : List Char} (hcomment : '#' ∉ text)
include hfunction hparameters hhead hcomment

/-- What is known about an expression that stands in a record as it is. -/
lemma plain_inv (hnodup : parameters.Nodup) {n : ℕ} {line : List Char} {e : Equation α}
    (hline : Line.classify (plain head text) = .record line) (he : Entry.ofRecord n line = .ok e) :
    parameters ≠ [] ∧ Text.trim text ≠ [] ∧
      Equation.resolve ⟨n, function, parameters, [], String.ofList (Text.trim text)⟩ = .ok e := by
  have hwritten : plain head text = head ++ ([' '] ++ '=' :: ([' '] ++ text)) := by simp [plain]
  have hstrip : Comment.strip (plain head text) = head ++ ([' '] ++ '=' :: ([' '] ++ text)) := by
    rw [hwritten]
    refine Comment.strip_of_not_mem ?_
    simp [no_comment_of_writesHead hfunction hparameters hhead, hcomment]
  have hne := parameters_ne_nil_of_classify hfunction hhead hstrip hline
  have hfront : Front function parameters [] head [' '] :=
    ⟨hfunction, hne, hparameters, nofun, hhead, .missing Shape.isBlank_space⟩
  have htrim := Shape.trim_append Shape.isBlank_space text
  have htext := expression_ne_nil_of_classify hfront hstrip hline
  obtain ⟨rfl, -⟩ := Line.shape_of_classify hline
  rw [hstrip, Entry.ofRecord, split_trim_of_front hfront hnodup n htext, htrim] at he
  exact ⟨hne, htrim ▸ htext, he⟩

variable {name : List Char} (hname : isName name = true)
include hname

lemma strip_named : Comment.strip (named head name text) = named head name text := by
  have hchars : '#' ∉ name :=
    not_mem_of_padded hname (.refl _ _) (by decide) (by decide)
  refine Comment.strip_of_not_mem ?_
  simp [named, no_comment_of_writesHead hfunction hparameters hhead, hcomment, hchars]

/-- Without a comma the expression is the text of a substitution. -/
lemma split_named (hne : parameters ≠ []) (hnodup : parameters.Nodup) (htext : Text.trim text ≠ [])
    (hcomma : ',' ∉ text) (hopening : '[' ∉ text) (hclosing : ']' ∉ text) (n : ℕ) :
    ∃ line, Line.classify (named head name text) = .record line ∧
      split n line = .ok ⟨n, function, parameters,
        [⟨String.ofList name, String.ofList (Text.trim text)⟩], String.ofList name⟩ := by
  have hwritable := writable_ofEntry hname htext hcomma hopening hclosing
  have hfront : Front function parameters [⟨String.ofList name, String.ofList (Text.trim text)⟩]
      head _ :=
    ⟨hfunction, hne, hparameters, List.forall_mem_singleton.mpr hwritable, hhead,
      .present (by simp) Shape.isBlank_space Shape.isBlank_space
        (.cons (writesSubstitution_trim name text) .nil)⟩
  have htrim : Text.trim ([' '] ++ name) = name :=
    trim_of_padded hname ((Padded.refl _ _).append_left Shape.isBlank_space)
  have hexpression : Text.trim ([' '] ++ name) ≠ [] := by
    rw [htrim]
    exact (isName_iff.mp hname).1
  have hstrip := strip_named hfunction hparameters hhead hcomment hname
  refine ⟨_, classify_of_front hfront hexpression ?_, ?_⟩
  · rw [hstrip]
    simp [named, List.intercalate]
  · rw [split_trim_of_front hfront hnodup n hexpression, htrim]

/-- With a comma in the expression the line has not the shape of a record. -/
lemma classify_named_of_comma (hne : parameters ≠ []) (hclosing : ']' ∉ text) (hequals : '=' ∉ text)
    (hcomma : ',' ∈ text) : ∃ line, Line.classify (named head name text) = .skipped line := by
  have hstrip := strip_named hfunction hparameters hhead hcomment hname
  obtain ⟨trimmed, htrimmed, htrim⟩ := hhead.exists_trim hfunction
    ([' '] ++ '[' :: (name ++ " = ".toList ++ text) ++ ']' :: (" = ".toList ++ name))
  rw [Text.trimEnd_append_cons (by decide)] at htrim
  have hblock := Shape.takeBlock?_of_comma Shape.isBlank_space (isName_iff.mp hname).2 hclosing
    hequals hcomma (Text.trimEnd (" = ".toList ++ name))
  have hshape := Shape.ofText?_of_writesHead hfunction hne hparameters htrimmed
    ([' '] ++ '[' :: (name ++ " = ".toList ++ text ++ ']' :: Text.trimEnd (" = ".toList ++ name)))
  rw [hblock, Option.bind_none] at hshape
  refine ⟨_, Line.classify_of_shape ?_ (by simp) hshape⟩
  rw [hstrip]
  simpa [named] using htrim

end

/-- Instead of an expression a record may have a name for it and the expression as the text of a
substitution, if it has no comma. A comma ends the substitution, and the line is skipped. -/
theorem named_expression (hfunction : isName function.toList = true)
    (hparameters : ∀ p ∈ parameters, isName p.toList = true) (hnodup : parameters.Nodup)
    (hhead : WritesHead function parameters head) {text : List Char} (hcomment : '#' ∉ text)
    {name : String} (hname : Token.IsName name.toList) {n : ℕ} {line : List Char} {e : Equation α}
    (hline : Line.classify (plain head text) = .record line) (he : Entry.ofRecord n line = .ok e) :
    (',' ∉ text → ∃ line', Line.classify (named head name.toList text) = .record line' ∧
      Entry.ofRecord n line' =
        .ok { e with substitutions := [⟨name, String.ofList (Text.trim text)⟩] }) ∧
    (',' ∈ text → ∃ line', Line.classify (named head name.toList text) = .skipped line') := by
  obtain ⟨hne, htext, hresolve⟩ := plain_inv hfunction hparameters hhead hcomment hnodup hline he
  have hopening : '[' ∉ text := not_mem_of_resolve hresolve (by decide) (by decide)
  have hclosing : ']' ∉ text := not_mem_of_resolve hresolve (by decide) (by decide)
  have hequals : '=' ∉ text := not_mem_of_resolve hresolve (by decide) (by decide)
  constructor
  · intro hcomma
    obtain ⟨line', hline', hsplit⟩ := split_named hfunction hparameters hhead hcomment
      hname.isName hne hnodup htext hcomma hopening hclosing n
    rw [String.ofList_toList] at hsplit
    refine ⟨line', hline', ?_⟩
    rw [Entry.ofRecord, hsplit]
    exact Equation.resolve_named hresolve hname
  · exact classify_named_of_comma hfunction hparameters hhead hcomment hname.isName hne hclosing
      hequals

theorem named_expression_sum :
    ∃ (line : List Char) (e : Equation Float),
      Line.classify "f(a, b) [s = 2*a + b] = s".toList = .record line ∧
        Entry.ofRecord 3 line = .ok e ∧ e.substitutions = [⟨"s", "2*a + b"⟩] := by
  have hhead : WritesHead "f" ["a", "b"] "f(a, b)".toList :=
    ⟨"f".toList, ["a".toList, " b".toList], .refl _ _,
      .cons (.refl _ _) (.cons ((Padded.refl _ _).append_left Shape.isBlank_space) .nil), rfl⟩
  have hname : Token.IsName "s".toList := by decide
  have hline : Line.classify (plain "f(a, b)".toList "2*a + b".toList) =
      .record "f(a, b) = 2*a + b".toList := by decide
  have hresolved : (Entry.ofRecord 3 "f(a, b) = 2*a + b".toList :
      Except Failure (Equation Float)).isOk = true := by decide +kernel
  rcases he : (Entry.ofRecord 3 "f(a, b) = 2*a + b".toList : Except Failure (Equation Float))
    with cause | e
  · rw [he] at hresolved
    cases hresolved
  · obtain ⟨line, hnamed, hrecord⟩ := (named_expression (by decide) (by decide) (by decide) hhead
      (by decide) hname hline he).1 (by decide)
    exact ⟨line, _, hnamed, hrecord, rfl⟩

/-- Arguments are separated by commas, so an application to two of them cannot have a name. -/
theorem named_expression_arguments :
    WritesHead "f" ["a", "b"] "f(a,b)".toList ∧ '#' ∉ "atan2(a,b)".toList ∧
      Token.IsName "x".toList ∧ "x" ∉ ["a", "b"] ∧
      .name "x" ∉ Token.tokens "atan2(a,b)".toList ∧
      Elementary.ofName? "x" = none ∧ Constant.ofName? "x" = none ∧
      (∃ (line : List Char) (e : Equation Float),
        Line.classify (plain "f(a,b)".toList "atan2(a,b)".toList) = .record line ∧
          Entry.ofRecord 1 line = .ok e) ∧
      ∀ line, Line.classify (named "f(a,b)".toList "x".toList "atan2(a,b)".toList) ≠
        .record line := by
  have hhead : WritesHead "f" ["a", "b"] "f(a,b)".toList :=
    ⟨"f".toList, ["a".toList, "b".toList], .refl _ _,
      .cons (.refl _ _) (.cons (.refl _ _) .nil), rfl⟩
  have hline : Line.classify (plain "f(a,b)".toList "atan2(a,b)".toList) =
      .record "f(a,b) = atan2(a,b)".toList := by decide
  have hskipped : Line.classify (named "f(a,b)".toList "x".toList "atan2(a,b)".toList) =
      .skipped "f(a,b) [x = atan2(a,b)] = x".toList := by decide
  have hresolved : (Entry.ofRecord 1 "f(a,b) = atan2(a,b)".toList :
      Except Failure (Equation Float)).isOk = true := by decide +kernel
  refine ⟨hhead, by decide, by decide, by decide, by decide, by decide, by decide, ?_, ?_⟩
  · rcases he : (Entry.ofRecord 1 "f(a,b) = atan2(a,b)".toList :
      Except Failure (Equation Float)) with cause | e
    · rw [he] at hresolved
      cases hresolved
    · exact ⟨_, e, hline, he⟩
  · rw [hskipped]
    exact nofun

end Record

end EquationCompiler
