import EquationCompiler.Proofs.ParserSteps
import EquationCompiler.Proofs.Spelling

/-!
# The rules at a token

What starts a text decides which of the rules without parts succeed there, and they
take exactly the token of the scanner. The others fail and are noted.
-/
namespace EquationCompiler

namespace Token

/-- The token at the start of a text without blanks before it, by its first character, and what
follows. -/
inductive Starts : Token → List Char → List Char → Prop
  | number {c : Char} {cs literal rest : List Char} (hc : c.isDigit = true ∨ c = '.')
      (h : takeNumber? (c :: cs) = some (literal, rest)) :
    Starts (number (String.ofList literal)) (c :: cs) rest
  | name {c : Char} {cs : List Char} (hc : isNameStart c = true) :
    Starts (name (String.ofList (c :: cs.takeWhile isNameChar))) (c :: cs)
      (cs.dropWhile isNameChar)
  | operator {c : Char} {t : Token} (hc : operator? c = some t) (rest : List Char) :
    Starts t (c :: rest) rest
  | star {rest : List Char} (h : rest.head? ≠ some '*') : Starts star ('*' :: rest) rest
  | stars (rest : List Char) : Starts power ('*' :: '*' :: rest) rest
  | caret (rest : List Char) : Starts power ('^' :: rest) rest
  | unknown {c : Char} {cs : List Char} (hnumber : takeNumber? (c :: cs) = none)
      (hname : isNameStart c = false) (hc : operator? c = none ∧ c ≠ '*' ∧ c ≠ '^') :
    Starts (unknown c) (c :: cs) cs

theorem starts_take (c : Char) (cs : List Char) :
    Starts (take c cs).1 (c :: cs) (take c cs).2 := by
  unfold take
  split
  · next literal rest hnumber =>
    refine .number ?_ hnumber
    by_contra hc
    rw [not_or] at hc
    rw [takeNumber?_eq_none hc.1 hc.2] at hnumber
    cases hnumber
  · next hnumber =>
    split_ifs with hname
    · exact .name hname
    · split
      case h_1 => exact .stars _
      case h_2 hstar =>
        refine .star fun hhead => ?_
        obtain ⟨more, rfl⟩ := List.head?_eq_some_iff.mp hhead
        exact hstar more rfl
      case h_3 => exact .caret _
      case h_10 =>
        refine .unknown hnumber (by simpa using hname) ⟨?_, ?_, ?_⟩
        · unfold operator?
          split <;> simp_all
        · rintro rfl
          simp_all
        · rintro rfl
          simp_all
      all_goals exact .operator rfl _

/-- A character that is an operator by itself is part of no number and no name. -/
lemma operator?_spec {d : Char} {u : Token} (hd : operator? d = some u) :
    (d.isDigit = false ∧ d ≠ '.') ∧ isNameStart d = false ∧ (d ≠ '*' ∧ d ≠ '^') ∧
      (∀ s, u ≠ number s) ∧ (∀ s, u ≠ name s) ∧ u ≠ star ∧ u ≠ power ∧ ∀ c, u ≠ unknown c := by
  unfold operator? at hd
  split at hd <;> cases hd <;> simp [isNameStart]

lemma operator?_injective {c d : Char} {u : Token} (hc : operator? c = some u)
    (hd : operator? d = some u) : c = d := by
  unfold operator? at hc hd
  split at hc <;> cases hc <;> split at hd <;> cases hd <;> rfl

lemma word_cons {s : String} {d : Char} (hs : s.toList = [d]) (c : Char) (cs : List Char) :
    Recognizer.word s (c :: cs) = if d = c then some cs else none := by
  simp [Recognizer.word, hs, List.isPrefixOf?]

namespace Starts
variable {t : Token} {x rest : List Char} (h : Starts t x rest)
include h

/-- The word of an operator is found at its token only. -/
lemma word_operator {s : String} {d : Char} {u : Token} (hs : s.toList = [d])
    (hd : operator? d = some u) :
    Recognizer.word s x = if t = u then some rest else none := by
  obtain ⟨⟨hdigit, hpoint⟩, hname, ⟨hstar, hcaret⟩, hnumbers, hnames, hustar, hupower, hunknown⟩ :=
    operator?_spec hd
  cases h with
  | @number c _ _ _ hc =>
    have hne : d ≠ c := by
      rintro rfl
      simp [hdigit, hpoint] at hc
    rw [word_cons hs, if_neg hne, if_neg fun h => hnumbers _ h.symm]
  | @name c _ hc =>
    have hne : d ≠ c := by
      rintro rfl
      simp [hname] at hc
    rw [word_cons hs, if_neg hne, if_neg fun h => hnames _ h.symm]
  | @operator c t hc =>
    rw [word_cons hs]
    by_cases hne : d = c
    · subst hne
      rw [if_pos rfl, if_pos (Option.some.inj (hc.symm.trans hd))]
    · rw [if_neg hne, if_neg]
      rintro rfl
      exact hne (operator?_injective hd hc)
  | star => rw [word_cons hs, if_neg hstar, if_neg hustar.symm]
  | stars => rw [word_cons hs, if_neg hstar, if_neg hupower.symm]
  | caret => rw [word_cons hs, if_neg hcaret, if_neg hupower.symm]
  | @unknown c _ _ _ hc =>
    have hne : d ≠ c := by
      rintro rfl
      simp [hc.1] at hd
    rw [word_cons hs, if_neg hne, if_neg fun h => hunknown _ h.symm]

/-- Two stars or a caret. -/
lemma word_power : (Recognizer.word "**").orElse (.word "^") x =
    if t = .power then some rest else none := by
  have hother {c : Char} (cs : List Char) (hstar : c ≠ '*') (hcaret : c ≠ '^') :
      (Recognizer.word "**").orElse (.word "^") (c :: cs) = none := by
    simp [Recognizer.orElse, Recognizer.word, List.isPrefixOf?, hstar.symm, hcaret.symm]
  cases h with
  | @number c _ _ _ hc =>
    rw [if_neg (by simp), hother]
    all_goals
      rintro rfl
      simp at hc
  | @name c _ hc =>
    rw [if_neg (by simp), hother]
    all_goals
      rintro rfl
      simp [isNameStart] at hc
  | operator hc =>
    obtain ⟨-, -, ⟨hstar, hcaret⟩, -, -, -, hpower, -⟩ := operator?_spec hc
    rw [if_neg hpower, hother _ hstar hcaret]
  | @star rest hrest =>
    cases rest with
    | nil => rfl
    | cons c rest =>
      have hc : c ≠ '*' := by simpa using hrest
      simp [Recognizer.orElse, Recognizer.word, List.isPrefixOf?, hc.symm]
  | stars | caret => simp [Recognizer.orElse, Recognizer.word, List.isPrefixOf?]
  | unknown _ _ hc => rw [if_neg (by simp), hother _ hc.2.1 hc.2.2]

/-- One star, where there are not two. -/
lemma word_star (ht : t ≠ .power) :
    Recognizer.word "*" x = if t = .star then some rest else none := by
  cases h with
  | @number c _ _ _ hc =>
    rw [word_cons (d := '*') rfl, if_neg, if_neg (by simp)]
    rintro rfl
    simp at hc
  | @name c _ hc =>
    rw [word_cons (d := '*') rfl, if_neg, if_neg (by simp)]
    rintro rfl
    simp [isNameStart] at hc
  | operator hc =>
    obtain ⟨-, -, ⟨hstar, -⟩, -, -, hustar, -⟩ := operator?_spec hc
    rw [word_cons (d := '*') rfl, if_neg hstar.symm, if_neg hustar]
  | star => rw [word_cons (d := '*') rfl, if_pos rfl, if_pos rfl]
  | stars | caret => exact absurd rfl ht
  | unknown _ _ hc => rw [word_cons (d := '*') rfl, if_neg hc.2.1.symm, if_neg (by simp)]

lemma takeNumber?_eq_none_of_ne (ht : ∀ literal, t ≠ .number literal) : takeNumber? x = none := by
  cases h with
  | number => exact absurd rfl (ht _)
  | name hc =>
    obtain ⟨-, hdigit, hpoint⟩ := isNameStart_spec hc
    exact takeNumber?_eq_none hdigit hpoint _
  | operator hc =>
    obtain ⟨⟨hdigit, hpoint⟩, -⟩ := operator?_spec hc
    exact takeNumber?_eq_none (by simp [hdigit]) hpoint _
  | star | stars | caret => exact takeNumber?_eq_none (by decide) (by decide) _
  | unknown h => exact h

lemma ident_eq_none (ht : ∀ s, t ≠ .name s) : Recognizer.ident x = none := by
  have hnone {c : Char} (cs : List Char) (hc : isNameStart c = false) :
      Recognizer.ident (c :: cs) = none := by
    simp [Recognizer.ident, Recognizer.andThen, Recognizer.one, hc]
  cases h with
  | @number c _ _ _ hc =>
    refine hnone _ (Bool.eq_false_iff.mpr fun hname => ?_)
    obtain ⟨-, hdigit, hpoint⟩ := isNameStart_spec hname
    exact hc.elim hdigit hpoint
  | name => exact absurd rfl (ht _)
  | operator hc => exact hnone _ (operator?_spec hc).2.1
  | star | stars | caret => exact hnone _ (by decide)
  | unknown _ hname => exact hnone _ hname

lemma length_lt : rest.length < x.length := by
  cases h with
  | number _ h =>
    obtain ⟨htext, hne⟩ := Token.takeNumber?_eq_some h
    rw [← htext, List.length_append]
    have := List.length_pos_of_ne_nil hne
    omega
  | @name c cs =>
    have := (List.dropWhile_suffix (l := cs) isNameChar).length_le
    simp only [List.length_cons]
    omega
  | stars => simp only [List.length_cons]; omega
  | operator | star | caret | unknown => simp only [List.length_cons]; omega

omit h in
lemma takeNumber?_eq_some {literal : String} (h : Starts (.number literal) x rest) :
    takeNumber? x = some (literal.toList, rest) := by
  generalize ht : Token.number literal = t at h
  cases h <;> cases ht
  case number => rwa [String.toList_ofList]
  case operator hc => exact absurd rfl ((operator?_spec hc).2.2.2.1 _)

omit h in
lemma ident_eq_some {s : String} (h : Starts (.name s) x rest) :
    Recognizer.ident x = some rest ∧ x = s.toList ++ rest := by
  generalize ht : Token.name s = t at h
  cases h <;> cases ht
  case name hc =>
    rw [String.toList_ofList]
    simp [Recognizer.ident, Recognizer.andThen, Recognizer.one, Recognizer.many, hc]
  case operator hc => exact absurd rfl ((operator?_spec hc).2.2.2.2.1 _)

end Starts

theorem scan_dropWhile (cs : List Char) : scan (cs.dropWhile isBlank) = scan cs := by
  induction cs with
  | nil => rfl
  | cons c cs ih =>
    by_cases hc : isBlank c = true
    · rw [List.dropWhile_cons_of_pos hc, ih, scan_cons_blank hc]
    · rw [List.dropWhile_cons_of_neg hc]

@[simp] lemma tokens_dropWhile (cs : List Char) : tokens (cs.dropWhile isBlank) = tokens cs := by
  rw [tokens, scan_dropWhile, tokens]

/-- A text without blanks before it is empty or starts with a token. -/
lemma Settled.cases {x : List Char} (h : Settled x) :
    x = [] ∨ ∃ t rest, Starts t x rest ∧ scan x = (t, x) :: scan rest := by
  cases x with
  | nil => exact .inl rfl
  | cons c cs =>
    have hc : isBlank c = false := by
      by_contra hc
      rw [Settled, List.dropWhile_cons_of_pos (by simpa using hc)] at h
      have := (List.dropWhile_suffix (l := cs) isBlank).length_le
      rw [h, List.length_cons] at this
      omega
    exact .inr ⟨_, _, starts_take c cs, scan_cons hc cs⟩

/-- What the next token of a text says about its start. -/
lemma Settled.starts {x : List Char} {t : Token} {ts : List Token} (h : Settled x)
    (ht : tokens x = t :: ts) : ∃ rest, Starts t x rest ∧ tokens rest = ts ∧
      scan x = (t, x) :: scan rest := by
  obtain rfl | ⟨u, rest, hstarts, hscan⟩ := h.cases
  · cases ht
  · rw [tokens, hscan, List.map_cons, List.cons.injEq] at ht
    obtain ⟨rfl, hts⟩ := ht
    exact ⟨rest, hstarts, hts, hscan⟩

/-- The word of an operator that is not the next token. -/
lemma Settled.word_eq_none {x : List Char} (h : Settled x) {s : String} {d : Char} {u : Token}
    (hs : s.toList = [d]) (hd : operator? d = some u) (hu : (tokens x).head? ≠ some u) :
    Recognizer.word s x = none := by
  obtain rfl | ⟨t, rest, hstarts, hscan⟩ := h.cases
  · simp [Recognizer.word, hs, List.isPrefixOf?]
  · rw [hstarts.word_operator hs hd, if_neg]
    rintro rfl
    simp [tokens, hscan] at hu

end Token

namespace Recognizer

lemma some_eq (p : Char → Bool) (cs : List Char) :
    some p cs = if (cs.takeWhile p).isEmpty then none else Option.some (cs.dropWhile p) := by
  cases cs with
  | nil => rfl
  | cons c cs => by_cases hc : p c = true <;> simp [some, andThen, one, many, hc]

lemma word_point (cs : List Char) :
    word "." cs = match cs with
      | '.' :: rest => Option.some rest
      | _ => none := by
  cases cs with
  | nil => rfl
  | cons c cs =>
    rw [Token.word_cons (s := ".") (d := '.') rfl]
    split_ifs with hc
    · subst hc
      rfl
    · split
      · next heq => exact absurd (List.cons.inj heq).1.symm hc
      · rfl

/-- The parts of a number are those of the scanner. -/
lemma mantissa_eq (cs : List Char) : mantissa cs = (Token.takeMantissa? cs).map Prod.snd := by
  have hcs := List.takeWhile_append_dropWhile (p := Char.isDigit) (l := cs)
  unfold mantissa orElse Token.takeMantissa? andThen
  rw [some_eq]
  by_cases hempty : (cs.takeWhile Char.isDigit).isEmpty = true
  · have hdrop : cs.dropWhile Char.isDigit = cs := by
      rwa [List.isEmpty_iff.mp hempty, List.nil_append] at hcs
    rw [if_pos hempty, hdrop, word_point]
    split
    · next rest =>
      simp only [hempty, Bool.true_and, Option.bind_some, Option.bind_none, Option.none_or, some_eq]
      split_ifs <;> rfl
    · simp [hempty]
  · rw [if_neg hempty]
    simp only [Option.bind_some, optional, word_point]
    split
    · next rest hdrop =>
      rw [hdrop]
      simp [hempty, many]
    · simp [hempty]

lemma sign_cases (cs : List Char) : (∃ rest, cs = '+' :: rest) ∨ (∃ rest, cs = '-' :: rest) ∨
    cs = [] ∨ ∃ c rest, cs = c :: rest ∧ c ≠ '+' ∧ c ≠ '-' := by
  cases cs with
  | nil => exact .inr (.inr (.inl rfl))
  | cons c rest =>
    by_cases hplus : c = '+'
    · exact .inl ⟨rest, by rw [hplus]⟩
    · by_cases hminus : c = '-'
      · exact .inr (.inl ⟨rest, by rw [hminus]⟩)
      · exact .inr (.inr (.inr ⟨c, rest, rfl, hplus, hminus⟩))

/-- A sign is taken if there is one. -/
lemma optional_sign_eq (cs : List Char) :
    optional ((word "+").orElse (word "-")) cs = match cs with
      | '+' :: rest => Option.some rest
      | '-' :: rest => Option.some rest
      | rest => Option.some rest := by
  have hplus := Token.word_cons (s := "+") (d := '+') rfl
  have hminus := Token.word_cons (s := "-") (d := '-') rfl
  obtain ⟨rest, rfl⟩ | ⟨rest, rfl⟩ | rfl | ⟨c, rest, rfl, hc⟩ := sign_cases cs
  · simp [optional, orElse, hplus]
  · simp [optional, orElse, hplus, hminus]
  · rfl
  · simp [optional, orElse, hplus, hminus, hc, hc.1.symm, hc.2.symm]

lemma optional_exponent_eq (cs : List Char) :
    optional exponent cs = Option.some (Token.takeExponent cs).2 := by
  cases cs with
  | nil => rfl
  | cons c cs =>
    by_cases hmark : c = 'e' ∨ c = 'E'
    case neg => simp [optional, exponent, andThen, Token.takeExponent, one, not_or.mp hmark]
    have hone (p : Char → Bool) (hp : p c = true) : one p (c :: cs) = Option.some cs := if_pos hp
    have hexponent : exponent (c :: cs) =
        (optional ((word "+").orElse (word "-")) cs).bind (some Char.isDigit) := by
      rw [exponent, andThen, hone _ (by simpa using hmark)]
      rfl
    have hdigits (sign rest kept : List Char) : ((some Char.isDigit rest).getD kept) =
        (if (rest.takeWhile Char.isDigit).isEmpty then ([], kept)
          else (c :: sign ++ rest.takeWhile Char.isDigit, rest.dropWhile Char.isDigit)).2 := by
      rw [some_eq]
      split_ifs <;> rfl
    rw [optional, hexponent, optional_sign_eq]
    simp only [Token.takeExponent, if_pos hmark]
    obtain ⟨rest, rfl⟩ | ⟨rest, rfl⟩ | rfl | ⟨d, rest, rfl, hd⟩ := sign_cases cs
    · exact congrArg Option.some (hdigits ['+'] rest _)
    · exact congrArg Option.some (hdigits ['-'] rest _)
    · rfl
    · simpa [hd] using hdigits [] (d :: rest) (c :: d :: rest)

theorem number_eq (cs : List Char) : number cs = (Token.takeNumber? cs).map Prod.snd := by
  rw [number, andThen, mantissa_eq, Token.takeNumber?]
  cases Token.takeMantissa? cs with
  | none => rfl
  | some taken => exact optional_exponent_eq taken.2

end Recognizer

end EquationCompiler
