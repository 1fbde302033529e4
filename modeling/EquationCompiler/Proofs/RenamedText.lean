import EquationCompiler.Proofs.Lexeme
import EquationCompiler.Proofs.RenamedFormula

/-!
# Respelling the names in a text

The names in a text are replaced character by character, and all else is copied. The
tokens of the new text are the old ones with other names, unless a name stands
directly after a number: a name that looks like an exponent would become part of the
number. In a text that is a formula no name stands there.
-/
namespace EquationCompiler
variable {r : String → String}

namespace Token

/-- The characters of the new name, or those that another token takes before the rest of a text. -/
def respellToken (r : String → String) (text rest : List Char) : Token → List Char
  | name s => (r s).toList
  | _ => text.take (text.length - rest.length)

/-- Replaces the names in at most `rounds` tokens and blanks. -/
def respellIn (r : String → String) : ℕ → List Char → List Char
  | 0, _ => []
  | _ + 1, [] => []
  | rounds + 1, c :: cs =>
    if isBlank c then c :: respellIn r rounds cs
    else
      let (token, rest) := take c cs
      respellToken r (c :: cs) rest token ++ respellIn r rounds rest

/-- The text with its names replaced. -/
def respell (r : String → String) (cs : List Char) : List Char := respellIn r cs.length cs

lemma respellIn_eq_respell {rounds : ℕ} {cs : List Char} (h : cs.length ≤ rounds) :
    respellIn r rounds cs = respell r cs := by
  have hstep (n m : ℕ) : ∀ cs : List Char, cs.length ≤ n → cs.length ≤ m →
      respellIn r n cs = respellIn r m cs := by
    induction n generalizing m with
    | zero =>
      intro cs hn _
      obtain rfl := List.eq_nil_of_length_eq_zero (Nat.le_zero.mp hn)
      cases m <;> rfl
    | succ n ih =>
      intro cs hn hm
      cases cs with
      | nil => cases m <;> rfl
      | cons c cs =>
        obtain ⟨m, rfl⟩ : ∃ k, m = k + 1 := ⟨m - 1, by simp at hm; omega⟩
        simp only [List.length_cons] at hn hm
        have := length_take c cs
        simp only [respellIn, ih m cs (by omega) (by omega),
          ih m (take c cs).2 (by omega) (by omega)]
  exact hstep _ _ cs h (Nat.le_refl _)

@[simp] lemma respell_nil : respell r [] = [] := rfl

lemma respell_cons_blank {c : Char} (h : isBlank c = true) (cs : List Char) :
    respell r (c :: cs) = c :: respell r cs := by
  rw [respell, List.length_cons, respellIn, if_pos h, respell]

lemma respell_cons {c : Char} (h : isBlank c = false) (cs : List Char) :
    respell r (c :: cs) =
      respellToken r (c :: cs) (take c cs).2 (take c cs).1 ++ respell r (take c cs).2 := by
  rw [respell, List.length_cons, respellIn, if_neg (by simp [h]),
    ← respellIn_eq_respell (length_take c cs)]

/-- What is no name is copied. -/
lemma respellToken_append {t : Token} (ht : ∀ s, t ≠ name s) (spelling rest : List Char) :
    respellToken r (spelling ++ rest) rest t = spelling := by
  cases t with
  | name s => exact absurd rfl (ht s)
  | _ => simp [respellToken]

lemma take_of_isNameStart {c : Char} (h : isNameStart c = true) (cs : List Char) :
    ∃ s, (take c cs).1 = name s := by
  obtain ⟨-, hdigit, hpoint⟩ := isNameStart_spec h
  unfold take
  rw [takeNumber?_eq_none hdigit hpoint]
  exact ⟨_, by rw [if_pos h]⟩

lemma isNameStart_of_take {c : Char} {cs : List Char} {s : String} (h : (take c cs).1 = name s) :
    isNameStart c = true := by
  unfold take at h
  split at h
  · cases h
  · split at h
    · assumption
    · split at h <;> cases h

lemma head_ne_star_of_take {c : Char} {cs : List Char} (h : (take c cs).1 = star) :
    (take c cs).2.head? ≠ some '*' := by
  obtain ⟨spelling, htext, hlexeme⟩ := lexeme_take (c := c) cs (by simp [h])
  generalize htake : take c cs = p at h htext hlexeme
  obtain ⟨t, rest⟩ := p
  dsimp only at h htext hlexeme ⊢
  subst h
  intro hhead
  obtain ⟨more, rfl⟩ := List.head?_eq_some_iff.mp hhead
  cases hlexeme with
  | operator hop =>
    cases hop
    obtain ⟨rfl, rfl⟩ := List.cons.inj htext
    exact absurd (htake.symm.trans (take_two_stars more)) (by simp)

/-- A character that starts no token here starts none before any text that makes it no number. -/
lemma take_eq_unknown {c u : Char} {cs : List Char} (h : (take c cs).1 = unknown u) :
    takeNumber? (c :: cs) = none ∧
      ∀ cs', takeNumber? (c :: cs') = none → take c cs' = (unknown u, cs') := by
  unfold take at h
  split at h
  · cases h
  · next hnone =>
    split at h
    · cases h
    · next hstart =>
      split at h
      case h_10 hstars hstar hcaret hplus hminus hslash hopening hclosing hcomma =>
        cases h
        refine ⟨hnone, fun cs' hnone' => ?_⟩
        unfold take
        rw [hnone']
        dsimp only
        rw [if_neg hstart]
        split <;> simp_all
      all_goals cases h

lemma takeNumber?_eq_none_iff {c : Char} {cs : List Char} :
    takeNumber? (c :: cs) = none ↔
      ¬c.isDigit = true ∧ (c = '.' → ∀ d ∈ cs.head?, ¬d.isDigit = true) := by
  by_cases hdigit : c.isDigit = true
  · have hsome : takeNumber? (c :: cs) ≠ none := by
      unfold takeNumber? takeMantissa?
      split <;> simp [hdigit]
    simp [hdigit, hsome]
  · by_cases hpoint : c = '.'
    · subst hpoint
      have hplaces : (cs.takeWhile Char.isDigit).isEmpty = true ↔
          ∀ d ∈ cs.head?, ¬d.isDigit = true := by
        cases cs with
        | nil => simp
        | cons d cs => by_cases hd : d.isDigit = true <;> simp [hd]
      rw [← hplaces]
      simp [takeNumber?, takeMantissa?]
    · simp [hdigit, hpoint, takeNumber?_eq_none hdigit hpoint]

/-- A text and its respelling start with the same character, or both with a name. -/
lemma head?_respell {cs : List Char} (hnames : ∀ s, name s ∈ tokens cs → IsName (r s).toList) :
    ∀ d ∈ (respell r cs).head?, d ∈ cs.head? ∨
      isNameStart d = true ∧ ∃ c ∈ cs.head?, isNameStart c = true := by
  cases cs with
  | nil => simp
  | cons c cs =>
    cases hblank : isBlank c with
    | true =>
      rw [respell_cons_blank hblank]
      exact fun d hd => .inl hd
    | false =>
      rw [respell_cons hblank]
      rw [tokens_cons hblank] at hnames
      by_cases hname : ∃ s, (take c cs).1 = name s
      · obtain ⟨s, hs⟩ := hname
        have himage := hnames s (by simp [hs])
        rw [hs, respellToken]
        match (r s).toList, himage with
        | d :: more, himage =>
          rintro _ ⟨⟩
          exact .inr ⟨himage.1, c, rfl, isNameStart_of_take hs⟩
      · rw [not_exists] at hname
        obtain ⟨more, hmore⟩ := take_suffix c cs
        have hcopy := respellToken_append (r := r) hname (c :: more) (take c cs).2
        rw [List.cons_append, hmore] at hcopy
        rw [hcopy]
        exact fun d hd => .inl hd

/-- Whether the first token is a number and the second one a name directly after it. -/
def areGlued : Token × List Char → Token × List Char → Bool
  | (number literal, text), (name _, rest) => text = literal.toList ++ rest
  | _, _ => false

/-- No name stands directly after a number. -/
def Unglued (cs : List Char) : Prop := (scan cs).IsChain fun t u => areGlued t u = false

instance (cs : List Char) : Decidable (Unglued cs) :=
  inferInstanceAs (Decidable (List.IsChain _ _))

lemma unglued_of_blank {c : Char} {cs : List Char} (hblank : isBlank c = true)
    (h : Unglued (c :: cs)) : Unglued cs := by
  rwa [Unglued, scan_cons_blank hblank] at h

lemma unglued_of_token {c : Char} {cs : List Char} (hblank : isBlank c = false)
    (h : Unglued (c :: cs)) : Unglued (take c cs).2 := by
  rw [Unglued, scan_cons hblank] at h
  exact h.tail

/-- The number at the start is not followed by a name. -/
lemma Unglued.isNameStart_eq_false {c : Char} {cs : List Char} {literal : String}
    (hblank : isBlank c = false) (h : Unglued (c :: cs)) (ht : (take c cs).1 = number literal)
    (htext : c :: cs = literal.toList ++ (take c cs).2) :
    ∀ d ∈ (take c cs).2.head?, isNameStart d = false := by
  intro d hd
  by_contra hstart
  rw [Bool.not_eq_false] at hstart
  obtain ⟨more, hmore⟩ := List.head?_eq_some_iff.mp hd
  obtain ⟨s, hs⟩ := take_of_isNameStart hstart more
  rw [Unglued, scan_cons hblank, hmore, scan_cons (isNameStart_spec hstart).1,
    List.isChain_cons_cons] at h
  have hglued := h.1
  rw [ht, hs] at hglued
  simp [areGlued, ← hmore, ← htext] at hglued

/-- A token that is spelled in front of a text is spelled in front of the respelled text. -/
lemma Lexeme.respell {spelling rest : List Char} {t : Token} (h : Lexeme spelling rest t)
    (hnumber : ∀ literal, t = Token.number literal → ∀ d ∈ rest.head?, isNameStart d = false)
    (hname : ∀ s, t = Token.name s → IsName (r s).toList)
    (hhead : ∀ d ∈ (Token.respell r rest).head?, d ∈ rest.head? ∨
      isNameStart d = true ∧ ∃ c ∈ rest.head?, isNameStart c = true) :
    Lexeme (respellToken r (spelling ++ rest) rest t) (Token.respell r rest) (t.rename r) := by
  cases h with
  | number hlongest =>
    rw [respellToken_append (by simp)]
    refine .number (hlongest.of_head fun d hd => ?_)
    rcases hhead d hd with hd | ⟨-, c, hc, hstart⟩
    · have hstart := hnumber _ rfl d hd
      refine ⟨hd, ?_, ?_⟩ <;> rintro rfl <;> cases hstart
    · rw [hnumber _ rfl c hc] at hstart
      cases hstart
  | name hlongest =>
    have himage := hname _ rfl
    rw [rename, ← String.ofList_toList (s := r _)]
    refine .name (longest_isName_iff.mpr ⟨himage, fun d hd hchar => ?_⟩)
    have hstop := (longest_isName_iff.mp hlongest).2
    rcases hhead d hd with hd | ⟨-, c, hc, hstart⟩
    · exact hstop d hd hchar
    · exact hstop c hc (isNameChar_of_isNameStart hstart)
  | operator hop =>
    rw [respellToken_append (by cases hop <;> simp)]
    cases hop <;> exact .operator (by constructor)

/-- Where a token ends, it also ends in the respelled text. -/
lemma take_respell {c : Char} {cs : List Char} (hblank : isBlank c = false)
    (hunglued : Unglued (c :: cs)) (hnames : ∀ s, name s ∈ tokens (c :: cs) → IsName (r s).toList) :
    ∃ d more, respellToken r (c :: cs) (take c cs).2 (take c cs).1 = d :: more ∧
      isBlank d = false ∧ take d (more ++ respell r (take c cs).2) =
        ((take c cs).1.rename r, respell r (take c cs).2) := by
  rw [tokens_cons hblank] at hnames
  have hhead := head?_respell (r := r) fun s hs => hnames s (List.mem_cons_of_mem _ hs)
  by_cases hunknown : ∃ u, (take c cs).1 = unknown u
  · obtain ⟨u, hu⟩ := hunknown
    obtain ⟨hnone, htake⟩ := take_eq_unknown hu
    rw [htake cs hnone] at hhead ⊢
    refine ⟨c, [], respellToken_append (by simp) [c] cs, hblank, htake _ ?_⟩
    obtain ⟨hdigit, hpoint⟩ := takeNumber?_eq_none_iff.mp hnone
    refine takeNumber?_eq_none_iff.mpr ⟨hdigit, fun hc d hd => ?_⟩
    rcases hhead d hd with hd | ⟨hstart, -⟩
    · exact hpoint hc d hd
    · exact (isNameStart_spec hstart).2.1
  · rw [not_exists] at hunknown
    obtain ⟨spelling, htext, hlexeme⟩ := lexeme_take cs hunknown
    have hstar : (take c cs).1.rename r = star → (respell r (take c cs).2).head? ≠ some '*' := by
      intro ht hd
      have ht' : (take c cs).1 = star := by
        revert ht
        cases (take c cs).1 <;> simp [rename]
      rcases hhead _ hd with hd | ⟨hstart, -⟩
      · exact head_ne_star_of_take ht' hd
      · cases hstart
    have hnumber (literal : String) (ht : (take c cs).1 = number literal) :
        ∀ d ∈ (take c cs).2.head?, isNameStart d = false := by
      refine hunglued.isNameStart_eq_false hblank ht ?_
      rw [ht] at hlexeme
      cases hlexeme with
      | number _ => rwa [String.toList_ofList]
      | operator hop => cases hop
    have hrenamed := hlexeme.respell hnumber (fun s hs => hnames s (by simp [hs])) hhead
    rw [htext]
    exact hrenamed.take_eq hstar

/-- The tokens of the respelled text are those of the text, with other names. -/
theorem tokens_respell {cs : List Char} (hunglued : Unglued cs)
    (hnames : ∀ s, name s ∈ tokens cs → IsName (r s).toList) :
    tokens (respell r cs) = (tokens cs).map (rename r) := by
  induction cs using scan_induction with
  | nil => rfl
  | @blank c cs hblank ih =>
    rw [tokens_cons_blank hblank] at hnames ⊢
    rw [respell_cons_blank hblank, tokens_cons_blank hblank]
    exact ih (unglued_of_blank hblank hunglued) hnames
  | @token c cs hblank ih =>
    obtain ⟨d, more, hspelling, hd, htake⟩ := take_respell hblank hunglued hnames
    rw [tokens_cons hblank] at hnames ⊢
    rw [respell_cons hblank, hspelling, List.cons_append, tokens_cons hd, htake, List.map_cons,
      ih (unglued_of_token hblank hunglued) fun s hs => hnames s (List.mem_cons_of_mem _ hs)]

end Token

namespace Formula
open Token

/-- The second token is no name after a number. -/
def MayFollow (t u : Token) : Prop := ∀ literal s, t = .number literal → u ≠ .name s

lemma isChain_cons_mayFollow {t : Token} {ts : List Token} (ht : ∀ literal, t ≠ .number literal)
    (hts : ts.IsChain MayFollow) : (t :: ts).IsChain MayFollow :=
  List.isChain_cons.mpr ⟨fun _ _ literal _ h => absurd h (ht literal), hts⟩

lemma isChain_append_mayFollow {ts us : List Token} (hts : ts.IsChain MayFollow)
    (hus : us.IsChain MayFollow) (hhead : ∀ u ∈ us.head?, ∀ s, u ≠ .name s) :
    (ts ++ us).IsChain MayFollow :=
  List.isChain_append.mpr ⟨hts, hus, fun _ _ u hu _ s _ => hhead u hu s⟩

lemma MoreTerms.head_ne_name {ts : List Token} {f g : Formula} (h : MoreTerms f ts g) :
    ∀ u ∈ ts.head?, ∀ s, u ≠ .name s := by
  cases h <;> simp

lemma MoreFactors.head_ne_name {ts : List Token} {f g : Formula} (h : MoreFactors f ts g) :
    ∀ u ∈ ts.head?, ∀ s, u ≠ .name s := by
  cases h <;> simp

lemma MoreArguments.head_ne_name {ts : List Token} {args : List Formula}
    (h : MoreArguments ts args) : ∀ u ∈ ts.head?, ∀ s, u ≠ .name s := by
  cases h <;> simp

mutual
theorem isChain_of_isSum {ts : List Token} {f : Formula} (h : IsSum ts f) :
    ts.IsChain MayFollow := by
  cases h with
  | mk hterm hmore =>
    exact isChain_append_mayFollow (isChain_of_isTerm hterm) (isChain_of_moreTerms hmore)
      hmore.head_ne_name
termination_by 6 * ts.length + 5
theorem isChain_of_moreTerms {ts : List Token} {f g : Formula} (h : MoreTerms f ts g) :
    ts.IsChain MayFollow := by
  cases h with
  | nil => exact .nil
  | plus hterm hmore | minus hterm hmore =>
    exact isChain_cons_mayFollow (by simp) (isChain_append_mayFollow (isChain_of_isTerm hterm)
      (isChain_of_moreTerms hmore) hmore.head_ne_name)
termination_by 6 * ts.length + 0
theorem isChain_of_isTerm {ts : List Token} {f : Formula} (h : IsTerm ts f) :
    ts.IsChain MayFollow := by
  cases h with
  | mk hsigned hmore =>
    exact isChain_append_mayFollow (isChain_of_isSigned hsigned) (isChain_of_moreFactors hmore)
      hmore.head_ne_name
termination_by 6 * ts.length + 4
theorem isChain_of_moreFactors {ts : List Token} {f g : Formula} (h : MoreFactors f ts g) :
    ts.IsChain MayFollow := by
  cases h with
  | nil => exact .nil
  | star hsigned hmore | slash hsigned hmore =>
    exact isChain_cons_mayFollow (by simp) (isChain_append_mayFollow (isChain_of_isSigned hsigned)
      (isChain_of_moreFactors hmore) hmore.head_ne_name)
termination_by 6 * ts.length + 0
theorem isChain_of_isSigned {ts : List Token} {f : Formula} (h : IsSigned ts f) :
    ts.IsChain MayFollow := by
  cases h with
  | minus h | plus h => exact isChain_cons_mayFollow (by simp) (isChain_of_isSigned h)
  | power h => exact isChain_of_isPower h
termination_by 6 * ts.length + 3
theorem isChain_of_isPower {ts : List Token} {f : Formula} (h : IsPower ts f) :
    ts.IsChain MayFollow := by
  cases h with
  | operand h => exact isChain_of_isOperand h
  | power hbase hexponent =>
    exact isChain_append_mayFollow (isChain_of_isOperand hbase)
      (isChain_cons_mayFollow (by simp) (isChain_of_isSigned hexponent)) (by simp)
termination_by 6 * ts.length + 2
theorem isChain_of_isOperand {ts : List Token} {f : Formula} (h : IsOperand ts f) :
    ts.IsChain MayFollow := by
  cases h with
  | number literal => exact .singleton _
  | name s => exact .singleton _
  | call f harg hmore =>
    exact isChain_cons_mayFollow (by simp) (isChain_cons_mayFollow (by simp)
      (isChain_append_mayFollow (isChain_of_isSum harg) (isChain_of_moreArguments hmore)
        hmore.head_ne_name))
  | group h =>
    exact isChain_cons_mayFollow (by simp)
      (isChain_append_mayFollow (isChain_of_isSum h) (.singleton _) (by simp))
termination_by 6 * ts.length + 1
theorem isChain_of_moreArguments {ts : List Token} {args : List Formula}
    (h : MoreArguments ts args) : ts.IsChain MayFollow := by
  cases h with
  | closing => exact .singleton _
  | comma harg hmore =>
    exact isChain_cons_mayFollow (by simp) (isChain_append_mayFollow (isChain_of_isSum harg)
      (isChain_of_moreArguments hmore) hmore.head_ne_name)
termination_by 6 * ts.length + 0
end

/-- In a formula no name stands directly after a number. -/
theorem unglued_of_isSum {cs : List Char} {f : Formula} (h : IsSum (tokens cs) f) : Unglued cs := by
  have hchain := isChain_of_isSum h
  rw [tokens, List.isChain_map] at hchain
  refine hchain.imp ?_
  rintro ⟨t, _⟩ ⟨u, _⟩ hfollow
  cases t with
  | number literal =>
    cases u with
    | name s => exact absurd rfl (hfollow literal s rfl)
    | _ => rfl
  | _ => rfl

end Formula

end EquationCompiler
