import EquationCompiler.Proofs.Scanner
import Mathlib

/-!
# How tokens are spelled

The tokens of a text are those of its parts, if the parts meet where no number and
no name goes on. An operator ends by itself, a number and a name end before a
character that belongs to neither.
-/
namespace EquationCompiler.Token

/-- A mantissa and what follows make up the text. -/
lemma takeMantissa?_eq_some {cs mantissa rest : List Char}
    (h : takeMantissa? cs = some (mantissa, rest)) : mantissa ++ rest = cs ∧ mantissa ≠ [] := by
  have hcs := List.takeWhile_append_dropWhile (p := Char.isDigit) (l := cs)
  unfold takeMantissa? at h
  split at h
  · next tail htail =>
    have hrest := List.takeWhile_append_dropWhile (p := Char.isDigit) (l := tail)
    dsimp only at h
    split_ifs at h
    cases h
    exact ⟨by rw [List.append_assoc, List.cons_append, hrest, ← htail, hcs], by simp⟩
  · dsimp only at h
    split_ifs at h with hempty
    cases h
    exact ⟨hcs, by simpa using hempty⟩

lemma takeExponent_append (cs : List Char) : (takeExponent cs).1 ++ (takeExponent cs).2 = cs := by
  unfold takeExponent
  split
  · next mark rest =>
    have htail (tail : List Char) :=
      List.takeWhile_append_dropWhile (p := Char.isDigit) (l := tail)
    split_ifs with hmark
    · dsimp only
      split
      all_goals
        split_ifs
        · rfl
        · simp [htail]
    · rfl
  · rfl

lemma takeNumber?_eq_some {cs literal rest : List Char}
    (h : takeNumber? cs = some (literal, rest)) : literal ++ rest = cs ∧ literal ≠ [] := by
  obtain ⟨⟨mantissa, tail⟩, hmantissa, htail⟩ := Option.map_eq_some_iff.mp h
  obtain ⟨rfl, hne⟩ := takeMantissa?_eq_some hmantissa
  rw [Prod.mk.injEq] at htail
  obtain ⟨rfl, rfl⟩ := htail
  exact ⟨by rw [List.append_assoc, takeExponent_append], by simp [hne]⟩

/-- A token takes its first character and perhaps more. -/
lemma take_suffix (c : Char) (cs : List Char) : (take c cs).2 <:+ cs := by
  unfold take
  split
  · next literal rest h =>
    obtain ⟨htext, hne⟩ := takeNumber?_eq_some h
    obtain ⟨d, more, rfl⟩ := List.exists_cons_of_ne_nil hne
    exact ⟨more, (List.cons.inj htext).2⟩
  · split_ifs
    · exact List.dropWhile_suffix _
    · split <;> first | exact List.suffix_rfl | exact List.suffix_cons _ _

lemma length_take (c : Char) (cs : List Char) : (take c cs).2.length ≤ cs.length :=
  (take_suffix c cs).length_le

lemma scanIn_eq_scan {rounds : ℕ} {cs : List Char} (h : cs.length ≤ rounds) :
    scanIn rounds cs = scan cs := by
  have hstep (n m : ℕ) : ∀ cs : List Char, cs.length ≤ n → cs.length ≤ m →
      scanIn n cs = scanIn m cs := by
    induction n generalizing m with
    | zero =>
      intro cs hn _
      obtain rfl := List.eq_nil_of_length_eq_zero (Nat.le_zero.mp hn)
      cases m <;> rfl
    | succ n ih =>
      intro cs hn hm
      cases cs with
      | nil => cases m <;> rfl
      | cons c cs =>
        obtain ⟨m, rfl⟩ : ∃ k, m = k + 1 := ⟨m - 1, by simp at hm; omega⟩
        simp only [List.length_cons] at hn hm
        simp only [scanIn]
        split_ifs with hblank
        · exact ih m cs (by omega) (by omega)
        · have := length_take c cs
          rw [ih m _ (by omega) (by omega)]
  exact hstep _ _ cs h (Nat.le_refl _)

theorem scan_cons_blank {c : Char} (h : isBlank c = true) (cs : List Char) :
    scan (c :: cs) = scan cs := by
  rw [scan, List.length_cons, scanIn, if_pos h]
  rfl

theorem scan_cons {c : Char} (h : isBlank c = false) (cs : List Char) :
    scan (c :: cs) = ((take c cs).1, c :: cs) :: scan (take c cs).2 := by
  rw [scan, List.length_cons, scanIn, if_neg (by simp [h])]
  simp only [scanIn_eq_scan (length_take c cs)]

@[simp] theorem tokens_nil : tokens [] = [] := rfl

theorem tokens_cons_blank {c : Char} (h : isBlank c = true) (cs : List Char) :
    tokens (c :: cs) = tokens cs := by
  rw [tokens, scan_cons_blank h, tokens]

theorem tokens_cons {c : Char} (h : isBlank c = false) (cs : List Char) :
    tokens (c :: cs) = (take c cs).1 :: tokens (take c cs).2 := by
  rw [tokens, scan_cons h, List.map_cons, tokens]

/-- A text is empty, or it starts with a blank or with a token. -/
theorem scan_induction {P : List Char → Prop} (nil : P [])
    (blank : ∀ {c cs}, isBlank c = true → P cs → P (c :: cs))
    (token : ∀ {c cs}, isBlank c = false → P (take c cs).2 → P (c :: cs)) (cs : List Char) :
    P cs := by
  induction hlength : cs.length using Nat.strong_induction_on generalizing cs with
  | _ n ih =>
    cases cs with
    | nil => exact nil
    | cons c cs =>
      have hcs : cs.length < n := by simp at hlength; omega
      cases hblank : isBlank c with
      | true => exact blank hblank (ih _ hcs cs rfl)
      | false => exact token hblank (ih _ ((length_take c cs).trans_lt hcs) _ rfl)

/-- What follows can continue neither a number nor a name. -/
def Separates (rest : List Char) : Prop := ∀ c ∈ rest.head?, ¬isNameChar c ∧ c ≠ '.'

lemma Separates.append {cs rest : List Char} (hcs : Separates cs) (hrest : Separates rest) :
    Separates (cs ++ rest) := by
  cases cs with
  | nil => exact hrest
  | cons c cs => exact hcs

lemma isNameChar_of_isDigit {c : Char} (h : c.isDigit = true) : isNameChar c = true := by
  simp [isNameChar, Char.isAlphanum, h]

lemma isNameChar_of_isNameStart {c : Char} (h : isNameStart c = true) : isNameChar c = true := by
  simp only [isNameStart, Bool.or_eq_true] at h
  rcases h with h | h <;> simp [isNameChar, Char.isAlphanum, h]

lemma Separates.not_isDigit {rest : List Char} (h : Separates rest) :
    ∀ c ∈ rest.head?, ¬c.isDigit := fun c hc hd => (h c hc).1 (isNameChar_of_isDigit hd)

/-- The longest prefix of characters with a property ends where the first character without it
follows. -/
lemma span_append {p : Char → Bool} {cs rest : List Char} (hcs : ∀ c ∈ cs, p c)
    (hrest : ∀ c ∈ rest.head?, ¬p c) :
    (cs ++ rest).takeWhile p = cs ∧ (cs ++ rest).dropWhile p = rest := by
  have hstop : rest.takeWhile p = [] ∧ rest.dropWhile p = rest := by
    cases rest with
    | nil => simp
    | cons c rest => simp [hrest c rfl]
  rw [List.takeWhile_append_of_pos hcs, List.dropWhile_append_of_pos hcs, hstop.1, hstop.2]
  simp

/-- Digits, at least one of them. -/
def IsDigits (cs : List Char) : Prop := cs ≠ [] ∧ ∀ c ∈ cs, c.isDigit = true

lemma isDigits_zero : IsDigits ['0'] :=
  ⟨List.cons_ne_nil _ _, List.forall_mem_singleton.mpr rfl⟩

/-- What is taken as a whole before a character that is neither a digit nor a point. -/
def IsMantissa (cs : List Char) : Prop :=
  ∀ rest : List Char, (∀ c ∈ rest.head?, ¬c.isDigit ∧ c ≠ '.') →
    takeMantissa? (cs ++ rest) = some (cs, rest)

/-- A number that is taken as a whole before a separation. -/
def IsLiteral (cs : List Char) : Prop :=
  ∀ rest, Separates rest → takeNumber? (cs ++ rest) = some (cs, rest)

lemma isMantissa_digits {ds : List Char} (h : IsDigits ds) : IsMantissa ds := by
  intro rest hrest
  obtain ⟨htake, hdrop⟩ := span_append h.2 fun c hc => (hrest c hc).1
  unfold takeMantissa?
  rw [htake, hdrop]
  split
  · exact absurd rfl (hrest '.' rfl).2
  · simp [h.1]

lemma isMantissa_point {ds ps : List Char} (hds : IsDigits ds) (hps : ∀ c ∈ ps, c.isDigit = true) :
    IsMantissa (ds ++ '.' :: ps) := by
  intro rest hrest
  have hpoint : ∀ c ∈ ('.' :: (ps ++ rest)).head?, ¬c.isDigit = true := by simp
  obtain ⟨htake, hdrop⟩ := span_append hds.2 hpoint
  obtain ⟨hplaces, hafter⟩ := span_append hps fun c hc => (hrest c hc).1
  unfold takeMantissa?
  rw [List.append_assoc, List.cons_append, htake, hdrop]
  simp [hplaces, hafter, hds.1]

lemma takeExponent_of_separates {rest : List Char} (h : Separates rest) :
    takeExponent rest = ([], rest) := by
  unfold takeExponent
  split
  · next mark more =>
    rw [if_neg]
    rintro (rfl | rfl)
    · exact (h 'e' rfl).1 (by decide)
    · exact (h 'E' rfl).1 (by decide)
  · rfl

lemma takeExponent_mark {sign xs rest : List Char} (hsign : sign = [] ∨ sign = ['-'])
    (hxs : IsDigits xs) (hrest : Separates rest) :
    takeExponent ('e' :: (sign ++ xs ++ rest)) = ('e' :: (sign ++ xs), rest) := by
  obtain ⟨htake, hdrop⟩ := span_append hxs.2 hrest.not_isDigit
  rcases hsign with rfl | rfl
  · obtain ⟨x, more, rfl⟩ := List.exists_cons_of_ne_nil hxs.1
    have hx := hxs.2 x (by simp)
    simp only [takeExponent, true_or, if_true, List.nil_append]
    split
    · next heq =>
      rw [List.cons_append, List.cons.injEq] at heq
      rw [heq.1] at hx
      cases hx
    · next heq =>
      rw [List.cons_append, List.cons.injEq] at heq
      rw [heq.1] at hx
      cases hx
    · rw [List.cons_append] at htake hdrop
      simp [htake, hdrop]
  · simp [takeExponent, htake, hdrop, hxs.1]

theorem IsMantissa.isLiteral {ds : List Char} (h : IsMantissa ds) : IsLiteral ds := by
  intro rest hrest
  have hmantissa := h rest fun c hc => ⟨hrest.not_isDigit c hc, (hrest c hc).2⟩
  simp [takeNumber?, hmantissa, takeExponent_of_separates hrest]

theorem IsMantissa.isLiteral_exponent {ds sign xs : List Char} (h : IsMantissa ds)
    (hsign : sign = [] ∨ sign = ['-']) (hxs : IsDigits xs) :
    IsLiteral (ds ++ 'e' :: (sign ++ xs)) := by
  intro rest hrest
  have hmantissa := h ('e' :: (sign ++ xs ++ rest)) (by simp)
  rw [List.append_assoc, List.cons_append]
  simp only [takeNumber?, hmantissa, Option.map_some, takeExponent_mark hsign hxs hrest]

/-- Before every separation the characters are read as the tokens. -/
def Spells (cs : List Char) (ts : List Token) : Prop :=
  ∀ rest, Separates rest → tokens (cs ++ rest) = ts ++ tokens rest

lemma Spells.tokens_eq {cs : List Char} {ts : List Token} (h : Spells cs ts) : tokens cs = ts := by
  simpa using h [] (by simp [Separates])

lemma spells_nil : Spells [] [] := fun _ _ => rfl

lemma Spells.append {as bs : List Char} {ts us : List Token} (ha : Spells as ts)
    (hb : Spells bs us) (hsep : Separates bs) : Spells (as ++ bs) (ts ++ us) := by
  intro rest hrest
  rw [List.append_assoc, ha _ (hsep.append hrest), hb rest hrest, List.append_assoc]

lemma Spells.blank {cs : List Char} {ts : List Token} (h : Spells cs ts) : Spells (' ' :: cs) ts := by
  intro rest hrest
  rw [List.cons_append, tokens_cons_blank rfl, h rest hrest]

/-- Operators of one character that end by themselves. -/
def operator? : Char → Option Token
  | '+' => some plus
  | '-' => some minus
  | '/' => some slash
  | '(' => some opening
  | ')' => some closing
  | ',' => some comma
  | _ => none

lemma operator?_eq_some {c : Char} {t : Token} (h : operator? c = some t) :
    isBlank c = false ∧ Separates [c] ∧ ∀ cs, take c cs = (t, cs) := by
  unfold operator? at h
  split at h <;> cases h
  all_goals
    refine ⟨by decide, ?_, fun cs => ?_⟩
    · intro d hd
      cases hd
      decide
    · simp [take, takeNumber?, takeMantissa?, isNameStart]

lemma Spells.operator {c : Char} {t : Token} (hc : operator? c = some t) {cs : List Char}
    {ts : List Token} (h : Spells cs ts) : Spells (c :: cs) (t :: ts) := by
  obtain ⟨hblank, -, htake⟩ := operator?_eq_some hc
  intro rest hrest
  rw [List.cons_append, tokens_cons hblank, htake, h rest hrest, List.cons_append]

lemma takeNumber?_eq_none {c : Char} (hdigit : ¬c.isDigit) (hpoint : c ≠ '.') (cs : List Char) :
    takeNumber? (c :: cs) = none := by
  have hmantissa : takeMantissa? (c :: cs) = none := by
    unfold takeMantissa?
    rw [List.dropWhile_cons_of_neg hdigit]
    split
    · next heq => exact absurd (List.cons.inj heq).1 hpoint
    · simp [hdigit]
  rw [takeNumber?, hmantissa]
  rfl

lemma take_two_stars (cs : List Char) : take '*' ('*' :: cs) = (power, cs) := by
  unfold take
  rw [takeNumber?_eq_none (by decide) (by decide)]
  rfl

lemma take_star {cs : List Char} (h : cs.head? ≠ some '*') : take '*' cs = (star, cs) := by
  unfold take
  rw [takeNumber?_eq_none (by decide) (by decide)]
  cases cs with
  | nil => rfl
  | cons c cs =>
    have hc : c ≠ '*' := by simpa using h
    have hstart : isNameStart '*' = false := by decide
    simp [hstart, hc]

/-- A star is no part of a power if no star follows. -/
lemma Spells.star {cs : List Char} {t : Token} {ts : List Token} (h : Spells cs (t :: ts))
    (hstar : t ≠ Token.star) (hpower : t ≠ power) : Spells ('*' :: cs) (Token.star :: t :: ts) := by
  intro rest hrest
  have htokens := h.tokens_eq
  have hhead : (cs ++ rest).head? ≠ some '*' := by
    cases cs with
    | nil => cases htokens
    | cons c cs =>
      rintro heq
      obtain rfl : c = '*' := Option.some.inj heq
      rw [tokens_cons rfl, List.cons.injEq] at htokens
      by_cases hnext : cs.head? = some '*'
      · obtain ⟨more, rfl⟩ := List.head?_eq_some_iff.mp hnext
        rw [take_two_stars] at htokens
        exact hpower htokens.1.symm
      · rw [take_star hnext] at htokens
        exact hstar htokens.1.symm
  rw [List.cons_append, tokens_cons rfl, take_star hhead, h rest hrest]
  rfl

/-- Two stars are a power whatever follows. -/
lemma Spells.power {cs : List Char} {ts : List Token} (h : Spells cs ts) :
    Spells ('*' :: '*' :: cs) (Token.power :: ts) := by
  intro rest hrest
  rw [List.cons_append, List.cons_append, tokens_cons rfl, take_two_stars, h rest hrest,
    List.cons_append]

lemma isBlank_spec {c : Char} (h : isBlank c = true) : ¬c.isDigit ∧ c ≠ '.' := by
  simp only [isBlank, Bool.or_eq_true, decide_eq_true_eq] at h
  rcases h with rfl | rfl <;> decide

lemma spells_literal {cs : List Char} (h : IsLiteral cs) :
    Spells cs [number (String.ofList cs)] := by
  intro rest hrest
  have htake := h rest hrest
  obtain ⟨-, hne⟩ := takeNumber?_eq_some htake
  obtain ⟨c, more, rfl⟩ := List.exists_cons_of_ne_nil hne
  rw [List.cons_append] at htake ⊢
  have hblank : isBlank c = false := by
    by_contra hb
    obtain ⟨hdigit, hpoint⟩ := isBlank_spec (by simpa using hb)
    rw [takeNumber?_eq_none hdigit hpoint] at htake
    cases htake
  have hliteral : take c (more ++ rest) = (number (String.ofList (c :: more)), rest) := by
    unfold take
    rw [htake]
  rw [tokens_cons hblank, hliteral]
  rfl

/-- A letter or an underscore, and letters, digits and underscores after it. -/
def IsName : List Char → Prop
  | [] => False
  | c :: cs => isNameStart c = true ∧ ∀ d ∈ cs, isNameChar d = true

instance : DecidablePred IsName
  | [] => inferInstanceAs (Decidable False)
  | c :: cs => decidable_of_iff (isNameStart c = true ∧ cs.all isNameChar = true)
    (and_congr_right fun _ => List.all_eq_true)

lemma isNameStart_spec {c : Char} (h : isNameStart c = true) :
    isBlank c = false ∧ ¬c.isDigit ∧ c ≠ '.' := by
  have hdigit : ¬c.isDigit := by
    intro hd
    simp only [isNameStart, Char.isAlpha, Char.isUpper, Char.isLower, Char.isDigit, Bool.or_eq_true,
      Bool.and_eq_true, decide_eq_true_eq, ge_iff_le, UInt32.le_iff_toNat_le] at h hd
    have hnine : '9'.val.toNat < 'A'.val.toNat ∧ '9'.val.toNat < 'a'.val.toNat := by decide
    rcases h with (h | h) | rfl
    · omega
    · omega
    · exact absurd hd (by decide)
  refine ⟨?_, hdigit, ?_⟩
  · by_contra hb
    simp only [isBlank, Bool.or_eq_true, decide_eq_true_eq, Bool.not_eq_false] at hb
    rcases hb with rfl | rfl <;> cases h
  · rintro rfl
    cases h

lemma spells_name {cs : List Char} (h : IsName cs) : Spells cs [name (String.ofList cs)] := by
  intro rest hrest
  match cs with
  | c :: cs =>
    obtain ⟨hstart, hmore⟩ := h
    obtain ⟨hblank, hdigit, hpoint⟩ := isNameStart_spec hstart
    obtain ⟨htake, hdrop⟩ := span_append hmore fun d hd => (hrest d hd).1
    have hname : take c (cs ++ rest) = (name (String.ofList (c :: cs)), rest) := by
      unfold take
      rw [takeNumber?_eq_none hdigit hpoint]
      simp only [if_pos hstart, htake, hdrop]
    rw [List.cons_append, tokens_cons hblank, hname]
    rfl

lemma isName_of_take {c : Char} {cs : List Char} {s : String} (h : (take c cs).1 = name s) :
    IsName s.toList := by
  unfold take at h
  split at h
  · cases h
  · split at h
    · next hstart =>
      cases h
      rw [String.toList_ofList]
      exact ⟨hstart, fun d hd => List.mem_takeWhile_imp hd⟩
    · split at h <;> cases h

/-- The names among the tokens of a text are well formed. -/
theorem isName_of_mem_tokens {cs : List Char} {s : String} (h : name s ∈ tokens cs) :
    IsName s.toList := by
  induction cs using scan_induction with
  | nil => cases h
  | blank hblank ih => exact ih (tokens_cons_blank hblank _ ▸ h)
  | token hblank ih =>
    rw [tokens_cons hblank, List.mem_cons] at h
    rcases h with h | h
    · exact isName_of_take h.symm
    · exact ih h

end EquationCompiler.Token
