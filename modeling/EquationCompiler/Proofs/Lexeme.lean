import EquationCompiler.Proofs.Spelling

/-!
# The lexical language of formulas

What numbers, names and operators look like, and how a text is cut into them:
blanks may stand before, between and after the tokens, and a number or a name
goes on as long as it can. Two stars may be cut apart here. The scanner finds
every cut in which no star comes before a star or a power, and its tokens are
always a cut unless one of them is unknown.
-/
namespace EquationCompiler.Token

/-- Digits with at most one point among them or at either end. -/
def MantissaShape (cs : List Char) : Prop :=
  IsDigits cs ∨ ∃ ds ps : List Char, (∀ c ∈ ds, c.isDigit = true) ∧ (∀ c ∈ ps, c.isDigit = true) ∧
    (ds ≠ [] ∨ ps ≠ []) ∧ cs = ds ++ '.' :: ps

/-- An exponent mark and digits with or without a sign. -/
def ExponentShape (cs : List Char) : Prop :=
  ∃ (mark : Char) (sign xs : List Char), (mark = 'e' ∨ mark = 'E') ∧
    (sign = [] ∨ sign = ['+'] ∨ sign = ['-']) ∧ IsDigits xs ∧ cs = mark :: (sign ++ xs)

def NumberShape (cs : List Char) : Prop :=
  ∃ mantissa exponent : List Char, MantissaShape mantissa ∧
    (exponent = [] ∨ ExponentShape exponent) ∧ cs = mantissa ++ exponent

/-- The characters have the shape, and no more of those that follow could be added to them. -/
def Longest (Shape : List Char → Prop) (cs rest : List Char) : Prop :=
  Shape cs ∧ ∀ more, more <+: rest → Shape (cs ++ more) → more = []

inductive IsOperator : List Char → Token → Prop
  | plus : IsOperator ['+'] plus
  | minus : IsOperator ['-'] minus
  | star : IsOperator ['*'] star
  | slash : IsOperator ['/'] slash
  | stars : IsOperator ['*', '*'] power
  | caret : IsOperator ['^'] power
  | opening : IsOperator ['('] opening
  | closing : IsOperator [')'] closing
  | comma : IsOperator [','] comma

/-- The spelling of a token, before a rest that the token does not reach into. -/
inductive Lexeme : List Char → List Char → Token → Prop
  | number {cs rest : List Char} (h : Longest NumberShape cs rest) :
    Lexeme cs rest (number (String.ofList cs))
  | name {cs rest : List Char} (h : Longest IsName cs rest) :
    Lexeme cs rest (name (String.ofList cs))
  | operator {cs rest : List Char} {t : Token} (h : IsOperator cs t) : Lexeme cs rest t

/-- The text is a row of spellings of the tokens and blanks. -/
inductive Cuts : List Char → List Token → Prop
  | nil : Cuts [] []
  | blank {c : Char} {cs : List Char} {ts : List Token} (hblank : isBlank c = true)
      (h : Cuts cs ts) : Cuts (c :: cs) ts
  | lexeme {cs rest : List Char} {t : Token} {ts : List Token} (hlexeme : Lexeme cs rest t)
      (h : Cuts rest ts) : Cuts (cs ++ rest) (t :: ts)

lemma prefix_takeWhile {p : Char → Bool} {ds xs : List Char} (hds : ∀ c ∈ ds, p c = true) :
    ds <+: (ds ++ xs).takeWhile p := by
  rw [List.takeWhile_append_of_pos hds]
  exact List.prefix_append _ _

lemma MantissaShape.mem {cs : List Char} (h : MantissaShape cs) :
    ∀ c ∈ cs, c.isDigit = true ∨ c = '.' := by
  intro c hc
  rcases h with h | ⟨ds, ps, hds, hps, -, rfl⟩
  · exact .inl (h.2 c hc)
  · rcases List.mem_append.mp hc with hc | hc
    · exact .inl (hds c hc)
    · rcases List.mem_cons.mp hc with rfl | hc
      · exact .inr rfl
      · exact .inl (hps c hc)

lemma mantissaShape_of_take {xs mantissa rest : List Char}
    (h : takeMantissa? xs = some (mantissa, rest)) : MantissaShape mantissa := by
  have hwhole : ∀ c ∈ xs.takeWhile Char.isDigit, c.isDigit = true :=
    fun c hc => List.mem_takeWhile_imp hc
  unfold takeMantissa? at h
  split at h
  · next tail _ =>
    dsimp only at h
    split_ifs at h with hempty
    cases h
    refine .inr ⟨_, _, hwhole, fun c hc => List.mem_takeWhile_imp hc, ?_, rfl⟩
    simpa only [Bool.and_eq_true, List.isEmpty_iff, not_and_or] using hempty
  · dsimp only at h
    split_ifs at h with hempty
    cases h
    exact .inl ⟨by simpa using hempty, hwhole⟩

/-- The mantissa taken reaches at least as far as any other. -/
lemma takeMantissa?_append {ms : List Char} (h : MantissaShape ms) (xs : List Char) :
    ∃ mantissa rest, takeMantissa? (ms ++ xs) = some (mantissa, rest) ∧ ms <+: mantissa := by
  rcases h with ⟨hne, hms⟩ | ⟨ds, ps, hds, hps, hne, rfl⟩
  · have hpre : ms <+: (ms ++ xs).takeWhile Char.isDigit := prefix_takeWhile hms
    have hwhole : (ms ++ xs).takeWhile Char.isDigit ≠ [] := fun h =>
      hne (List.prefix_nil.mp (h ▸ hpre))
    unfold takeMantissa?
    split
    · exact ⟨_, _, if_neg (by simp [hwhole]), hpre.trans (List.prefix_append _ _)⟩
    · exact ⟨_, _, if_neg (by simp [hwhole]), hpre⟩
  · have hpoint : ∀ c ∈ ('.' :: (ps ++ xs)).head?, ¬c.isDigit = true := by simp
    obtain ⟨htake, hdrop⟩ := span_append hds hpoint
    have hplaces : ps <+: (ps ++ xs).takeWhile Char.isDigit := prefix_takeWhile hps
    have hsome : ¬(ds.isEmpty && ((ps ++ xs).takeWhile Char.isDigit).isEmpty) = true := by
      rw [Bool.and_eq_true, List.isEmpty_iff, List.isEmpty_iff]
      rintro ⟨rfl, hempty⟩
      exact hne.elim (· rfl) fun hps => hps (List.prefix_nil.mp (hempty ▸ hplaces))
    unfold takeMantissa?
    rw [List.append_assoc, List.cons_append, htake, hdrop]
    exact ⟨_, _, if_neg hsome, by
      rw [List.prefix_append_right_inj, List.cons_prefix_cons]
      exact ⟨rfl, hplaces⟩⟩

lemma exponentShape_of_take (xs : List Char) :
    (takeExponent xs).1 = [] ∨ ExponentShape (takeExponent xs).1 := by
  unfold takeExponent
  split
  · next mark rest =>
    split_ifs with hmark
    · have hdigits (tail : List Char) (hne : ¬(tail.takeWhile Char.isDigit).isEmpty = true) :
          IsDigits (tail.takeWhile Char.isDigit) :=
        ⟨by simpa using hne, fun c hc => List.mem_takeWhile_imp hc⟩
      dsimp only
      split
      all_goals
        split_ifs with hempty
        · exact .inl rfl
        · exact .inr ⟨mark, _, _, hmark, by simp, hdigits _ hempty, rfl⟩
    · exact .inl rfl
  · exact .inl rfl

/-- The exponent taken reaches at least as far as any other. -/
lemma takeExponent_append_of_shape {es : List Char} (h : ExponentShape es) (xs : List Char) :
    es <+: (takeExponent (es ++ xs)).1 := by
  obtain ⟨mark, sign, ds, hmark, hsign, ⟨hne, hds⟩, rfl⟩ := h
  have hpre : ds <+: (ds ++ xs).takeWhile Char.isDigit := prefix_takeWhile hds
  have htaken : (ds ++ xs).takeWhile Char.isDigit ≠ [] := fun h =>
    hne (List.prefix_nil.mp (h ▸ hpre))
  obtain ⟨d, more, rfl⟩ := List.exists_cons_of_ne_nil hne
  have hd := hds d (by simp)
  simp only [takeExponent, List.cons_append, if_pos hmark, List.append_assoc]
  rcases hsign with rfl | rfl | rfl
  · split
    · next heq =>
      obtain ⟨rfl, -⟩ := List.cons.inj heq
      cases hd
    · next heq =>
      obtain ⟨rfl, -⟩ := List.cons.inj heq
      cases hd
    · rw [List.cons_append] at hpre htaken
      simpa [htaken] using hpre
  all_goals
    rw [List.cons_append] at hpre htaken
    simpa [htaken] using hpre

/-- The number taken reaches at least as far as any other. -/
lemma takeNumber?_append {ns : List Char} (h : NumberShape ns) (xs : List Char) :
    ∃ literal rest, takeNumber? (ns ++ xs) = some (literal, rest) ∧ ns <+: literal := by
  obtain ⟨ms, es, hms, hes, rfl⟩ := h
  obtain ⟨mantissa, tail, hmantissa, hpre⟩ := takeMantissa?_append hms (es ++ xs)
  rw [List.append_assoc, takeNumber?, hmantissa]
  refine ⟨_, _, rfl, ?_⟩
  rcases hes with rfl | hes
  · rw [List.append_nil]
    exact hpre.trans (List.prefix_append _ _)
  · -- the exponent mark cannot belong to a longer mantissa
    obtain ⟨more, rfl⟩ := hpre
    have htext := (takeMantissa?_eq_some hmantissa).1
    rw [List.append_assoc, List.append_cancel_left_eq] at htext
    have hmore : more = [] := by
      by_contra hne
      obtain ⟨c, cs, rfl⟩ := List.exists_cons_of_ne_nil hne
      obtain ⟨mark, sign, ds, hmark, -, -, rfl⟩ := hes
      obtain ⟨rfl, -⟩ := List.cons.inj htext
      have hshape := (mantissaShape_of_take hmantissa).mem c (by simp)
      rcases hmark with rfl | rfl <;> simp at hshape
    subst hmore
    rw [List.nil_append] at htext
    rw [List.append_nil, List.prefix_append_right_inj, htext]
    exact takeExponent_append_of_shape hes xs

theorem takeNumber?_eq_some_iff {xs literal rest : List Char} :
    takeNumber? xs = some (literal, rest) ↔
      xs = literal ++ rest ∧ Longest NumberShape literal rest := by
  have hshape {xs literal rest : List Char} (h : takeNumber? xs = some (literal, rest)) :
      NumberShape literal := by
    obtain ⟨⟨mantissa, tail⟩, hmantissa, htail⟩ := Option.map_eq_some_iff.mp h
    rw [Prod.mk.injEq] at htail
    exact ⟨mantissa, _, mantissaShape_of_take hmantissa, exponentShape_of_take tail, htail.1.symm⟩
  constructor
  · intro h
    obtain ⟨rfl, -⟩ := takeNumber?_eq_some h
    refine ⟨rfl, hshape h, ?_⟩
    rintro more ⟨tail, rfl⟩ hmore
    obtain ⟨literal', rest', htake, hpre⟩ := takeNumber?_append hmore tail
    rw [List.append_assoc, h, Option.some.injEq, Prod.mk.injEq] at htake
    rw [← htake.1] at hpre
    exact List.append_right_eq_self.mp (hpre.eq_of_length_le (by simp))
  · rintro ⟨rfl, hliteral, hlongest⟩
    obtain ⟨literal', rest', htake, more, rfl⟩ := takeNumber?_append hliteral rest
    have htext := (takeNumber?_eq_some htake).1
    rw [List.append_assoc, List.append_cancel_left_eq] at htext
    obtain rfl := hlongest more ⟨rest', htext⟩ (hshape htake)
    rw [htake, List.append_nil, ← htext, List.nil_append]

/-- A number does not end with an exponent mark or a sign. -/
lemma NumberShape.getLast? {cs : List Char} (h : NumberShape cs) :
    ∀ c ∈ cs.getLast?, c.isDigit = true ∨ c = '.' := by
  obtain ⟨ms, es, hms, rfl | ⟨mark, sign, xs, -, -, hxs, rfl⟩, rfl⟩ := h
  · intro c hc
    rw [List.append_nil] at hc
    exact hms.mem c (List.mem_of_mem_getLast? hc)
  · intro c hc
    rw [← List.cons_append, ← List.append_assoc, List.getLast?_append_of_ne_nil _ hxs.1] at hc
    exact .inl (hxs.2 c (List.mem_of_mem_getLast? hc))

lemma IsDigits.snoc {cs : List Char} (h : IsDigits cs) {c : Char} (hc : c.isDigit = true) :
    IsDigits (cs ++ [c]) :=
  ⟨by simp, by simpa [or_imp, forall_and] using ⟨h.2, hc⟩⟩

lemma NumberShape.snoc_digit {cs : List Char} (h : NumberShape cs) {c : Char}
    (hc : c.isDigit = true) : NumberShape (cs ++ [c]) := by
  obtain ⟨ms, es, hms, rfl | ⟨mark, sign, xs, hmark, hsign, hxs, rfl⟩, rfl⟩ := h
  · refine ⟨ms ++ [c], [], ?_, .inl rfl, by simp⟩
    rcases hms with hms | ⟨ds, ps, hds, hps, hne, rfl⟩
    · exact .inl (hms.snoc hc)
    · exact .inr ⟨ds, ps ++ [c], hds, by simpa [or_imp, forall_and] using ⟨hps, hc⟩, by simp,
        by simp⟩
  · exact ⟨ms, _, hms, .inr ⟨mark, sign, xs ++ [c], hmark, hsign, hxs.snoc hc, rfl⟩, by simp⟩

/-- Before its point a mantissa has digits only. -/
lemma MantissaShape.isDigits_before_point {cs tail : List Char} (h : MantissaShape (cs ++ '.' :: tail)) :
    ∀ c ∈ cs, c.isDigit = true := by
  rcases h with ⟨-, hall⟩ | ⟨ds, ps, hds, hps, -, htext⟩
  · exact absurd (hall '.' (by simp)) (by decide)
  · rcases List.append_eq_append_iff.mp htext with ⟨more, rfl, -⟩ | ⟨more, rfl, hmore⟩
    · exact fun c hc => hds c (List.mem_append_left _ hc)
    · cases more with
      | nil => simpa using hds
      | cons d more =>
        rw [List.cons_append, List.cons.injEq] at hmore
        exact absurd (hps '.' (by simp [hmore.2])) (by decide)

/-- An exponent goes on with digits, except at the mark and right after it. -/
lemma ExponentShape.isDigit_of_append {tail more : List Char} {c : Char}
    (h : ExponentShape (tail ++ c :: more)) (hc : c ≠ 'e' ∧ c ≠ 'E')
    (hlast : ∀ d ∈ tail.getLast?, d.isDigit = true ∨ d = '.') : c.isDigit = true := by
  obtain ⟨mark, sign, xs, hmark, hsign, hxs, htext⟩ := h
  have hdigits (front : List Char) (h : front ++ c :: more = xs) : c.isDigit = true :=
    hxs.2 c (h ▸ List.mem_append_right front List.mem_cons_self)
  match tail with
  | [] =>
    rw [(List.cons.inj htext).1] at hc
    exact absurd hmark (by simp [hc])
  | [d] =>
    obtain ⟨rfl, -⟩ := List.cons.inj htext
    have hd := hlast d rfl
    rcases hmark with rfl | rfl <;> simp at hd
  | d :: s :: tail =>
    have hrest := (List.cons.inj htext).2
    rcases hsign with rfl | rfl | rfl
    · exact hdigits (s :: tail) hrest
    · exact hdigits tail (List.cons.inj hrest).2
    · exact hdigits tail (List.cons.inj hrest).2

/-- A number that goes on, but not with an exponent, goes on with one character more. -/
lemma NumberShape.snoc {cs more : List Char} {c : Char} (h : NumberShape cs)
    (hlonger : NumberShape (cs ++ c :: more)) (hc : c ≠ 'e' ∧ c ≠ 'E') : NumberShape (cs ++ [c]) := by
  by_cases hdigit : c.isDigit = true
  · exact h.snoc_digit hdigit
  have hlast := h.getLast?
  obtain ⟨ms, es, hms, hes, htext⟩ := hlonger
  -- the character is the point of the mantissa, since an exponent goes on with digits
  rcases List.append_eq_append_iff.mp htext with ⟨tail, rfl, htail⟩ | ⟨tail, rfl, rfl⟩
  · cases tail with
    | nil =>
      rcases hes with rfl | ⟨mark, sign, xs, hmark, -, -, rfl⟩
      · cases htail
      · rw [(List.cons.inj htail).1] at hc
        exact absurd hmark (by simp [hc])
    | cons d tail =>
      obtain ⟨rfl, -⟩ := List.cons.inj htail
      obtain rfl : c = '.' := (hms.mem c (by simp)).resolve_left hdigit
      have hne : cs ≠ [] := by
        rintro rfl
        obtain ⟨literal, rest, htake, -⟩ := takeNumber?_append h []
        cases htake
      exact ⟨cs ++ ['.'], [], .inr ⟨cs, [], hms.isDigits_before_point, by simp, .inl hne, rfl⟩,
        .inl rfl, by simp⟩
  · have hend : ∀ d ∈ tail.getLast?, d.isDigit = true ∨ d = '.' :=
      fun d hd => hlast d (List.mem_getLast?_append_of_mem_getLast? hd)
    exact absurd ((hes.resolve_left (by simp)).isDigit_of_append hc hend) hdigit

/-- Where a number ends depends on the next character only, unless that is an exponent mark. -/
lemma Longest.of_head {cs rest rest' : List Char} (h : Longest NumberShape cs rest)
    (hhead : ∀ c ∈ rest'.head?, c ∈ rest.head? ∧ c ≠ 'e' ∧ c ≠ 'E') :
    Longest NumberShape cs rest' := by
  refine ⟨h.1, fun more hmore hlonger => ?_⟩
  cases more with
  | nil => rfl
  | cons c more =>
    obtain ⟨tail, rfl⟩ := hmore
    obtain ⟨hrest, hc⟩ := hhead c rfl
    obtain ⟨tail', rfl⟩ := List.head?_eq_some_iff.mp hrest
    exact absurd (h.2 [c] ⟨tail', rfl⟩ (h.1.snoc hlonger hc)) (by simp)
theorem longest_isName_iff {cs rest : List Char} :
    Longest IsName cs rest ↔ IsName cs ∧ ∀ c ∈ rest.head?, ¬isNameChar c = true := by
  constructor
  · rintro ⟨hname, hlongest⟩
    refine ⟨hname, fun c hc hchar => ?_⟩
    obtain ⟨more, rfl⟩ := List.head?_eq_some_iff.mp hc
    have hlonger : IsName (cs ++ [c]) := by
      match cs with
      | d :: ds =>
        refine ⟨hname.1, fun e he => ?_⟩
        rcases List.mem_append.mp he with he | he
        · exact hname.2 e he
        · rwa [List.mem_singleton.mp he]
    exact absurd (hlongest [c] ⟨more, rfl⟩ hlonger) (by simp)
  · rintro ⟨hname, hstop⟩
    refine ⟨hname, fun more hmore hlonger => ?_⟩
    match cs, more with
    | _, [] => rfl
    | d :: ds, c :: more =>
      obtain ⟨tail, rfl⟩ := hmore
      exact absurd (hlonger.2 c (by simp)) (hstop c rfl)

/-- A token that is taken apart from the one after it: two stars would be taken together. -/
def Apart (t u : Token) : Prop := t = star → u ≠ star ∧ u ≠ power

lemma Cuts.head_of_star {cs : List Char} {ts : List Token} (h : Cuts ('*' :: cs) ts) :
    ts.head? = some star ∨ ts.head? = some power := by
  generalize hcs : '*' :: cs = xs at h
  cases h with
  | nil => cases hcs
  | blank hblank h =>
    obtain ⟨rfl, -⟩ := List.cons.inj hcs
    cases hblank
  | @lexeme cs' rest t ts hlexeme h =>
    cases hlexeme with
    | number hlongest =>
      have htake := takeNumber?_eq_some_iff.mpr ⟨hcs, hlongest⟩
      rw [takeNumber?_eq_none (by decide) (by decide)] at htake
      cases htake
    | name hlongest =>
      match cs', hlongest.1 with
      | c :: _, hname =>
        obtain ⟨rfl, -⟩ := List.cons.inj hcs
        cases hname.1
    | operator hop =>
      cases hop
      case star => exact .inl rfl
      case stars => exact .inr rfl
      all_goals exact absurd (List.cons.inj hcs).1 (by decide)

/-- The scanner takes the token at the start. -/
lemma Lexeme.take_eq {cs rest : List Char} {t : Token} (h : Lexeme cs rest t)
    (hstar : t = star → rest.head? ≠ some '*') :
    ∃ c more, cs = c :: more ∧ isBlank c = false ∧ take c (more ++ rest) = (t, rest) := by
  cases h with
  | number hlongest =>
    have htake := takeNumber?_eq_some_iff.mpr ⟨rfl, hlongest⟩
    obtain ⟨c, more, rfl⟩ := List.exists_cons_of_ne_nil (takeNumber?_eq_some htake).2
    rw [List.cons_append] at htake
    refine ⟨c, more, rfl, ?_, by unfold take; rw [htake]⟩
    by_contra hblank
    obtain ⟨hdigit, hpoint⟩ := isBlank_spec (by simpa using hblank)
    rw [takeNumber?_eq_none hdigit hpoint] at htake
    cases htake
  | name hlongest =>
    obtain ⟨hname, hstop⟩ := longest_isName_iff.mp hlongest
    match cs, hname with
    | c :: more, hname =>
      obtain ⟨hblank, hdigit, hpoint⟩ := isNameStart_spec hname.1
      obtain ⟨htake, hdrop⟩ := span_append hname.2 hstop
      refine ⟨c, more, rfl, hblank, ?_⟩
      unfold take
      rw [takeNumber?_eq_none hdigit hpoint]
      simp only [if_pos hname.1, htake, hdrop]
  | operator hop =>
    have hsingle {c : Char} {t : Token} (hc : operator? c = some t) :
        ∃ d more, [c] = d :: more ∧ isBlank d = false ∧ take d (more ++ rest) = (t, rest) := by
      obtain ⟨hblank, -, htake⟩ := operator?_eq_some hc
      exact ⟨c, [], rfl, hblank, htake rest⟩
    cases hop with
    | star => exact ⟨'*', [], rfl, by decide, take_star (hstar rfl)⟩
    | stars => exact ⟨'*', ['*'], rfl, by decide, take_two_stars rest⟩
    | caret =>
      refine ⟨'^', [], rfl, by decide, ?_⟩
      unfold take
      rw [List.nil_append, takeNumber?_eq_none (by decide) (by decide)]
      rfl
    | plus | minus | slash | opening | closing | comma => exact hsingle rfl

/-- A cut in which no two stars have been taken apart is the scanner's. -/
theorem tokens_of_cuts {cs : List Char} {ts : List Token} (h : Cuts cs ts)
    (hapart : ts.IsChain Apart) : tokens cs = ts := by
  induction h with
  | nil => rfl
  | blank hblank _ ih => rw [tokens_cons_blank hblank, ih hapart]
  | @lexeme cs rest t ts hlexeme h ih =>
    have hstar : t = star → rest.head? ≠ some '*' := by
      intro ht hhead
      obtain ⟨more, rfl⟩ := List.head?_eq_some_iff.mp hhead
      have hnext : ∀ u ∈ ts.head?, Apart t u := by
        cases ts with
        | nil => simp
        | cons u us => simpa using (List.isChain_cons_cons.mp hapart).1
      rcases h.head_of_star with hu | hu
      · exact (hnext _ hu ht).1 rfl
      · exact (hnext _ hu ht).2 rfl
    obtain ⟨c, more, rfl, hblank, htake⟩ := hlexeme.take_eq hstar
    rw [List.cons_append, tokens_cons hblank, htake, ih hapart.tail]

/-- What the scanner takes is the spelling of a token, if it is known. -/
lemma lexeme_take {c : Char} (cs : List Char) (hknown : ∀ u, (take c cs).1 ≠ unknown u) :
    ∃ spelling, c :: cs = spelling ++ (take c cs).2 ∧
      Lexeme spelling (take c cs).2 (take c cs).1 := by
  unfold take at hknown ⊢
  split
  · next literal rest hnumber =>
    obtain ⟨htext, hlongest⟩ := takeNumber?_eq_some_iff.mp hnumber
    exact ⟨literal, htext, .number hlongest⟩
  · next hnumber =>
    rw [hnumber] at hknown
    dsimp only at hknown
    split_ifs at hknown ⊢ with hstart
    · refine ⟨c :: cs.takeWhile isNameChar, by simp, .name (longest_isName_iff.mpr ⟨?_, ?_⟩)⟩
      · exact ⟨hstart, fun d hd => List.mem_takeWhile_imp hd⟩
      · intro d hd
        have := List.head?_dropWhile_not isNameChar cs
        rw [Option.mem_def.mp hd] at this
        simpa using this
    · revert hknown
      split
      case h_1 => exact fun _ => ⟨['*', '*'], rfl, .operator .stars⟩
      case h_10 => exact fun hknown => absurd rfl (hknown _)
      all_goals exact fun _ => ⟨[_], rfl, .operator (by constructor)⟩

/-- The scanner's tokens are a cut if all of them are known. -/
theorem cuts_tokens {cs : List Char} (hknown : ∀ u, unknown u ∉ tokens cs) :
    Cuts cs (tokens cs) := by
  induction cs using scan_induction with
  | nil => exact .nil
  | blank hblank ih =>
    rw [tokens_cons_blank hblank] at hknown ⊢
    exact .blank hblank (ih hknown)
  | @token c cs hblank ih =>
    rw [tokens_cons hblank] at hknown ⊢
    obtain ⟨spelling, htext, hlexeme⟩ := lexeme_take (c := c) cs fun u hu =>
      hknown u (hu ▸ List.mem_cons_self)
    rw [htext]
    exact .lexeme hlexeme (ih fun u hu => hknown u (List.mem_cons_of_mem _ hu))

end EquationCompiler.Token
