import Mathlib.Data.List.TakeWhile
import Mathlib.Tactic.Push
import EquationCompiler.Text.Basic

/-!
# Padded texts

A text is often put together from tokens with blanks around them and separators
in between. Trimming finds a token again, cutting finds the first separator, and
the pieces between separators are the texts that were joined.
-/
namespace EquationCompiler.Text

/-- The token with blanks of one kind before and after it. -/
def Padded (blank : Char → Bool) (token text : List Char) : Prop :=
  ∃ left right, (∀ c ∈ left, blank c = true) ∧ (∀ c ∈ right, blank c = true) ∧
    text = left ++ token ++ right

section
variable {left right cs : List Char} {c : Char}

lemma trimStart_append_of_blank (h : ∀ d ∈ left, isBlank d = true) :
    trimStart (left ++ cs) = trimStart cs := List.dropWhile_append_of_pos h

/-- The start is trimmed no further than its first character that is no blank. -/
lemma trimStart_append_of_ne_nil (h : trimStart cs ≠ []) (rest : List Char) :
    trimStart (cs ++ rest) = trimStart cs ++ rest := by
  rw [trimStart, List.dropWhile_append, if_neg (by simpa [trimStart] using h), trimStart]

lemma trimEnd_append_of_blank (h : ∀ d ∈ right, isBlank d = true) :
    trimEnd (cs ++ right) = trimEnd cs := by
  rw [trimEnd, List.reverse_append, trimStart_append_of_blank (by simpa using h), trimEnd]

lemma trimEnd_of_blank (h : ∀ d ∈ cs, isBlank d = true) : trimEnd cs = [] := by
  rw [← List.nil_append cs, trimEnd_append_of_blank h]
  rfl

/-- Nothing from the first character on that is no blank is trimmed off the start. -/
lemma trimStart_append_cons (hc : isBlank c = false) (before after : List Char) :
    trimStart (before ++ c :: after) = trimStart before ++ c :: after := by
  induction before with
  | nil => simp [trimStart, hc]
  | cons d before ih =>
    rw [trimStart] at ih
    by_cases hd : isBlank d = true
    · simp [trimStart, hd, ih]
    · simp [trimStart, hd]

lemma trimEnd_append_cons (hc : isBlank c = false) (before after : List Char) :
    trimEnd (before ++ c :: after) = before ++ c :: trimEnd after := by
  have hreverse : (before ++ c :: after).reverse = after.reverse ++ c :: before.reverse := by simp
  rw [trimEnd, hreverse, trimStart_append_cons hc, trimEnd]
  simp

theorem trim_append_cons (hc : isBlank c = false) (before after : List Char) :
    trim (before ++ c :: after) = trimStart before ++ c :: trimEnd after := by
  rw [trim, trimStart_append_cons hc, trimEnd_append_cons hc]

theorem trim_eq_self (hstart : ∀ d ∈ cs.head?, isBlank d = false)
    (hend : ∀ d ∈ cs.getLast?, isBlank d = false) : trim cs = cs := by
  have hkept {ds : List Char} (h : ∀ d ∈ ds.head?, isBlank d = false) : trimStart ds = ds := by
    cases ds with
    | nil => rfl
    | cons d ds => simp [trimStart, h d rfl]
  have hlast : ∀ d ∈ cs.reverse.head?, isBlank d = false := by rwa [List.head?_reverse]
  rw [trim, hkept hstart, trimEnd, hkept hlast, List.reverse_reverse]

theorem trim_of_blank (h : ∀ d ∈ cs, isBlank d = true) : trim cs = [] := by
  have hstart : trimStart (cs ++ []) = trimStart [] := trimStart_append_of_blank h
  rw [List.append_nil] at hstart
  rw [trim, hstart]
  rfl

/-- Padding does not change what is left after trimming. -/
theorem trim_padded {token text : List Char} (h : Padded isBlank token text) :
    trim text = trim token := by
  obtain ⟨left, right, hleft, hright, rfl⟩ := h
  by_cases hblank : ∀ c ∈ token, isBlank c = true
  · have hall : ∀ c ∈ left ++ token ++ right, isBlank c = true := by
      simp only [List.mem_append]
      rintro c ((hc | hc) | hc)
      exacts [hleft c hc, hblank c hc, hright c hc]
    rw [trim_of_blank hall, trim_of_blank hblank]
  · push Not at hblank
    obtain ⟨c, hmem, hc⟩ := hblank
    rw [ne_eq, Bool.not_eq_true] at hc
    obtain ⟨before, after, rfl⟩ := List.append_of_mem hmem
    have htext : left ++ (before ++ c :: after) ++ right =
        left ++ before ++ c :: (after ++ right) := by simp
    rw [htext, trim_append_cons hc, trim_append_cons hc, trimStart_append_of_blank hleft,
      trimEnd_append_of_blank hright]

/-- What is trimmed off the end is blank. -/
lemma trimEnd_append_blanks (cs : List Char) :
    trimEnd cs ++ (cs.reverse.takeWhile isBlank).reverse = cs := by
  have hsplit := List.takeWhile_append_dropWhile (p := isBlank) (l := cs.reverse)
  rw [trimEnd, ← List.reverse_append]
  exact (congrArg List.reverse hsplit).trans (List.reverse_reverse cs)

lemma padded_trimEnd (cs : List Char) : Padded isBlank (trimEnd cs) cs :=
  ⟨[], (cs.reverse.takeWhile isBlank).reverse, nofun,
    fun _ hc => List.mem_takeWhile_imp (List.mem_reverse.mp hc), (trimEnd_append_blanks cs).symm⟩

/-- What trimming takes away is blank. -/
theorem padded_trim (text : List Char) : Padded isBlank (trim text) text := by
  refine ⟨text.takeWhile isBlank, ((trimStart text).reverse.takeWhile isBlank).reverse,
    fun c hc => List.mem_takeWhile_imp hc,
    fun c hc => List.mem_takeWhile_imp (List.mem_reverse.mp hc), ?_⟩
  rw [List.append_assoc, trim, trimEnd_append_blanks]
  exact List.takeWhile_append_dropWhile.symm

lemma mem_of_mem_trim {text : List Char} (h : c ∈ trim text) : c ∈ text := by
  obtain ⟨left, right, -, -, htext⟩ := padded_trim text
  rw [htext]
  simp [h]

lemma blank_of_trim_eq_nil {text : List Char} (h : trim text = []) :
    ∀ c ∈ text, isBlank c = true := by
  obtain ⟨left, right, hleft, hright, htext⟩ := padded_trim text
  rw [h, List.append_nil] at htext
  rw [htext]
  simp only [List.mem_append]
  exact fun c hc => hc.elim (hleft c) (hright c)

@[simp] theorem trim_trim (text : List Char) : trim (trim text) = trim text :=
  (trim_padded (padded_trim text)).symm

end

section
variable {blank : Char → Bool} {token text : List Char}

theorem Padded.refl (blank : Char → Bool) (token : List Char) : Padded blank token token :=
  ⟨[], [], nofun, nofun, by simp⟩

theorem Padded.append_left {more : List Char} (h : Padded blank token text)
    (hmore : ∀ c ∈ more, blank c = true) : Padded blank token (more ++ text) := by
  obtain ⟨left, right, hleft, hright, rfl⟩ := h
  refine ⟨more ++ left, right, ?_, hright, by simp⟩
  simp only [List.mem_append]
  exact fun c hc => hc.elim (hmore c) (hleft c)

theorem Padded.append_right {more : List Char} (h : Padded blank token text)
    (hmore : ∀ c ∈ more, blank c = true) : Padded blank token (text ++ more) := by
  obtain ⟨left, right, hleft, hright, rfl⟩ := h
  refine ⟨left, right ++ more, hleft, ?_, by simp⟩
  simp only [List.mem_append]
  exact fun c hc => hc.elim (hright c) (hmore c)

theorem Padded.mono {other : Char → Bool} (h : Padded blank token text)
    (himp : ∀ c, blank c = true → other c = true) : Padded other token text := by
  obtain ⟨left, right, hleft, hright, rfl⟩ := h
  exact ⟨left, right, fun c hc => himp c (hleft c hc), fun c hc => himp c (hright c hc), rfl⟩

/-- Taking the padding off the start leaves the token padded at its end. -/
theorem Padded.trimStart (h : Padded blank token text) (hblank : ∀ c, blank c → isBlank c)
    (htoken : ∀ c ∈ token.head?, isBlank c = false) (hne : token ≠ []) :
    Padded blank token (trimStart text) := by
  obtain ⟨left, right, hleft, hright, rfl⟩ := h
  cases token with
  | nil => exact absurd rfl hne
  | cons c token =>
    refine ⟨[], right, nofun, hright, ?_⟩
    rw [List.append_assoc, trimStart_append_of_blank fun d hd => hblank d (hleft d hd),
      List.cons_append, Text.trimStart, List.dropWhile_cons_of_neg (by simp [htoken c rfl])]
    rfl

theorem Padded.not_mem {d : Char} (h : Padded blank token text) (htoken : d ∉ token)
    (hd : blank d = false) : d ∉ text := by
  obtain ⟨left, right, hleft, hright, rfl⟩ := h
  simp only [List.mem_append, not_or]
  refine ⟨⟨fun hmem => ?_, htoken⟩, fun hmem => ?_⟩
  · simp [hleft d hmem] at hd
  · simp [hright d hmem] at hd

end

section
variable {c : Char} {before : List Char}

lemma cut?_append (h : c ∉ before) (after : List Char) :
    cut? c (before ++ after) = (cut? c after).map fun (b, a) => (before ++ b, a) := by
  induction before with
  | nil => simp
  | cons d before ih =>
    rw [List.mem_cons, not_or] at h
    simp [cut?, Ne.symm h.1, ih h.2, Function.comp_def]

end

section
variable {c : Char} {texts : List (List Char)}

lemma intercalate_cons_cons (c : Char) (first second : List Char) (more : List (List Char)) :
    [c].intercalate (first :: second :: more) =
      first ++ c :: [c].intercalate (second :: more) := by
  simp [List.intercalate]

lemma not_mem_intercalate {d : Char} (h : ∀ t ∈ texts, d ∉ t) (hd : d ≠ c) :
    d ∉ [c].intercalate texts := by
  induction texts with
  | nil => simp [List.intercalate]
  | cons first more ih =>
    rw [List.forall_mem_cons] at h
    cases more with
    | nil => simpa [List.intercalate] using h.1
    | cons second more =>
      rw [intercalate_cons_cons, List.mem_append, List.mem_cons, not_or, not_or]
      exact ⟨h.1, hd, ih h.2⟩

lemma mem_intercalate {t : List Char} (ht : t ∈ texts) {d : Char} (hd : d ∈ t) :
    d ∈ [c].intercalate texts := by
  induction texts with
  | nil => cases ht
  | cons first more ih =>
    cases more with
    | nil => simpa [List.intercalate, List.mem_singleton.mp ht] using hd
    | cons second more =>
      rw [intercalate_cons_cons, List.mem_append, List.mem_cons]
      rcases List.mem_cons.mp ht with rfl | ht
      · exact .inl hd
      · exact .inr (.inr (ih ht))

theorem pieces_eq_splitOn (c : Char) (text : List Char) : pieces c text = text.splitOn c := by
  induction text with
  | nil => rfl
  | cons d rest ih =>
    rw [pieces, ih, List.splitOn, List.splitOn, List.splitOnP_cons_eq_if_modifyHead]
    cases h : rest.splitOnP (· == c) with
    | nil => exact absurd h (List.splitOnP_ne_nil _ _)
    | cons first more => by_cases hd : d = c <;> simp [hd]

theorem pieces_ne_nil (c : Char) (text : List Char) : pieces c text ≠ [] := by
  rw [pieces_eq_splitOn]
  exact List.splitOnP_ne_nil _ _

/-- Texts that were joined by a separator are the pieces between the separators. -/
theorem pieces_intercalate (h : ∀ t ∈ texts, c ∉ t) (hne : texts ≠ []) :
    pieces c ([c].intercalate texts) = texts := by
  rw [pieces_eq_splitOn, List.splitOn_intercalate c h hne]

theorem intercalate_pieces (c : Char) (text : List Char) :
    [c].intercalate (pieces c text) = text := by
  rw [pieces_eq_splitOn, List.intercalate_splitOn]

lemma pieces_append_cons {before : List Char} (h : c ∉ before) (after : List Char) :
    pieces c (before ++ c :: after) = before :: pieces c after := by
  rw [pieces_eq_splitOn, List.splitOn_append_cons_self_of_not_mem h, pieces_eq_splitOn]

lemma not_mem_of_mem_pieces {text piece : List Char} (h : piece ∈ pieces c text) : c ∉ piece := by
  induction text generalizing piece with
  | nil =>
    rw [List.mem_singleton.mp h]
    exact List.not_mem_nil
  | cons d rest ih =>
    obtain ⟨first, more, hrest⟩ := List.exists_cons_of_ne_nil (pieces_ne_nil c rest)
    have hpieces : ∀ p ∈ first :: more, c ∉ p := fun p hp => ih (hrest ▸ hp)
    simp only [pieces, hrest] at h
    split_ifs at h with hd <;> rcases List.mem_cons.mp h with rfl | h
    · exact List.not_mem_nil
    · exact hpieces piece h
    · rw [List.mem_cons, not_or]
      exact ⟨Ne.symm hd, hpieces first List.mem_cons_self⟩
    · exact hpieces piece (List.mem_cons_of_mem _ h)

lemma mem_of_mem_pieces {text piece : List Char} (h : piece ∈ pieces c text) {d : Char}
    (hd : d ∈ piece) : d ∈ text := by
  rw [← intercalate_pieces c text]
  exact mem_intercalate h hd

end

end EquationCompiler.Text
