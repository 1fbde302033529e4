import EquationCompiler.Proofs.LineParts

/-!
# Written records are read back

However a record is written, the line has the shape of a record, and taking it
apart gives the record back. The two scan the line independently. The expression
may have brackets and equals signs of its own, and the text of a substitution may
have equals signs and parentheses.
-/
namespace EquationCompiler

open Text (Padded)

namespace Shape

/-- The text of a substitution is not empty, since it has more than blanks in it. -/
lemma skipBlanks_ne_nil {cs : List Char} (h : Text.trim cs ≠ []) : skipBlanks cs ≠ [] := by
  intro hempty
  refine h (Text.trim_of_blank fun c hc => isBlank_text ?_)
  simpa using List.dropWhile_eq_nil_iff.mp hempty c hc

/-- In a written substitution the grammar finds the name, and the text with some of the white space
around it. -/
lemma matchesEntry_of_writes {s : Substitution} (hs : s.Writable) {text : List Char}
    (h : Record.WritesSubstitution s text) :
    ∃ entry, MatchesEntry entry text ∧ Substitution.checked entry = .ok s := by
  obtain ⟨name, value, hname, hvalue, rfl⟩ := h
  obtain ⟨gap, hgap, hsplit, hbegins⟩ := skipBlanks_spec value
  have htrim : Text.trim (skipBlanks value) = s.text.toList := by
    rw [← trim_append hgap, ← hsplit, Text.trim_padded hvalue, hs.trimmed]
  have hblank : Text.trim value ≠ [] := by
    rw [Text.trim_padded hvalue, hs.trimmed]
    exact hs.text_ne_nil
  have hno {c : Char} (hc : c ∉ s.text.toList) (hblank : Text.isBlank c = false) :
      c ∉ skipBlanks value := fun hmem =>
    hvalue.not_mem hc hblank ((List.dropWhile_suffix _).mem hmem)
  refine ⟨(s.name.toList, skipBlanks value), ⟨hs.name, hbegins ?_, hno hs.no_comma (by decide),
    hno hs.no_opening (by decide), hno hs.no_closing (by decide), name, gap, hname, hgap,
    by rw [← hsplit]⟩, Record.checked_eq_ok_iff.mpr ⟨?_, ?_⟩⟩
  · exact skipBlanks_ne_nil hblank
  · exact htrim ▸ hs.text_ne_nil
  · rw [Substitution.ofEntry, htrim, String.ofList_toList, String.ofList_toList]

lemma matchesEntries_of_writes {subs : List Substitution} (hsubs : ∀ s ∈ subs, s.Writable)
    {texts : List (List Char)} (h : List.Forall₂ Record.WritesSubstitution subs texts) :
    ∃ entries, List.Forall₂ MatchesEntry entries texts ∧
      entries.mapM Substitution.checked = .ok subs := by
  induction h with
  | nil => exact ⟨[], .nil, rfl⟩
  | cons hwrites _ ih =>
    obtain ⟨hs, hsubs⟩ := List.forall_mem_cons.mp hsubs
    obtain ⟨entry, hentry, hchecked⟩ := matchesEntry_of_writes hs hwrites
    obtain ⟨entries, hentries, hall⟩ := ih hsubs
    exact ⟨entry :: entries, .cons hentry hentries,
      mapM_eq_ok_iff.mpr (.cons hchecked (mapM_eq_ok_iff.mp hall))⟩

/-- A written block is one of the grammar. -/
lemma matchesBlock_of_writes {subs : List Substitution} (hsubs : ∀ s ∈ subs, s.Writable)
    {block : List Char} (h : Record.WritesBlock subs block) :
    ∃ entries, MatchesBlock entries block ∧ entries.mapM Substitution.checked = .ok subs := by
  cases h with
  | missing hgap => exact ⟨[], .missing hgap, rfl⟩
  | present hne hbefore hafter htexts =>
    obtain ⟨entries, hentries, hchecked⟩ := matchesEntries_of_writes hsubs htexts
    refine ⟨entries, .present ?_ hbefore hafter hentries, hchecked⟩
    rintro rfl
    cases hchecked
    exact hne rfl

/-- A written line has the shape of a record if there is anything after the equals sign. -/
theorem isSome_ofText? {function : String} {parameters : List String} {subs : List Substitution}
    {head block : List Char} (h : Record.Front function parameters subs head block)
    (expression : List Char) :
    (ofText? (head ++ (block ++ '=' :: expression))).isSome = !(skipBlanks expression).isEmpty := by
  obtain ⟨entries, hentries, -⟩ := matchesBlock_of_writes h.substitutions h.writesBlock
  obtain ⟨after, hafter, htakeBlock⟩ := takeBlock?_of_matches hentries expression
  have hequals := expect?_append hafter (show isBlank '=' = false by decide) expression
  rw [ofText?_of_writesHead h.name h.parameters_ne_nil h.parameters h.writesHead, htakeBlock]
  simp only [Option.bind_some, hequals]
  split_ifs with hempty <;> simp [hempty]

end Shape

namespace Record

/-- Taking a written line apart gives what is written, if there is anything after the equals
sign. -/
theorem split_of_front {function : String} {parameters : List String} {subs : List Substitution}
    {head block : List Char} (h : Front function parameters subs head block)
    (hnodup : parameters.Nodup) (n : ℕ) (expression : List Char) :
    split n (head ++ (block ++ '=' :: expression)) =
      if (Text.trim expression).isEmpty then .error .emptyExpression
      else .ok ⟨n, function, parameters, subs, String.ofList (Text.trim expression)⟩ := by
  obtain ⟨hfunction, hne, hparameters, hsubs, hhead, hblock⟩ := h
  obtain ⟨entries, hentries, hchecked⟩ := Shape.matchesBlock_of_writes hsubs hblock
  have hduplicate : firstDuplicate? [] parameters = none :=
    firstDuplicate?_eq_none_iff.mpr ⟨hnodup, fun _ _ => List.not_mem_nil⟩
  rw [split_of_block hfunction hne hparameters hhead hentries, hduplicate, hchecked]
  rfl

variable {function : String} {parameters : List String} {subs : List Substitution}
  {head block expression : List Char}

/-- Trimming takes blanks off the start of a head. -/
lemma WritesHead.exists_trim (hfunction : isName function.toList = true)
    (h : WritesHead function parameters head) (rest : List Char) :
    ∃ trimmed, WritesHead function parameters trimmed ∧
      Text.trim (head ++ rest) = trimmed ++ Text.trimEnd rest := by
  obtain ⟨first, texts, hfirst, htexts, rfl⟩ := h
  refine ⟨_, ⟨Text.trimStart first, texts, padded_trimStart hfunction hfirst, htexts, rfl⟩, ?_⟩
  have hline : first ++ '(' :: ([','].intercalate texts ++ [')']) ++ rest =
      first ++ '(' :: [','].intercalate texts ++ ')' :: rest := by simp
  rw [hline, Text.trim_append_cons (by decide), Text.trimStart_append_cons (by decide)]
  simp

/-- Trimming a written line takes blanks off the start of its head and off the end of its
expression. -/
lemma Front.exists_trim (h : Front function parameters subs head block) (expression : List Char) :
    ∃ trimmed, Front function parameters subs trimmed block ∧
      Text.trim (head ++ (block ++ '=' :: expression)) =
        trimmed ++ (block ++ '=' :: Text.trimEnd expression) := by
  obtain ⟨trimmed, htrimmed, htrim⟩ := h.writesHead.exists_trim h.name (block ++ '=' :: expression)
  rw [Text.trimEnd_append_cons (by decide)] at htrim
  exact ⟨trimmed, { h with writesHead := htrimmed }, htrim⟩

/-- A line that is written up to its comment and to blanks at its ends is a record, unless nothing
comes after the equals sign. -/
theorem classify_of_front (h : Front function parameters subs head block)
    (hexpression : Text.trim expression ≠ []) {raw : List Char}
    (hraw : Text.trim (Comment.strip raw) = Text.trim (head ++ (block ++ '=' :: expression))) :
    Line.classify raw = .record (Text.trim (head ++ (block ++ '=' :: expression))) := by
  obtain ⟨trimmed, htrimmed, htrim⟩ := h.exists_trim expression
  have hend : Shape.skipBlanks (Text.trimEnd expression) ≠ [] := by
    refine Shape.skipBlanks_ne_nil ?_
    rwa [← Text.trim_padded (Text.padded_trimEnd expression)]
  have hshape := Shape.isSome_ofText? htrimmed (Text.trimEnd expression)
  rw [Line.classify, hraw, htrim]
  simp [hshape, hend]

/-- Trimming a written line changes nothing about the record it gives. -/
theorem split_trim_of_front (h : Front function parameters subs head block)
    (hnodup : parameters.Nodup) (n : ℕ) (hexpression : Text.trim expression ≠ []) :
    split n (Text.trim (head ++ (block ++ '=' :: expression))) =
      .ok ⟨n, function, parameters, subs, String.ofList (Text.trim expression)⟩ := by
  obtain ⟨trimmed, htrimmed, htrim⟩ := h.exists_trim expression
  rw [htrim, split_of_front htrimmed hnodup,
    ← Text.trim_padded (Text.padded_trimEnd expression), if_neg (by simpa using hexpression)]

/-- However a record is written, with blanks around its parts, escaped number signs and possibly a
comment, the line is taken for a record and gives the record back. -/
theorem split_classify_of_writes {r : Record} (hr : r.Writable) {line comment : List Char}
    (hline : r.Writes line) (hcomment : comment = [] ∨ ∃ more, comment = ' ' :: '#' :: more) :
    ∃ text, Line.classify (Comment.escape line ++ comment) = .record text ∧
      split r.lineNumber text = .ok r := by
  obtain ⟨head, block, expression, hhead, hblock, hexpression, rfl⟩ := hline
  have htrim : Text.trim expression = r.expression.toList :=
    (Text.trim_padded hexpression).trans hr.trimmed
  have hne : Text.trim expression ≠ [] := htrim ▸ hr.expression_ne_nil
  have hstrip : Text.trim (Comment.strip (Comment.escape (head ++ (block ++ '=' :: expression)) ++
      comment)) = Text.trim (head ++ (block ++ '=' :: expression)) := by
    rcases hcomment with rfl | ⟨more, rfl⟩
    · rw [Comment.strip_escape_append _ (by simp), Comment.strip_nil, List.append_nil]
    · have hblank : ∀ c ∈ [' '], Text.isBlank c = true :=
        List.forall_mem_singleton.mpr (by decide)
      rw [Comment.strip_escape_append _ (by simp)]
      exact Text.trim_padded ⟨[], [' '], nofun, hblank, rfl⟩
  have hfront : Front r.name r.parameters r.substitutions head block :=
    ⟨hr.name, hr.parameters_ne_nil, hr.parameters, hr.substitutions, hhead, hblock⟩
  refine ⟨_, classify_of_front hfront hne hstrip, ?_⟩
  rw [split_trim_of_front hfront hr.nodup _ hne, htrim, String.ofList_toList]

theorem split_classify_of_writes_brackets :
    ∃ text, Line.classify " f2 (a,2b ) [ x = g) = \\# , y=2*y]\t= a = [x] \\# (y  # see [1".toList =
        .record text ∧
      split 7 text =
        .ok ⟨7, "f2", ["a", "2b"], [⟨"x", "g) = #"⟩, ⟨"y", "2*y"⟩], "a = [x] # (y"⟩ := by
  have hx : Substitution.Writable ⟨"x", "g) = #"⟩ := by constructor <;> decide
  have hy : Substitution.Writable ⟨"y", "2*y"⟩ := by constructor <;> decide
  have hwritable : Writable
      ⟨7, "f2", ["a", "2b"], [⟨"x", "g) = #"⟩, ⟨"y", "2*y"⟩], "a = [x] # (y"⟩ :=
    ⟨by decide, by decide, by decide, by decide, by simp [hx, hy], by decide, by decide⟩
  have hspace : ∀ c ∈ " ".toList, Shape.isBlank c = true :=
    List.forall_mem_singleton.mpr (by decide)
  have htab : ∀ c ∈ "\t".toList, Shape.isBlank c = true :=
    List.forall_mem_singleton.mpr (by decide)
  have htext : ∀ c ∈ " ".toList, Text.isBlank c = true :=
    List.forall_mem_singleton.mpr (by decide)
  have hhead : WritesHead "f2" ["a", "2b"] " f2 (a,2b )".toList :=
    ⟨" f2 ".toList, ["a".toList, "2b ".toList], ⟨_, _, hspace, hspace, rfl⟩,
      .cons (.refl _ _) (.cons ⟨[], _, nofun, hspace, rfl⟩ .nil), rfl⟩
  have hfirst : WritesSubstitution ⟨"x", "g) = #"⟩ " x = g) = # ".toList :=
    ⟨" x ".toList, " g) = # ".toList, ⟨_, _, hspace, hspace, rfl⟩, ⟨_, _, htext, htext, rfl⟩, rfl⟩
  have hsecond : WritesSubstitution ⟨"y", "2*y"⟩ " y=2*y".toList :=
    ⟨" y".toList, "2*y".toList, ⟨_, [], hspace, nofun, rfl⟩, .refl _ _, rfl⟩
  have hblock : WritesBlock [⟨"x", "g) = #"⟩, ⟨"y", "2*y"⟩] " [ x = g) = # , y=2*y]\t".toList :=
    .present (by decide) hspace htab (.cons hfirst (.cons hsecond .nil))
  have hexpression : Padded Text.isBlank "a = [x] # (y".toList " a = [x] # (y ".toList :=
    ⟨_, _, htext, htext, rfl⟩
  exact split_classify_of_writes hwritable ⟨_, _, _, hhead, hblock, hexpression, rfl⟩
    (.inr ⟨" see [1".toList, rfl⟩)

end Record

end EquationCompiler
