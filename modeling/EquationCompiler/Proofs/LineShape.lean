import EquationCompiler.Proofs.RecordText
import EquationCompiler.Proofs.Spelling

/-!
# Lines of the right shape

The grammar of records, as a relation between a line and its pieces. The pieces that
are found in a line are exactly those that the grammar gives.
-/
namespace EquationCompiler

open Text (Padded)

namespace Shape

/-- What is left of a text when the blanks before it have been skipped. -/
def Begins (cs : List Char) : Prop := ∃ c ∈ cs.head?, isBlank c = false

/-- An entry of a block: a name, an equals sign, and a text that ends at a comma or a bracket. -/
structure MatchesEntry (entry : List Char × List Char) (text : List Char) : Prop where
  name : Record.isName entry.1 = true
  begins : Begins entry.2
  no_comma : ',' ∉ entry.2
  no_opening : '[' ∉ entry.2
  no_closing : ']' ∉ entry.2
  text_eq : ∃ name gap, Padded isBlank entry.1 name ∧ (∀ c ∈ gap, isBlank c = true) ∧
    text = name ++ '=' :: (gap ++ entry.2)

/-- What stands between the parameters and the equals sign. -/
inductive MatchesBlock : List (List Char × List Char) → List Char → Prop
  | missing {gap : List Char} (hgap : ∀ c ∈ gap, isBlank c = true) : MatchesBlock [] gap
  | present {entries : List (List Char × List Char)} {texts : List (List Char)}
      {before after : List Char} (hne : entries ≠ []) (hbefore : ∀ c ∈ before, isBlank c = true)
      (hafter : ∀ c ∈ after, isBlank c = true) (htexts : List.Forall₂ MatchesEntry entries texts) :
      MatchesBlock entries (before ++ '[' :: ([','].intercalate texts ++ ']' :: after))

lemma MatchesBlock.exists_text {entries : List (List Char × List Char)} {block : List Char}
    (h : MatchesBlock entries block) : ∀ entry ∈ entries, ∃ text, MatchesEntry entry text := by
  cases h with
  | missing => exact nofun
  | present _ _ _ htexts => exact forall_mem_of_forall₂ htexts.flip fun text _ _ h => ⟨text, h⟩

/-- The line is put together from the pieces, with blanks between them. -/
structure Matches (s : Shape) (line : List Char) : Prop where
  name : Record.isName s.name = true
  parameters_ne_nil : s.parameters ≠ []
  parameters : ∀ p ∈ s.parameters, Record.isName p = true
  begins : Begins s.expression
  line_eq : ∃ head block gap,
    Record.WritesHead (String.ofList s.name) (s.parameters.map String.ofList) head ∧
      MatchesBlock s.substitutions block ∧ (∀ c ∈ gap, isBlank c = true) ∧
      line = head ++ (block ++ '=' :: (gap ++ s.expression))

section
variable {cs name text : List Char}

lemma Begins.ne_nil (h : Begins cs) : cs ≠ [] := by
  rintro rfl
  obtain ⟨c, hc, -⟩ := h
  cases hc

lemma begins_cons {c : Char} (hc : isBlank c = false) (cs : List Char) : Begins (c :: cs) :=
  ⟨c, rfl, hc⟩

lemma skipBlanks_append {gap : List Char} (hgap : ∀ c ∈ gap, isBlank c = true) (h : Begins cs) :
    skipBlanks (gap ++ cs) = cs := by
  obtain ⟨c, hc, hblank⟩ := h
  obtain ⟨more, rfl⟩ := List.head?_eq_some_iff.mp hc
  rw [skipBlanks, List.dropWhile_append_of_pos hgap,
    List.dropWhile_cons_of_neg (by simp [hblank])]

/-- A padded name before something that does not continue it. -/
lemma takeName?_of_padded (hname : Record.isName name = true) (h : Padded isBlank name text)
    (rest : List Char) (hrest : ∀ d ∈ rest.head?, ¬isNameChar d = true) :
    ∃ gap, (∀ d ∈ gap, isBlank d = true) ∧ takeName? (text ++ rest) = some (name, gap ++ rest) := by
  obtain ⟨left, gap, hleft, hgap, rfl⟩ := h
  obtain ⟨hne, hchars⟩ := Record.isName_iff.mp hname
  have hstart : skipBlanks (left ++ name ++ gap ++ rest) = name ++ (gap ++ rest) := by
    obtain ⟨d, ds, rfl⟩ := List.exists_cons_of_ne_nil hne
    have hd := isBlank_eq_false (isNameChar_spec (hchars d List.mem_cons_self))
    rw [List.append_assoc, List.append_assoc]
    exact skipBlanks_append hleft (begins_cons hd _)
  have hstop : ∀ d ∈ (gap ++ rest).head?, ¬isNameChar d = true := by
    cases gap with
    | nil => exact hrest
    | cons d gap =>
      rintro _ ⟨⟩ hd
      have hblank := hgap d List.mem_cons_self
      rw [isBlank_eq_false (isNameChar_spec hd)] at hblank
      cases hblank
  obtain ⟨htake, hdrop⟩ := Token.span_append hchars hstop
  refine ⟨gap, hgap, ?_⟩
  rw [takeName?]
  simp only [hstart, htake, hdrop]
  simp [hne]

lemma expect?_append {gap : List Char} (hgap : ∀ d ∈ gap, isBlank d = true) {c : Char}
    (hc : isBlank c = false) (rest : List Char) : expect? c (gap ++ c :: rest) = some rest := by
  rw [expect?, skipBlanks_append hgap (begins_cons hc rest)]
  exact if_pos rfl

lemma expect?_of_ne {gap : List Char} (hgap : ∀ d ∈ gap, isBlank d = true) {c d : Char}
    (hd : isBlank d = false) (hne : d ≠ c) (rest : List Char) :
    expect? c (gap ++ d :: rest) = none := by
  rw [expect?, skipBlanks_append hgap (begins_cons hd rest)]
  exact if_neg hne

lemma parameter?_of_padded (hname : Record.isName name = true) (h : Padded isBlank name text) :
    parameter? text = some name := by
  obtain ⟨gap, hgap, htake⟩ := takeName?_of_padded hname h [] nofun
  simp only [List.append_nil] at htake
  have hend : skipBlanks gap = [] := List.dropWhile_eq_nil_iff.mpr hgap
  rw [parameter?, htake]
  exact if_pos (by rw [hend]; rfl)

end

section
variable {cs rest : List Char}

/-- Skipping blanks stops at the first character that is none. -/
lemma skipBlanks_spec (cs : List Char) :
    ∃ gap, (∀ c ∈ gap, isBlank c = true) ∧ cs = gap ++ skipBlanks cs ∧
      (skipBlanks cs ≠ [] → Begins (skipBlanks cs)) := by
  refine ⟨cs.takeWhile isBlank, fun c hc => List.mem_takeWhile_imp hc,
    List.takeWhile_append_dropWhile.symm, fun hne => ?_⟩
  obtain ⟨c, more, hskip⟩ := List.exists_cons_of_ne_nil hne
  have hblank := List.head?_dropWhile_not isBlank cs
  rw [skipBlanks] at hskip
  rw [hskip] at hblank
  exact ⟨c, by rw [skipBlanks, hskip]; rfl, by simpa using hblank⟩

lemma takeName?_eq_some {name : List Char} (h : takeName? cs = some (name, rest)) :
    Record.isName name = true ∧
      ∃ gap, (∀ c ∈ gap, isBlank c = true) ∧ cs = gap ++ (name ++ rest) := by
  obtain ⟨gap, hgap, hcs, -⟩ := skipBlanks_spec cs
  rw [takeName?] at h
  split_ifs at h with hempty
  cases h
  refine ⟨Record.isName_iff.mpr ⟨by simpa using hempty, fun c hc => List.mem_takeWhile_imp hc⟩,
    gap, hgap, ?_⟩
  rw [List.takeWhile_append_dropWhile]
  exact hcs

lemma expect?_eq_some {c : Char} (h : expect? c cs = some rest) :
    ∃ gap, (∀ d ∈ gap, isBlank d = true) ∧ cs = gap ++ c :: rest := by
  obtain ⟨gap, hgap, hcs, -⟩ := skipBlanks_spec cs
  rw [expect?] at h
  split at h
  · next d more hskip =>
    split_ifs at h with hd
    cases h
    exact ⟨gap, hgap, by rw [hcs, hskip, hd]⟩
  · cases h

/-- A name and the blanks around it, up to a character that is expected. -/
lemma padded_of_takeName? {name tail : List Char} {c : Char}
    (hname : takeName? cs = some (name, rest)) (hc : expect? c rest = some tail) :
    Record.isName name = true ∧ ∃ text, Padded isBlank name text ∧ cs = text ++ c :: tail := by
  obtain ⟨hisName, left, hleft, rfl⟩ := takeName?_eq_some hname
  obtain ⟨right, hright, rfl⟩ := expect?_eq_some hc
  exact ⟨hisName, left ++ name ++ right, ⟨left, right, hleft, hright, rfl⟩, by simp⟩

lemma parameter?_eq_some {name : List Char} (h : parameter? cs = some name) :
    Record.isName name = true ∧ Padded isBlank name cs := by
  obtain ⟨⟨first, rest⟩, htake, h⟩ := Option.bind_eq_some_iff.mp h
  dsimp only at h
  split_ifs at h with hempty
  cases h
  obtain ⟨hname, left, hleft, rfl⟩ := takeName?_eq_some htake
  obtain ⟨right, hright, hrest, -⟩ := skipBlanks_spec rest
  rw [List.isEmpty_iff.mp hempty, List.append_nil] at hrest
  subst hrest
  exact ⟨hname, left, _, hleft, hright, by simp⟩

lemma substitution?_eq_some {entry : List Char × List Char} (h : substitution? cs = some entry)
    (hcomma : ',' ∉ cs) (hclosing : ']' ∉ cs) : MatchesEntry entry cs := by
  obtain ⟨⟨name, rest⟩, htake, h⟩ := Option.bind_eq_some_iff.mp h
  obtain ⟨value, hequals, h⟩ := Option.bind_eq_some_iff.mp h
  dsimp only at h
  split_ifs at h with htext
  cases h
  rw [Bool.or_eq_true, not_or, List.isEmpty_iff, List.contains_iff_mem] at htext
  obtain ⟨hname, text, hpadded, rfl⟩ := padded_of_takeName? htake hequals
  obtain ⟨gap, hgap, hvalue, hbegins⟩ := skipBlanks_spec value
  have hno {c : Char} (hc : c ∉ text ++ '=' :: value) : c ∉ skipBlanks value := fun hmem =>
    hc (List.mem_append_right _ (List.mem_cons_of_mem _ ((List.dropWhile_suffix _).mem hmem)))
  exact ⟨hname, hbegins htext.1, hno hcomma, htext.2, hno hclosing, text, gap, hpadded, hgap,
    by rw [← hvalue]⟩

lemma takeBlock?_eq_some {entries : List (List Char × List Char)} {tail : List Char}
    (hblock : takeBlock? cs = some (entries, rest)) (hequals : expect? '=' rest = some tail) :
    ∃ block, MatchesBlock entries block ∧ cs = block ++ '=' :: tail := by
  obtain ⟨after, hafter, rfl⟩ := expect?_eq_some hequals
  rw [takeBlock?] at hblock
  split at hblock
  · next inner hopening =>
    obtain ⟨before, hbefore, rfl⟩ := expect?_eq_some hopening
    obtain ⟨⟨contents, rest⟩, hcut, hblock⟩ := Option.bind_eq_some_iff.mp hblock
    obtain ⟨found, hfound, hblock⟩ := Option.bind_eq_some_iff.mp hblock
    cases hblock
    obtain ⟨rfl, hclosing⟩ := Text.cut?_eq_some hcut
    have htexts := mapM_eq_some_iff.mp hfound
    have hentries : List.Forall₂ MatchesEntry entries (Text.pieces ',' contents) := by
      rw [List.forall₂_iff_zip] at htexts ⊢
      refine ⟨htexts.1, fun {entry piece} hmem => ?_⟩
      have hpiece := (List.of_mem_zip hmem).2
      refine substitution?_eq_some (htexts.2 hmem) (Text.not_mem_of_mem_pieces hpiece) ?_
      exact fun hc => hclosing (Text.mem_of_mem_pieces hpiece hc)
    refine ⟨_, .present ?_ hbefore hafter hentries, ?_⟩
    · rintro rfl
      exact Text.pieces_ne_nil ',' contents (List.forall₂_nil_left_iff.mp hentries)
    · rw [Text.intercalate_pieces]
      simp
  · cases hblock
    exact ⟨after, .missing hafter, rfl⟩

theorem matches_of_ofText? {s : Shape} (h : ofText? cs = some s) : s.Matches cs := by
  obtain ⟨⟨name, rest⟩, htake, h⟩ := Option.bind_eq_some_iff.mp h
  obtain ⟨rest, hopening, h⟩ := Option.bind_eq_some_iff.mp h
  obtain ⟨⟨inside, rest⟩, hcut, h⟩ := Option.bind_eq_some_iff.mp h
  obtain ⟨parameters, hparameters, h⟩ := Option.bind_eq_some_iff.mp h
  obtain ⟨⟨entries, rest⟩, hfound, h⟩ := Option.bind_eq_some_iff.mp h
  obtain ⟨tail, hequals, h⟩ := Option.bind_eq_some_iff.mp h
  dsimp only at h
  split_ifs at h with hempty
  cases h
  obtain ⟨hname, first, hfirst, rfl⟩ := padded_of_takeName? htake hopening
  obtain ⟨rfl, -⟩ := Text.cut?_eq_some hcut
  obtain ⟨block, hblock, rfl⟩ := takeBlock?_eq_some hfound hequals
  obtain ⟨gap, hgap, htail, hbegins⟩ := skipBlanks_spec tail
  have htexts := mapM_eq_some_iff.mp hparameters
  refine ⟨hname, ?_, ?_, hbegins (by simpa using hempty), first ++ '(' :: (inside ++ [')']), block,
    gap, ⟨first, Text.pieces ',' inside, by simpa using hfirst, ?_, ?_⟩, hblock, hgap, ?_⟩
  · rintro rfl
    exact Text.pieces_ne_nil ',' inside (List.forall₂_nil_left_iff.mp htexts)
  · exact forall_mem_of_forall₂ htexts.flip fun _ _ _ hp => (parameter?_eq_some hp).1
  · refine List.forall₂_map_left_iff.mpr (htexts.imp fun p t hp => ?_)
    rw [String.toList_ofList]
    exact (parameter?_eq_some hp).2
  · rw [Text.intercalate_pieces]
  · rw [← htail]
    simp

end

section
variable {entry : List Char × List Char} {text : List Char}

lemma MatchesEntry.not_mem (h : MatchesEntry entry text) {c : Char} (hc : isNameChar c = false)
    (hblank : isBlank c = false) (hequals : c ≠ '=') (hvalue : c ∉ entry.2) : c ∉ text := by
  obtain ⟨name, gap, hname, hgap, rfl⟩ := h.text_eq
  have hpadding : c ∉ gap := fun hmem => by simp [hgap c hmem] at hblank
  simp [Record.not_mem_of_padded h.name hname hc hblank, hequals, hpadding, hvalue]

lemma substitution?_of_matches (h : MatchesEntry entry text) : substitution? text = some entry := by
  obtain ⟨name, gap, hname, hgap, rfl⟩ := h.text_eq
  obtain ⟨left, hleft, htake⟩ := takeName?_of_padded h.name hname ('=' :: (gap ++ entry.2))
    (by rintro _ ⟨⟩; decide)
  have hequals := expect?_append hleft (show isBlank '=' = false by decide) (gap ++ entry.2)
  rw [substitution?, htake]
  simp [hequals, skipBlanks_append hgap h.begins, h.begins.ne_nil, h.no_opening]

variable {entries : List (List Char × List Char)} {texts : List (List Char)}

section
variable (htexts : List.Forall₂ MatchesEntry entries texts)
include htexts

lemma no_opening_entries : '[' ∉ [','].intercalate texts :=
  Text.not_mem_intercalate (forall_mem_of_forall₂ htexts fun _ _ _ h =>
    h.not_mem (by decide) (by decide) (by decide) h.no_opening) (by decide)

lemma no_closing_entries : ']' ∉ [','].intercalate texts :=
  Text.not_mem_intercalate (forall_mem_of_forall₂ htexts fun _ _ _ h =>
    h.not_mem (by decide) (by decide) (by decide) h.no_closing) (by decide)

lemma pieces_entries (hne : entries ≠ []) : Text.pieces ',' ([','].intercalate texts) = texts := by
  refine Text.pieces_intercalate (forall_mem_of_forall₂ htexts fun _ _ _ h =>
    h.not_mem (by decide) (by decide) (by decide) h.no_comma) ?_
  rintro rfl
  exact hne (List.forall₂_nil_right_iff.mp htexts)

end

lemma takeBlock?_of_matches {block : List Char} (h : MatchesBlock entries block)
    (rest : List Char) : ∃ after, (∀ c ∈ after, isBlank c = true) ∧
      takeBlock? (block ++ '=' :: rest) = some (entries, after ++ '=' :: rest) := by
  cases h with
  | missing hgap =>
    have hopening : expect? '[' (block ++ '=' :: rest) = none :=
      expect?_of_ne hgap (by decide) (by decide) rest
    exact ⟨block, hgap, by rw [takeBlock?, hopening]⟩
  | @present _ texts before after hne hbefore hafter htexts =>
    have hline : before ++ '[' :: ([','].intercalate texts ++ ']' :: after) ++ '=' :: rest =
        before ++ '[' :: ([','].intercalate texts ++ ']' :: (after ++ '=' :: rest)) := by simp
    have hentries : texts.mapM substitution? = some entries :=
      mapM_eq_some_iff.mpr (htexts.imp fun _ _ => substitution?_of_matches)
    refine ⟨after, hafter, ?_⟩
    rw [hline, takeBlock?, expect?_append hbefore (by decide)]
    simp [no_closing_entries htexts, pieces_entries htexts hne, hentries]

/-- Past a written head the shape of a line depends on what follows. -/
theorem ofText?_of_writesHead {function : String} {parameters : List String} {head : List Char}
    (hfunction : Record.isName function.toList = true) (hne : parameters ≠ [])
    (hparameters : ∀ p ∈ parameters, Record.isName p.toList = true)
    (h : Record.WritesHead function parameters head) (rest : List Char) :
    ofText? (head ++ rest) = (takeBlock? rest).bind fun (subs, rest) =>
      (expect? '=' rest).bind fun rest =>
        if (skipBlanks rest).isEmpty then none
        else some ⟨function.toList, parameters.map String.toList, subs, skipBlanks rest⟩ := by
  obtain ⟨first, texts, hfirst, htexts, rfl⟩ := h
  have hpieces : texts.mapM parameter? = some (parameters.map String.toList) := by
    refine mapM_of_forall₂ (List.forall₂_map_left_iff.mpr htexts) ?_
    rw [List.forall_mem_map]
    exact fun p hp t ht => parameter?_of_padded (hparameters p hp) ht
  have hclosing : ')' ∉ [','].intercalate texts := Text.not_mem_intercalate
    (Record.not_mem_parameters hparameters htexts (by decide) (by decide)) (by decide)
  obtain ⟨gap, hgap, htake⟩ := takeName?_of_padded hfunction hfirst
    ('(' :: ([','].intercalate texts ++ ')' :: rest)) (by rintro _ ⟨⟩; decide)
  have hopening := expect?_append hgap (show isBlank '(' = false by decide)
    ([','].intercalate texts ++ ')' :: rest)
  have hline : first ++ '(' :: ([','].intercalate texts ++ [')']) ++ rest =
      first ++ '(' :: ([','].intercalate texts ++ ')' :: rest) := by simp
  rw [hline, ofText?, htake]
  simp only [Option.bind_eq_bind, Option.bind_some, hopening, Text.cut?_append_cons _ hclosing,
    Record.pieces_parameters hparameters htexts hne, hpieces]

/-- The pieces that are found in a line are exactly those that the grammar gives. -/
theorem ofText?_eq_some_iff {s : Shape} {line : List Char} :
    ofText? line = some s ↔ s.Matches line := by
  refine ⟨matches_of_ofText?, fun h => ?_⟩
  obtain ⟨head, block, gap, hhead, hblock, hgap, rfl⟩ := h.line_eq
  obtain ⟨after, hafter, htakeBlock⟩ := takeBlock?_of_matches hblock (gap ++ s.expression)
  have hequals := expect?_append hafter (show isBlank '=' = false by decide) (gap ++ s.expression)
  have hhead := ofText?_of_writesHead (by simpa using h.name) (by simpa using h.parameters_ne_nil)
    (by simpa using h.parameters) hhead (block ++ '=' :: (gap ++ s.expression))
  rw [hhead, htakeBlock]
  simp [hequals, skipBlanks_append hgap h.begins, h.begins.ne_nil, Function.comp_def]

end

end Shape

lemma Line.shape_of_classify {raw text : List Char} (h : classify raw = .record text) :
    Text.trim (Comment.strip raw) = text ∧ (Shape.ofText? text).isSome = true := by
  rw [classify] at h
  split_ifs at h with hblank hshape
  cases h
  exact ⟨rfl, hshape⟩

lemma Line.classify_of_shape {raw text : List Char} (h : Text.trim (Comment.strip raw) = text)
    (hne : text ≠ []) (hshape : Shape.ofText? text = none) : classify raw = .skipped text := by
  rw [classify, h]
  simp [hne, hshape]

end EquationCompiler
