import EquationCompiler.Proofs.LineShape

/-!
# Taking lines apart

A line of the right shape is taken apart by looking for the first brackets and equals
signs in it. This gives the pieces of the grammar without the white space around them,
and there are only two things to object to: a parameter that is repeated, and a
substitution whose text is white space. The grammar takes white space for text unless
it is a space, a tab or a carriage return.
-/
namespace EquationCompiler

open Text (Padded)

/-- The entry of a block as a substitution. -/
def Substitution.ofEntry (entry : List Char × List Char) : Substitution :=
  ⟨String.ofList entry.1, String.ofList (Text.trim entry.2)⟩

/-- Its text may not be white space. -/
def Substitution.checked (entry : List Char × List Char) : Except RecordFault Substitution :=
  if Text.trim entry.2 = [] then .error (.emptySubstitution (String.ofList entry.1))
  else .ok (ofEntry entry)

/-- The pieces of a line as a record. -/
def Shape.toRecord (n : ℕ) (s : Shape) : Record where
  lineNumber := n
  name := String.ofList s.name
  parameters := s.parameters.map String.ofList
  substitutions := s.substitutions.map Substitution.ofEntry
  expression := String.ofList (Text.trim s.expression)

/-- What there is to object to. Parameters are looked at first. -/
inductive Shape.Faulty (s : Shape) : RecordFault → Prop
  | repeated {before after : List String} {name : String}
      (hparameters : s.parameters.map String.ofList = before ++ name :: after)
      (hbefore : before.Nodup) (hname : name ∈ before) : Faulty s (.duplicateParameter name)
  | blank {before after : List (List Char × List Char)} {entry : List Char × List Char}
      (hparameters : s.parameters.Nodup) (hentries : s.substitutions = before ++ entry :: after)
      (hbefore : ∀ e ∈ before, Text.trim e.2 ≠ []) (hentry : Text.trim entry.2 = []) :
      Faulty s (.emptySubstitution (String.ofList entry.1))

namespace Record

lemma firstDuplicate?_eq_none_iff {seen names : List String} :
    firstDuplicate? seen names = none ↔ names.Nodup ∧ ∀ name ∈ names, name ∉ seen := by
  induction names generalizing seen with
  | nil => simp [firstDuplicate?]
  | cons first names ih =>
    by_cases hseen : first ∈ seen
    · simp [firstDuplicate?, hseen]
    · have hstep : firstDuplicate? seen (first :: names) =
          firstDuplicate? (first :: seen) names := by simp [firstDuplicate?, hseen]
      rw [hstep, ih, List.nodup_cons, List.forall_mem_cons]
      simp only [List.mem_cons, not_or]
      constructor
      · rintro ⟨hnodup, hnew⟩
        exact ⟨⟨fun hmem => (hnew first hmem).1 rfl, hnodup⟩, hseen,
          fun name hname => (hnew name hname).2⟩
      · rintro ⟨⟨hfirst, hnodup⟩, -, hnew⟩
        exact ⟨hnodup, fun name hname => ⟨fun h => hfirst (h ▸ hname), hnew name hname⟩⟩

/-- The name that is found is the first that stands in the list before. -/
lemma firstDuplicate?_eq_some_iff {seen names : List String} {name : String} :
    firstDuplicate? seen names = some name ↔ ∃ before after, names = before ++ name :: after ∧
      firstDuplicate? seen before = none ∧ (name ∈ seen ∨ name ∈ before) := by
  induction names generalizing seen with
  | nil => simp [firstDuplicate?]
  | cons first names ih =>
    rw [firstDuplicate?]
    split_ifs with hseen
    · rw [List.contains_iff_mem] at hseen
      constructor
      · rintro ⟨⟩
        exact ⟨[], names, rfl, rfl, .inl hseen⟩
      · rintro ⟨before, after, hnames, hbefore, -⟩
        cases before with
        | nil =>
          cases hnames
          rfl
        | cons b before =>
          cases hnames
          simp [firstDuplicate?, hseen] at hbefore
    · rw [ih]
      constructor
      · rintro ⟨before, after, rfl, hbefore, hname⟩
        refine ⟨first :: before, after, rfl, ?_, ?_⟩
        · rw [firstDuplicate?, if_neg hseen, hbefore]
        · rcases hname with hname | hname
          · exact (List.mem_cons.mp hname).elim (fun h => .inr (by simp [h])) .inl
          · exact .inr (List.mem_cons_of_mem _ hname)
      · rintro ⟨before, after, hnames, hbefore, hname⟩
        cases before with
        | nil =>
          cases hnames
          simp only [List.contains_iff_mem, List.not_mem_nil, or_false] at hseen hname
          exact absurd hname hseen
        | cons b before =>
          cases hnames
          rw [firstDuplicate?, if_neg hseen] at hbefore
          refine ⟨before, after, rfl, hbefore, ?_⟩
          simpa [or_assoc, or_left_comm] using hname

section
variable {head gap before contents : List Char} (hhead : ')' ∉ head)
include hhead

/-- A bracket of the expression comes after the equals sign. -/
lemma extractBlock_gap (hgap : ∀ c ∈ gap, Shape.isBlank c = true) (expression : List Char) :
    extractBlock (head ++ ')' :: (gap ++ '=' :: expression)) =
      .ok (head ++ ')' :: (gap ++ '=' :: expression), none) := by
  have hopening : '[' ∉ gap ++ ['='] := by
    simp only [List.mem_append, List.mem_singleton, not_or]
    exact ⟨fun hmem => absurd (hgap _ hmem) (by decide), by decide⟩
  rw [extractBlock, Text.cut?_append_cons _ hhead, ← List.singleton_append, ← List.append_assoc gap]
  dsimp only
  rw [Text.cut?_append hopening]
  cases Text.cut? '[' expression with
  | none => rfl
  | some p => simp

lemma extractBlock_brackets (hbefore : ∀ c ∈ before, Shape.isBlank c = true)
    (hopening : '[' ∉ contents) (hclosing : ']' ∉ contents) (rest : List Char) :
    extractBlock (head ++ ')' :: (before ++ '[' :: (contents ++ ']' :: rest))) =
      .ok (head ++ ')' :: (before ++ rest), some contents) := by
  have hbracket : '[' ∉ before := fun hmem => absurd (hbefore _ hmem) (by decide)
  have hequals : '=' ∉ before := fun hmem => absurd (hbefore _ hmem) (by decide)
  rw [extractBlock, Text.cut?_append_cons _ hhead]
  simp [hbracket, hequals, hclosing, hopening]

end

/-- The parameters stand before the closing parenthesis, and blanks may follow it. -/
lemma dropClosing?_of_writes {parameters : List String} {texts : List (List Char)}
    (hne : parameters ≠ []) (hparameters : ∀ p ∈ parameters, isName p.toList = true)
    (htexts : List.Forall₂ (fun p t => Padded Shape.isBlank p.toList t) parameters texts)
    {gap : List Char} (hgap : ∀ c ∈ gap, Shape.isBlank c = true) :
    ∃ inside, dropClosing? ([','].intercalate texts ++ ')' :: gap) = some inside ∧
      (Text.pieces ',' inside).mapM (toName .parameter) = .ok parameters := by
  obtain ⟨trimmed, htrimmed, hstart⟩ := exists_trimStart hparameters htexts hne
  have hend : Text.trimEnd gap = [] :=
    Text.trimEnd_of_blank fun c hc => Shape.isBlank_text (hgap c hc)
  refine ⟨[','].intercalate trimmed, ?_, ?_⟩
  · rw [dropClosing?, Text.trim_append_cons (by decide), hstart, hend]
    simp
  · rw [pieces_parameters hparameters htrimmed hne]
    exact mapM_of_forall₂ htrimmed fun p hp _ ht => toName_of_padded _ (hparameters p hp) ht

/-- A separator that stands neither in a name nor between two of them. -/
lemma not_mem_names {function : String} {parameters : List String} {first : List Char}
    {texts : List (List Char)} (hfunction : isName function.toList = true)
    (hparameters : ∀ p ∈ parameters, isName p.toList = true)
    (hfirst : Padded Shape.isBlank function.toList first)
    (htexts : List.Forall₂ (fun p t => Padded Shape.isBlank p.toList t) parameters texts)
    {c : Char} (hc : Shape.isNameChar c = false) (hblank : Shape.isBlank c = false)
    (hopening : c ≠ '(') (hcomma : c ≠ ',') : c ∉ first ++ '(' :: [','].intercalate texts := by
  rw [List.mem_append, List.mem_cons, not_or, not_or]
  exact ⟨not_mem_of_padded hfunction hfirst hc hblank, hopening, Text.not_mem_intercalate
    (not_mem_parameters hparameters htexts hc hblank) hcomma⟩

/-- A head ends with its only closing parenthesis. -/
lemma WritesHead.exists_closing {function : String} {parameters : List String} {head : List Char}
    (hfunction : isName function.toList = true)
    (hparameters : ∀ p ∈ parameters, isName p.toList = true)
    (h : WritesHead function parameters head) :
    ∃ start, ')' ∉ start ∧ ∀ rest, head ++ rest = start ++ ')' :: rest := by
  obtain ⟨first, texts, hfirst, htexts, rfl⟩ := h
  exact ⟨_, not_mem_names hfunction hparameters hfirst htexts (by decide) (by decide) (by decide)
    (by decide), fun rest => by simp⟩

/-- Once the block has been cut out of the line, what is left is a head and an expression. -/
lemma split_of_extractBlock {function : String} {parameters : List String} {head gap : List Char}
    (hfunction : isName function.toList = true) (hne : parameters ≠ [])
    (hparameters : ∀ p ∈ parameters, isName p.toList = true)
    (hhead : WritesHead function parameters head) (hgap : ∀ c ∈ gap, Shape.isBlank c = true)
    {line expression : List Char} {contents : Option (List Char)}
    (hextract : extractBlock line = .ok (head ++ (gap ++ '=' :: expression), contents)) (n : ℕ) :
    split n line =
      match firstDuplicate? [] parameters with
      | some name => .error (.duplicateParameter name)
      | none =>
        if (Text.trim expression).isEmpty then .error .emptyExpression
        else (match contents with
          | some contents => (Text.pieces ',' contents).mapM toSubstitution
          | none => .ok []).map fun subs =>
            ⟨n, function, parameters, subs, String.ofList (Text.trim expression)⟩ := by
  obtain ⟨first, texts, hfirst, htexts, rfl⟩ := hhead
  obtain ⟨inside, hinside, hmapM⟩ := dropClosing?_of_writes hne hparameters htexts hgap
  have hopening : '(' ∉ first := not_mem_of_padded hfunction hfirst (by decide) (by decide)
  have hequals : '=' ∉ first ++ '(' :: ([','].intercalate texts ++ ')' :: gap) := by
    have hgap_equals : '=' ∉ gap := fun hmem => absurd (hgap _ hmem) (by decide)
    have hhead_equals := not_mem_names hfunction hparameters hfirst htexts
      (show Shape.isNameChar '=' = false by decide) (by decide) (by decide) (by decide)
    simpa [hgap_equals] using hhead_equals
  have hline : first ++ '(' :: ([','].intercalate texts ++ [')']) ++ (gap ++ '=' :: expression) =
      first ++ '(' :: ([','].intercalate texts ++ ')' :: gap) ++ '=' :: expression := by simp
  rw [hline] at hextract
  rw [split, hextract]
  simp only [bind, Except.bind, Text.cut?_append_cons _ hequals, Text.cut?_append_cons _ hopening,
    toName_of_padded .function hfunction hfirst, hinside, hmapM]
  cases firstDuplicate? [] parameters with
  | some name => rfl
  | none =>
    dsimp only
    split_ifs
    · rfl
    · cases contents with
      | none => rfl
      | some contents => cases (Text.pieces ',' contents).mapM toSubstitution <;> rfl

section
variable {entries : List (List Char × List Char)}

lemma toSubstitution_of_matches {entry : List Char × List Char} {text : List Char}
    (h : Shape.MatchesEntry entry text) : toSubstitution text = Substitution.checked entry := by
  obtain ⟨name, gap, hname, hgap, rfl⟩ := h.text_eq
  have hequals : '=' ∉ name := not_mem_of_padded h.name hname (by decide) (by decide)
  have hisName : toName .substitution name = .ok (String.ofList entry.1) :=
    toName_of_padded .substitution (by simpa using h.name) (by simpa using hname)
  rw [toSubstitution, Text.cut?_append_cons _ hequals, Substitution.checked]
  simp only [hisName, Shape.trim_append hgap, List.isEmpty_iff, bind, Except.bind, pure,
    Except.pure]
  split_ifs <;> rfl

lemma mapM_toSubstitution {texts : List (List Char)}
    (h : List.Forall₂ Shape.MatchesEntry entries texts) :
    texts.mapM toSubstitution = entries.mapM Substitution.checked := by
  induction h with
  | nil => rfl
  | cons hentry _ ih => rw [List.mapM_cons, List.mapM_cons, toSubstitution_of_matches hentry, ih]

lemma checked_eq_ok_iff {entry : List Char × List Char} {s : Substitution} :
    Substitution.checked entry = .ok s ↔ Text.trim entry.2 ≠ [] ∧ .ofEntry entry = s := by
  rw [Substitution.checked]
  split_ifs with hblank <;> simp [hblank]

lemma checked_eq_error_iff {entry : List Char × List Char} {fault : RecordFault} :
    Substitution.checked entry = .error fault ↔
      Text.trim entry.2 = [] ∧ fault = .emptySubstitution (String.ofList entry.1) := by
  rw [Substitution.checked]
  split_ifs with hblank <;> simp [hblank, eq_comm]

lemma mapM_checked_eq_ok_iff {subs : List Substitution} :
    entries.mapM Substitution.checked = .ok subs ↔
      (∀ e ∈ entries, Text.trim e.2 ≠ []) ∧ entries.map .ofEntry = subs := by
  simp only [mapM_eq_ok_iff, checked_eq_ok_iff, List.forall₂_and_left]
  rw [← List.forall₂_map_left_iff (R := Eq), List.forall₂_eq_eq_eq]

/-- A matched block is cut out of its line and gives its substitutions. -/
lemma extractBlock_of_matches {block : List Char} (h : Shape.MatchesBlock entries block)
    {head : List Char} (hhead : ')' ∉ head) (expression : List Char) :
    ∃ gap contents, (∀ c ∈ gap, Shape.isBlank c = true) ∧
      extractBlock (head ++ ')' :: (block ++ '=' :: expression)) =
        .ok (head ++ ')' :: (gap ++ '=' :: expression), contents) ∧
      (match contents with
        | some contents => (Text.pieces ',' contents).mapM toSubstitution
        | none => .ok []) = entries.mapM Substitution.checked := by
  cases h with
  | missing hgap => exact ⟨block, none, hgap, extractBlock_gap hhead hgap expression, rfl⟩
  | @present _ texts before after hne hbefore hafter htexts =>
    have hblock : before ++ '[' :: ([','].intercalate texts ++ ']' :: after) ++ '=' :: expression =
        before ++ '[' :: ([','].intercalate texts ++ ']' :: (after ++ '=' :: expression)) := by
      simp
    refine ⟨before ++ after, some ([','].intercalate texts), ?_, ?_, ?_⟩
    · simp only [List.mem_append]
      exact fun c hc => hc.elim (hbefore c) (hafter c)
    · rw [hblock, extractBlock_brackets hhead hbefore (Shape.no_opening_entries htexts)
        (Shape.no_closing_entries htexts), List.append_assoc]
    · dsimp only
      rw [Shape.pieces_entries htexts hne, mapM_toSubstitution htexts]

end

/-- Only the names of the parameters and the texts decide about a line of the right shape. -/
theorem split_of_block {function : String} {parameters : List String} {head block : List Char}
    {entries : List (List Char × List Char)} (hfunction : isName function.toList = true)
    (hne : parameters ≠ []) (hparameters : ∀ p ∈ parameters, isName p.toList = true)
    (hhead : WritesHead function parameters head) (hblock : Shape.MatchesBlock entries block)
    (n : ℕ) (expression : List Char) :
    split n (head ++ (block ++ '=' :: expression)) =
      match firstDuplicate? [] parameters with
      | some name => .error (.duplicateParameter name)
      | none =>
        if (Text.trim expression).isEmpty then .error .emptyExpression
        else (entries.mapM Substitution.checked).map fun subs =>
          ⟨n, function, parameters, subs, String.ofList (Text.trim expression)⟩ := by
  obtain ⟨start, hclosing, hstart⟩ := hhead.exists_closing hfunction hparameters
  obtain ⟨gap, contents, hgap, hextract, hcontents⟩ :=
    extractBlock_of_matches hblock hclosing expression
  rw [← hstart, ← hstart] at hextract
  rw [split_of_extractBlock hfunction hne hparameters hhead hgap hextract n, hcontents]

lemma firstDuplicate?_toRecord_eq_none_iff {s : Shape} (n : ℕ) :
    firstDuplicate? [] (s.toRecord n).parameters = none ↔ s.parameters.Nodup := by
  rw [firstDuplicate?_eq_none_iff, Shape.toRecord, List.nodup_map_iff fun _ _ =>
    String.ofList_injective]
  simp

lemma firstDuplicate?_toRecord_eq_some_iff {s : Shape} (n : ℕ) {name : String} :
    firstDuplicate? [] (s.toRecord n).parameters = some name ↔
      s.Faulty (.duplicateParameter name) := by
  rw [firstDuplicate?_eq_some_iff]
  constructor
  · rintro ⟨before, after, hparameters, hbefore, hname⟩
    exact .repeated hparameters (firstDuplicate?_eq_none_iff.mp hbefore).1 (by simpa using hname)
  · rintro ⟨hparameters, hbefore, hname⟩
    exact ⟨_, _, hparameters, firstDuplicate?_eq_none_iff.mpr ⟨hbefore, by simp⟩, .inr hname⟩

lemma mapM_checked_eq_error_iff {s : Shape} (hnodup : s.parameters.Nodup) {fault : RecordFault} :
    s.substitutions.mapM Substitution.checked = .error fault ↔ s.Faulty fault := by
  rw [mapM_eq_error_iff]
  constructor
  · rintro ⟨before, entry, after, hentries, hbefore, hentry⟩
    obtain ⟨hblank, rfl⟩ := checked_eq_error_iff.mp hentry
    refine .blank hnodup hentries (fun b hb => ?_) hblank
    obtain ⟨t, ht⟩ := hbefore b hb
    exact (checked_eq_ok_iff.mp ht).1
  · intro hfaulty
    cases hfaulty with
    | repeated hparameters hbefore hname =>
      have hrepeated := (firstDuplicate?_toRecord_eq_some_iff 0).mpr
        (.repeated hparameters hbefore hname)
      cases hrepeated.symm.trans ((firstDuplicate?_toRecord_eq_none_iff 0).mpr hnodup)
    | blank _ hentries hbefore hentry =>
      exact ⟨_, _, _, hentries, fun b hb => ⟨_, checked_eq_ok_iff.mpr ⟨hbefore b hb, rfl⟩⟩,
        checked_eq_error_iff.mpr ⟨hentry, rfl⟩⟩

section
variable {s : Shape} {text : List Char} (h : s.Matches text)
  (hexpression : Text.trim s.expression ≠ [])
include h hexpression

lemma split_of_matches (n : ℕ) :
    split n text = match firstDuplicate? [] (s.toRecord n).parameters with
      | some name => .error (.duplicateParameter name)
      | none => (s.substitutions.mapM Substitution.checked).map fun subs =>
          { s.toRecord n with substitutions := subs } := by
  obtain ⟨head, block, gap, hhead, hblock, hgap, rfl⟩ := h.line_eq
  rw [split_of_block (by simpa using h.name) (by simpa using h.parameters_ne_nil)
    (by simpa using h.parameters) hhead hblock, Shape.trim_append hgap]
  simp only [List.isEmpty_iff, hexpression, if_false]
  rfl

theorem split_eq_ok_iff {n : ℕ} {r : Record} :
    split n text = .ok r ↔ s.parameters.Nodup ∧ (∀ e ∈ s.substitutions, Text.trim e.2 ≠ []) ∧
      r = s.toRecord n := by
  rw [split_of_matches h hexpression n, ← firstDuplicate?_toRecord_eq_none_iff n]
  cases hnames : firstDuplicate? [] (s.toRecord n).parameters with
  | some name => exact ⟨nofun, nofun⟩
  | none =>
    cases hsubs : s.substitutions.mapM Substitution.checked with
    | error cause =>
      refine ⟨nofun, fun ⟨_, htexts, _⟩ => ?_⟩
      rw [mapM_checked_eq_ok_iff.mpr ⟨htexts, rfl⟩] at hsubs
      cases hsubs
    | ok subs =>
      obtain ⟨htexts, rfl⟩ := mapM_checked_eq_ok_iff.mp hsubs
      constructor
      · rintro ⟨⟩
        exact ⟨rfl, htexts, rfl⟩
      · rintro ⟨-, -, rfl⟩
        rfl

theorem split_eq_error_iff {n : ℕ} {fault : RecordFault} :
    split n text = .error fault ↔ s.Faulty fault := by
  rw [split_of_matches h hexpression n]
  cases hnames : firstDuplicate? [] (s.toRecord n).parameters with
  | some name =>
    constructor
    · rintro ⟨⟩
      exact (firstDuplicate?_toRecord_eq_some_iff n).mp hnames
    · intro hfaulty
      cases hfaulty with
      | repeated hparameters hbefore hname =>
        have hrepeated := (firstDuplicate?_toRecord_eq_some_iff n).mpr
          (.repeated hparameters hbefore hname)
        cases hnames.symm.trans hrepeated
        rfl
      | blank hparameters =>
        cases hnames.symm.trans ((firstDuplicate?_toRecord_eq_none_iff n).mpr hparameters)
  | none =>
    rw [← mapM_checked_eq_error_iff ((firstDuplicate?_toRecord_eq_none_iff n).mp hnames)]
    cases s.substitutions.mapM Substitution.checked <;> simp [Except.map]

end

lemma writable_ofEntry {name text : List Char} (hname : isName name = true)
    (htext : Text.trim text ≠ []) (hcomma : ',' ∉ text) (hopening : '[' ∉ text)
    (hclosing : ']' ∉ text) : (Substitution.ofEntry (name, text)).Writable := by
  have hno {c : Char} (hc : c ∉ text) : c ∉ (String.ofList (Text.trim text)).toList := by
    rw [String.toList_ofList]
    exact fun hmem => hc (Text.mem_of_mem_trim hmem)
  refine ⟨?_, ?_, ?_, hno hcomma, hno hopening, hno hclosing⟩
  · rwa [Substitution.ofEntry, String.toList_ofList]
  · rwa [Substitution.ofEntry, String.toList_ofList]
  · rw [Substitution.ofEntry, String.toList_ofList, Text.trim_trim]

/-- A record that is read off a line can be written again. -/
lemma writable_toRecord {s : Shape} {text : List Char} (h : s.Matches text)
    (hparameters : s.parameters.Nodup) (htexts : ∀ e ∈ s.substitutions, Text.trim e.2 ≠ [])
    (hexpression : Text.trim s.expression ≠ []) (n : ℕ) : (s.toRecord n).Writable := by
  obtain ⟨head, block, gap, -, hblock, -⟩ := h.line_eq
  have hnodup : (s.toRecord n).parameters.Nodup :=
    (firstDuplicate?_eq_none_iff.mp ((firstDuplicate?_toRecord_eq_none_iff n).mpr hparameters)).1
  refine ⟨by simpa [Shape.toRecord] using h.name,
    by simpa [Shape.toRecord] using h.parameters_ne_nil,
    by simpa [Shape.toRecord] using h.parameters, hnodup, ?_,
    by simpa [Shape.toRecord] using hexpression, by simp [Shape.toRecord]⟩
  rw [Shape.toRecord, List.forall_mem_map]
  intro entry hentry
  obtain ⟨t, ht⟩ := hblock.exists_text entry hentry
  exact writable_ofEntry ht.name (htexts entry hentry) ht.no_comma ht.no_opening ht.no_closing

/-- A line that has been trimmed does not end in white space. -/
lemma trim_expression_ne_nil {s : Shape} {text : List Char} (h : s.Matches text)
    (htrim : Text.trim text = text) : Text.trim s.expression ≠ [] := by
  intro hblank
  obtain ⟨head, block, gap, -, -, hgap, rfl⟩ := h.line_eq
  have hafter : ∀ c ∈ gap ++ s.expression, Text.isBlank c = true := by
    simp only [List.mem_append]
    exact fun c hc => hc.elim (fun hc => Shape.isBlank_text (hgap c hc))
      (Text.blank_of_trim_eq_nil hblank c)
  rw [← List.append_assoc, Text.trim_append_cons (by decide), Text.trimEnd_of_blank hafter] at htrim
  have hlength := congrArg List.length htrim
  have hstart : (Text.trimStart (head ++ block)).length ≤ (head ++ block).length :=
    (List.dropWhile_suffix _).length_le
  have hne := List.length_pos_iff.mpr h.begins.ne_nil
  simp only [List.length_append, List.length_cons, List.length_nil] at hlength hstart
  omega

/-- A line that is taken for a record has the shape of one and has an expression. -/
lemma matches_of_classify {raw text : List Char} (h : Line.classify raw = .record text) :
    ∃ s : Shape, Shape.ofText? text = some s ∧ s.Matches text ∧ Text.trim s.expression ≠ [] := by
  obtain ⟨htrim, hshape⟩ := Line.shape_of_classify h
  obtain ⟨s, hs⟩ := Option.isSome_iff_exists.mp hshape
  have hmatches := Shape.ofText?_eq_some_iff.mp hs
  exact ⟨s, hs, hmatches, trim_expression_ne_nil hmatches (htrim ▸ Text.trim_trim _)⟩

theorem writable_of_split {raw text : List Char} (h : Line.classify raw = .record text) {n : ℕ}
    {r : Record} (hr : split n text = .ok r) : r.Writable := by
  obtain ⟨s, -, hmatches, hexpression⟩ := matches_of_classify h
  obtain ⟨hparameters, htexts, rfl⟩ := (split_eq_ok_iff hmatches hexpression).mp hr
  exact writable_toRecord hmatches hparameters htexts hexpression n

/-- A line that is taken for a record is taken apart into the pieces of the grammar without the
white space around them, unless there is something to object to. The record can be written again: it
has names for names, and no text in it is empty. -/
theorem split_of_classify {raw text : List Char} (h : Line.classify raw = .record text) (n : ℕ) :
    ∃ s : Shape, Shape.ofText? text = some s ∧ s.Matches text ∧
      (∀ r, split n text = .ok r ↔ s.parameters.Nodup ∧
        (∀ e ∈ s.substitutions, Text.trim e.2 ≠ []) ∧ r = s.toRecord n) ∧
      (∀ fault, split n text = .error fault ↔ s.Faulty fault) ∧
      ∀ r, split n text = .ok r → r.Writable := by
  obtain ⟨s, hs, hmatches, hexpression⟩ := matches_of_classify h
  exact ⟨s, hs, hmatches, fun _ => split_eq_ok_iff hmatches hexpression,
    fun _ => split_eq_error_iff hmatches hexpression, fun _ => writable_of_split h⟩

/-- Brackets and equals signs in the expression, and white space that is no blank of the grammar. -/
theorem split_of_classify_white_space :
    Line.classify "\u3000f2\t(a,2b )[x = g) =\u2003y ,y=\u00a02]\r= [a] = x (\u00a0 # note".toList =
        .record "f2\t(a,2b )[x = g) =\u2003y ,y=\u00a02]\r= [a] = x (".toList ∧
      split 7 "f2\t(a,2b )[x = g) =\u2003y ,y=\u00a02]\r= [a] = x (".toList =
        .ok ⟨7, "f2", ["a", "2b"], [⟨"x", "g) =\u2003y"⟩, ⟨"y", "2"⟩], "[a] = x ("⟩ := by
  have hline : Line.classify
      "\u3000f2\t(a,2b )[x = g) =\u2003y ,y=\u00a02]\r= [a] = x (\u00a0 # note".toList =
        .record "f2\t(a,2b )[x = g) =\u2003y ,y=\u00a02]\r= [a] = x (".toList := by decide +kernel
  obtain ⟨s, hs, -, hok, -⟩ := split_of_classify hline 7
  have hshape : Shape.ofText? "f2\t(a,2b )[x = g) =\u2003y ,y=\u00a02]\r= [a] = x (".toList =
      some ⟨"f2".toList, ["a".toList, "2b".toList],
        [("x".toList, "g) =\u2003y ".toList), ("y".toList, "\u00a02".toList)],
        "[a] = x (".toList⟩ := by decide +kernel
  cases hs.symm.trans hshape
  exact ⟨hline, (hok _).mpr ⟨by decide, by decide, by decide⟩⟩

/-- A no-break space is text for the grammar, but as the text of a substitution it is nothing. -/
theorem split_blank_substitution :
    Line.classify "f(a) [x =\u00a0] = a".toList = .record "f(a) [x =\u00a0] = a".toList ∧
      Shape.ofText? "f(a) [x =\u00a0] = a".toList =
        some ⟨"f".toList, ["a".toList], [("x".toList, "\u00a0".toList)], "a".toList⟩ ∧
      ["a".toList].Nodup ∧
      split 1 "f(a) [x =\u00a0] = a".toList = .error (.emptySubstitution "x") := by
  decide +kernel

end Record

end EquationCompiler
