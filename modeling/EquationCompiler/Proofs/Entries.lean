import EquationCompiler.Report

/-!
# The entries of a document

The pass over a document notes what every line gives, one line at a time. Seen as a
whole it is the report of the list of entries: all of it with best effort, where
every failure is confined to its record, and otherwise up to the first failure.
-/
namespace EquationCompiler

/-- Whatever the computation fails with is confined to one record. -/
def Confined {β : Type} (x : Except Failure β) : Prop :=
  ∀ cause, x = .error cause → cause.isRecordLevel = true

namespace Confined
variable {β γ : Type}

theorem ok (b : β) : Confined (.ok b) := nofun

theorem bind {x : Except Failure β} {f : β → Except Failure γ} (hx : Confined x)
    (hf : ∀ b, Confined (f b)) : Confined (x >>= f) := by
  intro cause h
  cases x with
  | ok b => exact hf b cause h
  | error other =>
    cases h
    exact hx cause rfl

theorem foldlM {f : β → γ → Except Failure β} (hf : ∀ b c, Confined (f b c)) (cs : List γ)
    (b : β) : Confined (cs.foldlM f b) := by
  induction cs generalizing b with
  | nil => exact ok b
  | cons c cs ih =>
    rw [List.foldlM_cons]
    exact (hf b c).bind ih

end Confined

variable {α : Type}

namespace Entry

def equation? : Entry α → Option (Equation α)
  | equation e => some e
  | _ => none

def diagnostic? : Entry α → Option Diagnostic
  | equation _ => none
  | skipped n text => some (.skipped n text)
  | failed n cause => some (.rejected n cause)

def failure? : Entry α → Option Failure
  | failed _ cause => some cause
  | _ => none

def lineNumber : Entry α → Nat
  | equation e => e.lineNumber
  | skipped n _ | failed n _ => n

theorem equation?_eq_some {entry : Entry α} {e : Equation α} :
    entry.equation? = some e ↔ entry = equation e := by
  cases entry <;> simp [equation?]

theorem lineNumber_of_diagnostic? {entry : Entry α} {d : Diagnostic}
    (h : entry.diagnostic? = some d) : entry.lineNumber = d.lineNumber := by
  cases entry <;> cases h <;> rfl

end Entry

namespace Report
variable {entries : List (Entry α)}

def ofEntries (entries : List (Entry α)) : Report α :=
  ⟨entries.filterMap Entry.equation?, entries.filterMap Entry.diagnostic?⟩

theorem mem_equations {e : Equation α} :
    e ∈ (ofEntries entries).equations ↔ .equation e ∈ entries := by
  simp [ofEntries, Entry.equation?_eq_some]

theorem mem_diagnostics_rejected {n : Nat} {cause : Failure} :
    .rejected n cause ∈ (ofEntries entries).diagnostics ↔ .failed n cause ∈ entries := by
  have h (entry : Entry α) :
      entry.diagnostic? = some (.rejected n cause) ↔ entry = .failed n cause := by
    cases entry <;> simp [Entry.diagnostic?]
  simp [ofEntries, h]

theorem mem_diagnostics_skipped {n : Nat} {text : String} :
    .skipped n text ∈ (ofEntries entries).diagnostics ↔ .skipped n text ∈ entries := by
  have h (entry : Entry α) :
      entry.diagnostic? = some (.skipped n text) ↔ entry = .skipped n text := by
    cases entry <;> simp [Entry.diagnostic?]
  simp [ofEntries, h]

/-- The report with what more entries give. -/
def append (report : Report α) (entries : List (Entry α)) : Report α :=
  ⟨report.equations ++ entries.filterMap Entry.equation?,
    report.diagnostics ++ entries.filterMap Entry.diagnostic?⟩

@[simp] theorem append_nil (report : Report α) : report.append [] = report := by simp [append]

theorem append_append (report : Report α) (entries more : List (Entry α)) :
    (report.append entries).append more = report.append (entries ++ more) := by
  simp [append]

theorem append_empty (entries : List (Entry α)) : append {} entries = ofEntries entries := rfl

end Report

variable [Numeral α]

namespace Equation

theorem confined_compile (function : String) (v : Vocabulary) (text : String) :
    Confined (compile function v text : Except Failure (Expr α)) := by
  rw [compile]
  split
  · exact .ok _
  · rintro _ ⟨⟩
    rfl

theorem confined_step (function : String) (p : Progress α) (s : Substitution) :
    Confined (p.step function s) :=
  (confined_compile function _ _).bind fun _ => .ok _

theorem confined_resolve (r : Record) : Confined (resolve r : Except Failure (Equation α)) := by
  refine (confined_compile r.name _ _).bind fun e => ?_
  refine (Confined.foldlM (confined_step r.name) _ _).bind fun done => ?_
  split
  · rintro _ ⟨⟩
    rfl
  · exact .ok _

end Equation

theorem Entry.confined_ofRecord (n : Nat) (text : List Char) :
    Confined (ofRecord n text : Except Failure (Equation α)) := by
  rw [ofRecord]
  split
  · exact Equation.confined_resolve _
  · rintro _ ⟨⟩
    rfl

namespace Entry

/-- The entries of lines that are numbered from `lineNumber` on. -/
def ofLines (lineNumber : Nat) : List (List Char) → List (Entry α)
  | [] => []
  | raw :: rest => (ofLine? lineNumber raw).toList ++ ofLines (lineNumber + 1) rest

theorem mem_ofLines {entry : Entry α} {n : Nat} {lines : List (List Char)} :
    entry ∈ ofLines n lines ↔
      ∃ i raw, lines[i]? = some raw ∧ ofLine? (n + i) raw = some entry := by
  induction lines generalizing n with
  | nil => simp [ofLines]
  | cons first rest ih =>
    rw [ofLines, List.mem_append, Option.mem_toList, ih]
    constructor
    · rintro (h | ⟨i, raw, hraw, h⟩)
      · exact ⟨0, first, rfl, h⟩
      · exact ⟨i + 1, raw, hraw, by rwa [Nat.add_right_comm] at h⟩
    · rintro ⟨_ | i, raw, hraw, h⟩
      · cases hraw
        exact .inl h
      · exact .inr ⟨i, raw, hraw, by rwa [Nat.add_right_comm]⟩

theorem ofLine?_eq_equation {n : Nat} {raw : List Char} {e : Equation α} :
    ofLine? n raw = some (equation e) ↔
      ∃ text, Line.classify raw = .record text ∧ ofRecord n text = .ok e := by
  rw [ofLine?]
  split
  · simp [*]
  · simp [*]
  · next text htext =>
    cases h : (ofRecord n text : Except Failure (Equation α)) <;> simp [*]

theorem ofLine?_eq_skipped {n m : Nat} {raw : List Char} {text : String} :
    (ofLine? n raw : Option (Entry α)) = some (skipped m text) ↔
      n = m ∧ ∃ cs, Line.classify raw = .skipped cs ∧ text = String.ofList cs := by
  rw [ofLine?]
  split
  · simp [*]
  · simp [*, eq_comm]
  · next cs hcs =>
    cases h : (ofRecord n cs : Except Failure (Equation α)) <;> simp [*]

theorem ofLine?_eq_failed {n m : Nat} {raw : List Char} {cause : Failure} :
    (ofLine? n raw : Option (Entry α)) = some (failed m cause) ↔
      n = m ∧ ∃ text, Line.classify raw = .record text ∧
        (ofRecord n text : Except Failure (Equation α)) = .error cause := by
  rw [ofLine?]
  split
  · simp [*]
  · simp [*]
  · next text htext =>
    cases h : (ofRecord n text : Except Failure (Equation α)) <;> simp [*]

end Entry

namespace Report

/-- The policies differ at records that fail only. -/
theorem step_cases (report : Report α) (n : Nat) (raw : List Char) :
    ((Entry.ofLine? n raw : Option (Entry α)).bind Entry.failure? = none ∧
      ∀ policy, step policy report n raw = .ok (report.append (Entry.ofLine? n raw).toList)) ∨
    ∃ cause, (Entry.ofLine? n raw : Option (Entry α)) = some (.failed n cause) ∧
      step .bestEffort report n raw = .ok (report.append [.failed n cause]) ∧
      step .abort report n raw = .error cause := by
  cases hline : (Entry.ofLine? n raw : Option (Entry α)) with
  | none => exact .inl (by simp [step, hline])
  | some entry =>
    cases entry with
    | equation e =>
      left
      simp [step, hline, append, Entry.equation?, Entry.diagnostic?, Entry.failure?]
    | skipped m text =>
      left
      simp [step, hline, append, Entry.equation?, Entry.diagnostic?, Entry.failure?]
    | failed m cause =>
      right
      obtain ⟨rfl, text, -, hrecord⟩ := Entry.ofLine?_eq_failed.mp hline
      have hlevel := Entry.confined_ofRecord n text cause hrecord
      refine ⟨cause, rfl, ?_, ?_⟩
      · simp [step, hline, hlevel, append, Entry.equation?, Entry.diagnostic?]
      · simp [step, hline]

/-- With best effort the pass notes what every line gives. -/
theorem pass_bestEffort (report : Report α) (n : Nat) (lines : List (List Char)) :
    pass .bestEffort report n lines = .ok (report.append (Entry.ofLines n lines)) := by
  induction lines generalizing report n with
  | nil => simp [pass, Entry.ofLines]
  | cons raw rest ih =>
    have hstep : step .bestEffort report n raw =
        .ok (report.append (Entry.ofLine? n raw).toList) := by
      obtain ⟨-, hstep⟩ | ⟨cause, hentry, hstep, -⟩ := step_cases report n raw
      · exact hstep _
      · rw [hstep, hentry, Option.toList_some]
    rw [pass, hstep, Entry.ofLines, ← append_append]
    exact ih _ _

/-- The pass that aborts ends with the first failure, and otherwise notes what every line gives. -/
theorem pass_abort (report : Report α) (n : Nat) (lines : List (List Char)) :
    pass .abort report n lines =
      match (Entry.ofLines n lines : List (Entry α)).findSome? Entry.failure? with
      | some cause => .error cause
      | none => .ok (report.append (Entry.ofLines n lines)) := by
  induction lines generalizing report n with
  | nil => simp [pass, Entry.ofLines]
  | cons raw rest ih =>
    have hfirst : (Entry.ofLines n (raw :: rest) : List (Entry α)).findSome? Entry.failure? =
        ((Entry.ofLine? n raw : Option (Entry α)).bind Entry.failure?).or
          ((Entry.ofLines (n + 1) rest : List (Entry α)).findSome? Entry.failure?) := by
      rw [Entry.ofLines, List.findSome?_append]
      cases (Entry.ofLine? n raw : Option (Entry α)) <;> simp
    rw [pass, hfirst]
    obtain ⟨hnone, hstep⟩ | ⟨cause, hentry, -, hstep⟩ := step_cases report n raw
    · rw [hstep, hnone, Option.none_or, Entry.ofLines, ← append_append]
      exact ih _ _
    · rw [hstep, hentry]
      rfl

/-- With best effort there is always a report, of the entries of all lines. -/
theorem process_bestEffort (document : String) :
    (process .bestEffort document : Except Failure (Report α)) =
      .ok (ofEntries (Entry.ofLines 1 (Text.lines document.toList))) :=
  pass_bestEffort _ _ _

theorem process_abort (document : String) :
    (process .abort document : Except Failure (Report α)) =
      match (Entry.ofLines 1 (Text.lines document.toList) : List (Entry α)).findSome?
        Entry.failure? with
      | some cause => .error cause
      | none => .ok (ofEntries (Entry.ofLines 1 (Text.lines document.toList))) :=
  pass_abort _ _ _

end Report

end EquationCompiler
