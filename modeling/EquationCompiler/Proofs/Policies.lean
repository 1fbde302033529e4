import EquationCompiler.Proofs.BestEffort

/-!
# The two policies

Where a record fails one policy ends the pass and the other notes the failure and
goes on, so up to there the two have the same report.
-/
namespace EquationCompiler

variable {α : Type}

/-- The failure of a rejected record. -/
def Diagnostic.cause? : Diagnostic → Option Failure
  | skipped .. => none
  | rejected _ cause => some cause

/-- Every line that is not blank has one item in the report, with the number of the line. -/
structure Report.Accounts (report : Report α) (document : String) : Prop where
  nodup : (report.equations.map (·.lineNumber) ++ report.diagnostics.map (·.lineNumber)).Nodup
  mem_iff (n : ℕ) :
    n ∈ report.equations.map (·.lineNumber) ++ report.diagnostics.map (·.lineNumber) ↔
      ∃ line, Line.At document n line ∧ line ≠ .blank

/-- The items of a report have the numbers of its entries. -/
theorem Report.perm_lineNumber (entries : List (Entry α)) :
    ((ofEntries entries).equations.map (·.lineNumber) ++
      (ofEntries entries).diagnostics.map (·.lineNumber)).Perm (entries.map Entry.lineNumber) := by
  induction entries with
  | nil => exact .nil
  | cons entry entries ih =>
    cases entry with
    | equation e => exact ih.cons _
    | skipped n text => exact List.perm_middle.trans (ih.cons _)
    | failed n cause => exact List.perm_middle.trans (ih.cons _)

/-- The first failure of entries is the cause of the first rejected record of their report. -/
theorem Report.findSome?_failure? (entries : List (Entry α)) :
    entries.findSome? Entry.failure? =
      (ofEntries entries).diagnostics.findSome? Diagnostic.cause? := by
  induction entries with
  | nil => rfl
  | cons entry entries ih =>
    cases entry with
    | equation e => exact ih
    | skipped n text => exact ih
    | failed n cause => rfl

variable [Numeral α]

theorem Entry.isSome_ofLine? (n : ℕ) (raw : List Char) :
    (ofLine? n raw : Option (Entry α)).isSome = true ↔ Line.classify raw ≠ .blank := by
  rw [ofLine?]
  cases Line.classify raw with
  | blank => simp
  | skipped text => simp
  | record text =>
    dsimp only
    cases (ofRecord n text : Except Failure (Equation α)) <;> simp

theorem Report.accounts_ofEntries (document : String) :
    (ofEntries (Entry.ofLines 1 (Text.lines document.toList)) : Report α).Accounts document := by
  have hperm := perm_lineNumber (Entry.ofLines 1 (Text.lines document.toList) : List (Entry α))
  have hascend := Entry.ofLines_ascend (α := α) 1 (Text.lines document.toList)
  refine ⟨hperm.nodup_iff.mpr ?_, fun n => ?_⟩
  · exact (List.pairwise_map.mpr hascend).imp fun h => h.ne
  · rw [hperm.mem_iff, List.mem_map]
    constructor
    · rintro ⟨entry, hentry, rfl⟩
      obtain ⟨i, raw, hraw, h⟩ := Entry.mem_ofLines.mp hentry
      refine ⟨_, ⟨i, raw, hraw, (Entry.lineNumber_of_ofLine? h).symm, rfl⟩, ?_⟩
      rw [← Entry.isSome_ofLine? (α := α) (1 + i), h]
      rfl
    · rintro ⟨_, ⟨i, raw, hraw, rfl, rfl⟩, hline⟩
      obtain ⟨entry, h⟩ :=
        Option.isSome_iff_exists.mp ((Entry.isSome_ofLine? (α := α) (1 + i) raw).mpr hline)
      exact ⟨entry, Entry.mem_ofLines.mpr ⟨i, raw, hraw, h⟩, Entry.lineNumber_of_ofLine? h⟩

namespace Report

/-- A best-effort run always has a report, with one item for every line that is not blank. If it has
no rejected record then a run that aborts has the same report. Otherwise that run fails with the
cause of the first rejected record. -/
theorem policies_agree (document : String) :
    ∃ report : Report α, process .bestEffort document = .ok report ∧
      report.Covers document ∧ report.Accounts document ∧
      ((∀ d ∈ report.diagnostics, d.cause? = none) → process .abort document = .ok report) ∧
      ∀ cause, report.diagnostics.findSome? Diagnostic.cause? = some cause →
        (process .abort document : Except Failure (Report α)) = .error cause := by
  refine ⟨_, process_bestEffort document, covers_ofEntries document, accounts_ofEntries document,
    fun hnone => ?_, fun cause hcause => ?_⟩
  · rw [process_abort, findSome?_failure?, List.findSome?_eq_none_iff.mpr hnone]
  · rw [process_abort, findSome?_failure?, hcause]

/-- A document with a line that is skipped, and one whose third line cannot be read. -/
theorem policies_agree_unreadable :
    (∃ report : Report Float, process .bestEffort "f(x) = x\nnote\n" = .ok report ∧
      report.diagnostics = [.skipped 2 "note"] ∧ process .abort "f(x) = x\nnote\n" = .ok report) ∧
    ∃ report : Report Float, ∃ cause : Failure,
      process .bestEffort "f(x) = x\nnote\ng(y) = y *\nh(x) = (x\n" = .ok report ∧
      report.diagnostics.findSome? Diagnostic.cause? = some cause ∧
      (process .abort "f(x) = x\nnote\ng(y) = y *\nh(x) = (x\n" :
        Except Failure (Report Float)) = .error cause ∧
      cause.message = "function `g`: cannot compile expression `y *`: " ++
        "syntax error: expected neg, pos, number, or ident at column 4" := by
  constructor
  · let report : Report Float := ofEntries (Entry.ofLines 1 (Text.lines "f(x) = x\nnote\n".toList))
    have hprocess : process .bestEffort "f(x) = x\nnote\n" = .ok report := process_bestEffort _
    have hdiagnostics : report.diagnostics = [.skipped 2 "note"] := by decide +kernel
    obtain ⟨report', hreport, -, -, hagree, -⟩ := policies_agree (α := Float) "f(x) = x\nnote\n"
    obtain rfl : report = report' := Except.ok.inj (hprocess.symm.trans hreport)
    exact ⟨report, hprocess, hdiagnostics, hagree (by rw [hdiagnostics]; simp [Diagnostic.cause?])⟩
  · let report : Report Float := ofEntries (Entry.ofLines 1
      (Text.lines "f(x) = x\nnote\ng(y) = y *\nh(x) = (x\n".toList))
    have hprocess : process .bestEffort "f(x) = x\nnote\ng(y) = y *\nh(x) = (x\n" = .ok report :=
      process_bestEffort _
    have hcause : report.diagnostics.findSome? Diagnostic.cause? =
        some (.uncompilable "g" "y *" (.unreadable .operand 4)) := by decide +kernel
    obtain ⟨report', hreport, -, -, -, hfails⟩ :=
      policies_agree (α := Float) "f(x) = x\nnote\ng(y) = y *\nh(x) = (x\n"
    obtain rfl : report = report' := Except.ok.inj (hprocess.symm.trans hreport)
    exact ⟨report, _, hprocess, hcause, hfails _ hcause, by decide +kernel⟩

end Report

end EquationCompiler
