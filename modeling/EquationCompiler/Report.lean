import EquationCompiler.Equation
import EquationCompiler.Record.Line

/-!
# Processing documents

A document is processed in one pass over its lines. Every line yields at most one
entry: an equation, a line that was skipped, or a record that failed. A best-effort
report keeps the failures as diagnostics; otherwise the first one ends the pass.
-/
namespace EquationCompiler

/-- What to do with a record that cannot be taken apart or compiled. -/
inductive Policy where
  | abort
  | bestEffort
  deriving DecidableEq, Repr

def Policy.name : Policy → String
  | abort => "abort"
  | bestEffort => "best-effort"

def Policy.ofName? (name : String) : Option Policy :=
  if name = "abort" then some .abort
  else if name = "best-effort" then some .bestEffort
  else none

@[simp] theorem Policy.ofName?_name (p : Policy) : ofName? p.name = some p := by
  cases p <;> rfl

/-- A line that contributes no equation, and why. -/
inductive Diagnostic where
  | skipped (lineNumber : Nat) (text : String)
  | rejected (lineNumber : Nat) (cause : Failure)
  deriving DecidableEq, Repr

namespace Diagnostic

def lineNumber : Diagnostic → Nat
  | skipped n _ | rejected n _ => n

def message : Diagnostic → String
  | skipped n text => "line " ++ toString n ++ ": the following line was ignored: " ++ text
  | rejected n cause => "line " ++ toString n ++ ": record rejected: " ++ cause.message

end Diagnostic

/-- What a line yields. -/
inductive Entry (α : Type) where
  | equation (e : Equation α)
  | skipped (lineNumber : Nat) (text : String)
  | failed (lineNumber : Nat) (cause : Failure)

namespace Entry
variable {α : Type} [Numeral α]

/-- The equation in a line of the shape of a record. -/
def ofRecord (lineNumber : Nat) (text : List Char) : Except Failure (Equation α) := do
  match Record.split lineNumber text with
  | .ok r => Equation.resolve r
  | .error cause => throw (.malformed lineNumber (String.ofList text) cause)

def ofLine? (lineNumber : Nat) (raw : List Char) : Option (Entry α) :=
  match Line.classify raw with
  | .blank => none
  | .skipped text => some (skipped lineNumber (String.ofList text))
  | .record text =>
    match ofRecord lineNumber text with
    | .ok e => some (equation e)
    | .error cause => some (failed lineNumber cause)

end Entry

/-- The equations of a document and the diagnostics, both in the order of lines. -/
structure Report (α : Type) where
  equations : List (Equation α) := []
  diagnostics : List Diagnostic := []

namespace Report
variable {α : Type} [Numeral α]

/-- What becomes of a report at one line. With best effort a failure that is confined to a record is
noted; every other failure ends the pass. -/
def step (policy : Policy) (report : Report α) (lineNumber : Nat) (raw : List Char) :
    Except Failure (Report α) :=
  match Entry.ofLine? lineNumber raw with
  | none => .ok report
  | some (.equation e) => .ok { report with equations := report.equations ++ [e] }
  | some (.skipped n text) =>
    .ok { report with diagnostics := report.diagnostics ++ [.skipped n text] }
  | some (.failed n cause) =>
    if cause.isRecordLevel ∧ policy = .bestEffort then
      .ok { report with diagnostics := report.diagnostics ++ [.rejected n cause] }
    else .error cause

/-- One pass over lines that are numbered from `lineNumber` on. -/
def pass (policy : Policy) (report : Report α) (lineNumber : Nat) :
    List (List Char) → Except Failure (Report α)
  | [] => .ok report
  | raw :: rest => do pass policy (← step policy report lineNumber raw) (lineNumber + 1) rest

def process (policy : Policy) (document : String) : Except Failure (Report α) :=
  pass policy {} 1 (Text.lines document.toList)

end Report

end EquationCompiler
