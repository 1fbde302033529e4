import EquationCompiler.Expr.Fault
import EquationCompiler.Files.Store
import EquationCompiler.Record.Basic
import EquationCompiler.Settings.Datum
import EquationCompiler.Template.Value

/-!
# Failures

What ends a run. Two kinds are confined to one record, and a best-effort run
goes on after them.
-/
namespace EquationCompiler

inductive Failure where
  /-- A line of the shape of a record that cannot be taken apart. -/
  | malformed (lineNumber : Nat) (line : String) (cause : RecordFault)
  /-- An expression of a function that cannot be read, simplified or written. -/
  | uncompilable (function text : String) (cause : ExprFault)
  | file (path : String) (cause : FileFault)
  | template (cause : TemplateFault)
  | settings (path : String) (cause : SettingsFault)
  deriving DecidableEq, Repr

namespace Failure

def isRecordLevel : Failure → Bool
  | malformed .. | uncompilable .. => true
  | _ => false

def message : Failure → String
  | malformed lineNumber line cause =>
    "line " ++ toString lineNumber ++ ": malformed equation record `" ++ line ++ "`: " ++
      cause.message
  | uncompilable function text cause =>
    "function `" ++ function ++ "`: cannot compile expression `" ++ text ++ "`: " ++ cause.message
  | file path cause => "I/O error on " ++ path ++ ": " ++ cause.message
  | template cause => "Template error: " ++ cause.message
  | settings path cause => "Configuration error in " ++ path ++ ": " ++ cause.message

/-- The failure below this one, if it has one of its own: a fault in an expression or in a file. -/
def source? : Failure → Option String
  | uncompilable _ _ cause => some cause.message
  | file _ cause => some cause.message
  | _ => none

end Failure

end EquationCompiler
