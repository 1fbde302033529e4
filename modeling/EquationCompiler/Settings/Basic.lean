import EquationCompiler.Report
import EquationCompiler.Settings.Document

/-!
# Settings

Where a run reads from and writes to, which templates it uses and what it does
about bad records. A settings file may give any of these; the others keep their
defaults.
-/
namespace EquationCompiler

structure Settings where
  input : String := "solver_functions.txt"
  declarations : String := "SolverFunctions.h"
  definitions : String := "SolverFunctions.cpp"
  /-- A file with a template in the place of the built-in one. -/
  declarationsTemplate : Option String := none
  definitionsTemplate : Option String := none
  policy : Policy := .abort
  deriving DecidableEq, Repr

namespace Settings

def textOf (key : String) : Datum → Except SettingsFault String
  | .text s => .ok s
  | _ => .error (.wrongType key)

/-- The policy of the given name. It may also be named by the only key of a table, with nothing
in it. -/
def policyOf (key : String) : Datum → Except SettingsFault Policy
  | .text name | .table _ [(name, .table _ [])] | .table _ [(name, .list [])] =>
    match Policy.ofName? name with
    | some p => .ok p
    | none => .error (.unknownPolicy name)
  | _ => .error (.wrongType key)

/-- How to set a field from its datum. -/
abbrev Setter := Settings → Datum → Except SettingsFault Settings

/-- Sets several fields from a table, or in the order of their keys from a list. -/
def setFields (key : String) (fields : List (String × Setter)) (s : Settings) :
    Datum → Except SettingsFault Settings
  | .table _ entries => entries.foldlM (fun s (name, d) =>
      match fields.lookup name with
      | some set => set s d
      | none => throw (.unknownKey name)) s
  | .list items => (fields.zip items).foldlM (fun s (field, d) => field.2 s d) s
  | _ => .error (.wrongType key)

/-- How to set the field with a key at the top of a settings file. -/
def fields : List (String × Setter) :=
  [("input", fun s d => do return { s with input := ← textOf "input" d }),
    ("output", setFields "output"
      [("declarations", fun s d => do return { s with declarations := ← textOf "declarations" d }),
        ("definitions", fun s d => do return { s with definitions := ← textOf "definitions" d })]),
    ("templates", setFields "templates"
      [("declarations", fun s d => do
          return { s with declarationsTemplate := some (← textOf "declarations" d) }),
        ("definitions", fun s d => do
          return { s with definitionsTemplate := some (← textOf "definitions" d) })]),
    ("policy", fun s d => do return { s with policy := ← policyOf "policy" d })]

/-- The settings that a text gives. -/
def ofText (text : String) : Except SettingsFault Settings := do
  setFields "" fields {} (← Datum.ofText text)

end Settings

end EquationCompiler
