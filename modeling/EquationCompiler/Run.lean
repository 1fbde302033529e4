import EquationCompiler.Artifacts
import EquationCompiler.Files.Store
import EquationCompiler.Settings.Basic

/-!
# Runs

A run reads its templates and its input, processes and renders, and writes both
artifacts last. The folders of both outputs are checked before anything is
written.
-/
namespace EquationCompiler

/-- What a run produced. -/
structure Outcome (α : Type) where
  report : Report α
  artifacts : Artifacts
  /-- The paths written to. -/
  written : List String

variable {m : Type → Type} [Monad m] [FileStore m]

/-- The text of a file, or the failure that names it. -/
def readFile (path : String) : ExceptT Failure m String := do
  match ← FileStore.read path with
  | .ok text => return text
  | .error cause => throw (.file path cause)

def writeFile (path contents : String) : ExceptT Failure m Unit := do
  match ← FileStore.write path contents with
  | .ok () => return ()
  | .error cause => throw (.file path cause)

/-- The text of a file that may not be named. -/
def readOptional : Option String → ExceptT Failure m (Option String)
  | none => return none
  | some path => return some (← readFile path)

def Templates.load [TemplateEngine] (s : Settings) : ExceptT Failure m Templates := do
  let declarations ← readOptional s.declarationsTemplate
  let definitions ← readOptional s.definitionsTemplate
  Templates.ofTexts declarations definitions

/-- Whatever the engine, a run that names no templates has the built-in ones. -/
theorem Templates.load_builtin [LawfulMonad m] [TemplateEngine] {s : Settings}
    (hdeclarations : s.declarationsTemplate = none) (hdefinitions : s.definitionsTemplate = none) :
    (Templates.load s : ExceptT Failure m Templates) = pure {} := by
  simp only [load, hdeclarations, hdefinitions, readOptional, pure_bind, ofTexts_none]
  rfl

/-- Refuses an output in a folder that is missing. -/
def checkFolder (path : String) : ExceptT Failure m Unit := do
  match Path.parent? path with
  | none => return ()
  | some folder =>
    if folder ≠ "" then
      if !(← FileStore.isFolder folder) then throw (.file folder .missingOutputFolder)

def Artifacts.write (a : Artifacts) (declarations definitions : String) :
    ExceptT Failure m Unit := do
  checkFolder declarations
  checkFolder definitions
  writeFile declarations a.declarations
  writeFile definitions a.definitions

namespace Settings

/-- Settings from a file. -/
def load (path : String) : ExceptT Failure m Settings := do
  match ofText (← readFile path) with
  | .ok s => return s
  | .error cause => throw (.settings path cause)

/-- The file that is looked for when none is named. -/
def defaultFile : String := "codegen.toml"

/-- Settings from a named file, from the default file if there is one, or the defaults. -/
def discover : Option String → ExceptT Failure m Settings
  | some path => load path
  | none => do
    if ← FileStore.isFile defaultFile then load defaultFile else return {}

/-- Processes the input and renders both artifacts. -/
def build [TemplateEngine] (α : Type) [Numeral α] (s : Settings) :
    ExceptT Failure m (Report α × Artifacts) := do
  let templates ← Templates.load s
  let document ← readFile s.input
  let report ← Report.process s.policy document
  let options := RenderOptions.ofPaths s.input s.declarations
  return (report, ← Artifacts.render templates options report.equations)

/-- A whole run. A dry one writes nothing. -/
def run [TemplateEngine] (α : Type) [Numeral α] (s : Settings) (dryRun : Bool) :
    ExceptT Failure m (Outcome α) := do
  let (report, artifacts) ← s.build α
  if dryRun then return ⟨report, artifacts, []⟩
  artifacts.write s.declarations s.definitions
  return ⟨report, artifacts, [s.declarations, s.definitions]⟩

end Settings

end EquationCompiler
