import EquationCompiler.Equation
import EquationCompiler.Expr.Print
import EquationCompiler.Files.Path
import EquationCompiler.Template.Engine

/-!
# Artifacts

The header and the source file are rendered from two templates and one list of
equations, so they cannot disagree about the functions there are.
-/
namespace EquationCompiler

/-- The templates with the given texts, or the built-in ones. -/
def Templates.ofTexts [TemplateEngine] (declarations definitions : Option String) :
    Except Failure Templates :=
  (TemplateEngine.read declarations definitions).mapError .template

@[simp] theorem Templates.ofTexts_none [TemplateEngine] : Templates.ofTexts none none = .ok {} := by
  rw [ofTexts, TemplateEngine.read_builtin]
  rfl

/-- What both artifacts say about where they come from. -/
structure RenderOptions where
  sourceFile : String
  declarationsFile : String
  headerGuard : String
  deriving DecidableEq, Repr

/-- A name for the preprocessor: other characters than letters and digits become underscores, and
one more stands before a digit or for an empty text. -/
def includeGuard (stem : List Char) : String :=
  let guard := stem.map fun c => if c.isAlphanum then c else '_'
  let guard := match guard with
    | [] => ['_']
    | c :: cs => if c.isDigit then '_' :: c :: cs else c :: cs
  String.ofList guard ++ "H"

def RenderOptions.ofPaths (input declarations : String) : RenderOptions where
  sourceFile := Path.fileNameOr input
  declarationsFile := Path.fileNameOr declarations
  headerGuard := includeGuard ((Path.fileStem? declarations).getD "").toList

/-- An equation as the templates see it, with C++ text for its expressions. -/
structure EquationView where
  index : Nat
  name : String
  parameters : List String
  expression : String
  gradient : List String
  deriving DecidableEq, Repr

namespace EquationView
variable {α : Type} [Numeral α]

/-- The C++ text of an expression of the given function. -/
def cppText (function : String) (e : Expr α) : Except Failure String :=
  match e.toCpp with
  | .ok text => .ok text
  | .error cause => .error (.uncompilable function e.toFormula cause)

def ofEquation (index : Nat) (e : Equation α) : Except Failure EquationView := do
  let expression ← cppText e.name e.expression
  let gradient ← e.gradient.mapM (cppText e.name)
  return { index, name := e.name, parameters := e.parameters, expression, gradient }

/-- The views of equations that are numbered from `index` on. -/
def ofEquations (index : Nat) : List (Equation α) → Except Failure (List EquationView)
  | [] => .ok []
  | e :: es => do
    let view ← ofEquation index e
    let views ← ofEquations (index + 1) es
    return view :: views

def toValue (v : EquationView) : Value :=
  .record [("index", .number v.index), ("name", .text v.name),
    ("parameters", .list (v.parameters.map .text)), ("expression", .text v.expression),
    ("gradient", .list (v.gradient.map .text))]

end EquationView

def RenderOptions.scope (o : RenderOptions) (views : List EquationView) : Scope where
  fields := [("equations", .list (views.map EquationView.toValue)),
    ("source_file", .text o.sourceFile), ("declarations_file", .text o.declarationsFile),
    ("header_guard", .text o.headerGuard)]

/-- The texts of the header and of the source file. -/
structure Artifacts where
  declarations : String
  definitions : String
  deriving DecidableEq, Repr

/-- Renders both artifacts. Every expression has its C++ text before any template is used. -/
def Artifacts.render {α : Type} [Numeral α] (templates : Templates) (options : RenderOptions)
    (equations : List (Equation α)) : Except Failure Artifacts := do
  let scope := options.scope (← EquationView.ofEquations 0 equations)
  let declarations ← (templates.declarations scope).mapError .template
  let definitions ← (templates.definitions scope).mapError .template
  return { declarations, definitions }

end EquationCompiler
