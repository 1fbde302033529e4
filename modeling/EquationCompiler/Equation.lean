import EquationCompiler.Expr.Derivative
import EquationCompiler.Expr.Substitute
import EquationCompiler.Failure
import EquationCompiler.Formula.Compile

/-!
# Equations

An equation is a record whose expression has been read and from which the named
subexpressions have been eliminated. The substitutions are applied from right to
left, and each may use the names declared to its right.
-/
namespace EquationCompiler

structure Equation (α : Type) where
  lineNumber : Nat
  name : String
  parameters : List String
  substitutions : List Substitution
  expression : Expr α
  deriving Repr

namespace Equation
variable {α : Type}

/-- The symbols of the expression that are no parameters, ascending. -/
def unresolved (e : Equation α) : List String :=
  e.expression.freeSymbols.filter fun s => !e.parameters.contains s

variable [Numeral α]

/-- The partial derivatives by the parameters, in order. -/
def gradient (e : Equation α) : List (Expr α) := e.expression.gradient e.parameters

/-- What is known when some of the substitutions, from the right, have been applied. -/
structure Progress (α : Type) where
  /-- The expression so far. -/
  expression : Expr α
  /-- The names that the next substitution may use. -/
  vocabulary : Vocabulary
  /-- The applied substitutions, in the order of application. -/
  known : List (String × Expr α)

/-- Reads an expression of the given function. -/
def compile (function : String) (v : Vocabulary) (text : String) : Except Failure (Expr α) :=
  match Expr.parse v text with
  | .ok e => .ok e
  | .error cause => .error (.uncompilable function text cause)

/-- The expression after all the substitutions, in the given order. -/
def substituteAll (subs : List (String × Expr α)) (e : Expr α) : Expr α :=
  subs.foldl (fun e (name, value) => e.substitute name value) e

/-- Applies one substitution, with the known ones applied to its value first. -/
def Progress.step (function : String) (p : Progress α) (s : Substitution) :
    Except Failure (Progress α) := do
  let value ← compile function p.vocabulary s.text
  let value := substituteAll p.known value
  return {
    expression := p.expression.substitute s.name value
    vocabulary := p.vocabulary.insert s.name
    known := p.known ++ [(s.name, value)] }

/-- The equation of a record. Folding numbers may overflow although every literal is finite, and
such an expression is refused. -/
def resolve (r : Record) : Except Failure (Equation α) := do
  let all := Vocabulary.ofList (r.parameters ++ r.substitutions.map (·.name))
  let expression ← compile r.name all r.expression
  let start : Progress α := ⟨expression, Vocabulary.ofList r.parameters, []⟩
  let done ← r.substitutions.reverse.foldlM (Progress.step r.name) start
  match done.expression.nonFinite? with
  | some x => throw (.uncompilable r.name r.expression (.nonFinite (Numeral.text x)))
  | none =>
    return {
      lineNumber := r.lineNumber
      name := r.name
      parameters := r.parameters
      substitutions := r.substitutions
      expression := done.expression }

end Equation

end EquationCompiler
