import EquationCompiler.Template.Scope

/-!
# Templates

A template is text with places for values, repeated parts and conditional parts.
What stands in a tag is a query, which gives a value in every scope that has what
it asks for.
-/
namespace EquationCompiler

/-- What a query starts from. -/
inductive Operand where
  | flag (b : Bool)
  | path (names : ValuePath)
  deriving DecidableEq, Repr, Inhabited

/-- A value, or its negation, after filters are applied to it in their order. -/
structure Query where
  operand : Operand
  filters : List String := []
  negated : Bool := false
  deriving DecidableEq, Repr, Inhabited

/-- A part of a template. -/
inductive Piece where
  | text (s : String)
  /-- The text of a value. -/
  | value (query : Query)
  /-- The body for each item, or `otherwise` for no items. -/
  | forEach (item : String) (container : Query) (body otherwise : List Piece)
  /-- One part if the condition holds, and another one if not. -/
  | branch (condition : Query) (yes no : List Piece)
  deriving Repr, Inhabited, BEq

abbrev Template := List Piece

def Operand.evaluate (scope : Scope) : Operand → Except TemplateFault Value
  | flag b => .ok (.flag b)
  | path names => scope.find names

namespace Query

def ofPath (path : ValuePath) : Query := { operand := .path path }

/-- The length of the value at a path. -/
def lengthOf (path : ValuePath) : Query := { operand := .path path, filters := ["length"] }

/-- The value of a query. What is missing is an error, but its negation is true. -/
def evaluate (scope : Scope) (q : Query) : Except TemplateFault Value :=
  match q.operand.evaluate scope with
  | .error cause => if q.negated then .ok (.flag true) else .error cause
  | .ok v => do
    let v ← q.filters.foldlM Value.filtered v
    return if q.negated then .flag v.isEmpty else v

/-- Whether a query holds as a condition. One without a value does not. -/
def holds (scope : Scope) (q : Query) : Bool :=
  match q.evaluate scope with
  | .ok v => !v.isEmpty
  | .error _ => false

@[simp] theorem evaluate_ofPath (scope : Scope) (path : ValuePath) :
    (ofPath path).evaluate scope = scope.find path := by
  cases h : scope.find path with
  | error cause => simp [evaluate, ofPath, Operand.evaluate, h]
  | ok v => simp only [evaluate, ofPath, Operand.evaluate, h]; rfl

end Query

mutual
/-- The text of a part of a template. -/
def Piece.render (scope : Scope) : Piece → Except TemplateFault String
  | .text s => .ok s
  | .value query => do return (← query.evaluate scope).toText
  | .forEach item container body otherwise => do
    let v ← container.evaluate scope
    match v.items? with
    | none => throw (.notIterable v.toText)
    | some [] => Template.render scope otherwise
    | some items =>
      let texts ← (scope.loop item items).mapM fun s => Template.render s body
      return String.join texts
  | .branch condition yes no =>
    if condition.holds scope then Template.render scope yes else Template.render scope no
/-- The text of a template. -/
def Template.render (scope : Scope) : List Piece → Except TemplateFault String
  | [] => .ok ""
  | p :: ps => do
    let first ← Piece.render scope p
    let rest ← Template.render scope ps
    return first ++ rest
end

end EquationCompiler
