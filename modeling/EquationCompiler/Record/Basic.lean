import EquationCompiler.Text.Basic

/-!
# Records

A record names a function, its parameters and the expression that defines it. In
between it may give names to subexpressions. Expressions are still text here.

`Record.split` takes a line apart at its brackets, commas and equals signs and
says what is wrong with a piece that is no name or is empty.
-/
namespace EquationCompiler

/-- A name for a subexpression and the text it stands for. -/
structure Substitution where
  name : String
  text : String
  deriving DecidableEq, Repr

structure Record where
  /-- The number of the line, counted from one. -/
  lineNumber : Nat
  name : String
  parameters : List String
  /-- From left to right as declared. -/
  substitutions : List Substitution
  expression : String
  deriving DecidableEq, Repr

/-- The name with the parameters in parentheses. -/
def Record.signature (r : Record) : String :=
  r.name ++ "(" ++ ", ".intercalate r.parameters ++ ")"

/-- What a name in a record is for. -/
inductive NameRole where
  | function
  | parameter
  | substitution
  deriving DecidableEq, Repr

def NameRole.description : NameRole → String
  | function => "function name"
  | parameter => "parameter"
  | substitution => "substitution name"

inductive RecordFault where
  | missingEquals
  | missingOpening
  | missingClosing
  | invalidName (role : NameRole) (candidate : String)
  | duplicateParameter (name : String)
  | emptyExpression
  | unterminatedBlock
  | nestedBlock
  | substitutionWithoutEquals (entry : String)
  | emptySubstitution (name : String)
  deriving DecidableEq, Repr

def RecordFault.message : RecordFault → String
  | missingEquals => "missing `=` before the expression"
  | missingOpening => "missing `(` after the function name"
  | missingClosing => "missing `)` closing the parameter list"
  | invalidName role candidate => "invalid " ++ role.description ++ " `" ++ candidate ++ "`"
  | duplicateParameter name => "duplicate parameter `" ++ name ++ "`"
  | emptyExpression => "empty expression"
  | unterminatedBlock => "unterminated `[` in the substitution block"
  | nestedBlock => "nested `[` inside the substitution block"
  | substitutionWithoutEquals entry => "substitution `" ++ entry ++ "` has no `=`"
  | emptySubstitution name => "substitution `" ++ name ++ "` has an empty value"

namespace Record

/-- Letters, digits and underscores, at least one of them. -/
def isName (cs : List Char) : Bool :=
  !cs.isEmpty && cs.all fun c => c.isAlphanum || c = '_'

/-- The trimmed text as a name. -/
def toName (role : NameRole) (cs : List Char) : Except RecordFault String :=
  let name := Text.trim cs
  if isName name then .ok (String.ofList name)
  else .error (.invalidName role (String.ofList name))

/-- The line without its substitution block, and the contents of the block. The block is the first
pair of brackets after the parameters, unless an equals sign comes first. -/
def extractBlock (line : List Char) : Except RecordFault (List Char × Option (List Char)) :=
  match Text.cut? ')' line with
  | none => .ok (line, none)
  | some (head, tail) =>
    match Text.cut? '[' tail with
    | none => .ok (line, none)
    | some (gap, inner) =>
      if gap.contains '=' then .ok (line, none)
      else match Text.cut? ']' inner with
        | none => .error .unterminatedBlock
        | some (block, rest) =>
          if block.contains '[' then .error .nestedBlock
          else .ok (head ++ ')' :: gap ++ rest, some block)

/-- One entry of a substitution block. -/
def toSubstitution (entry : List Char) : Except RecordFault Substitution :=
  match Text.cut? '=' entry with
  | none => .error (.substitutionWithoutEquals (String.ofList (Text.trim entry)))
  | some (name, text) => do
    let name ← toName .substitution name
    let text := Text.trim text
    if text.isEmpty then throw (.emptySubstitution name)
    return ⟨name, String.ofList text⟩

/-- The first name that stands in the list before. -/
def firstDuplicate? : List String → List String → Option String
  | _, [] => none
  | seen, name :: rest =>
    if seen.contains name then some name else firstDuplicate? (name :: seen) rest

/-- The text before the closing parenthesis that ends it. -/
def dropClosing? (cs : List Char) : Option (List Char) :=
  let cs := Text.trim cs
  if cs.getLast? = some ')' then some cs.dropLast else none

/-- The record in a line. Faults are looked for in the block, in the head, in the expression and
in the substitutions, in this order. -/
def split (lineNumber : Nat) (line : List Char) : Except RecordFault Record := do
  let (line, block) ← extractBlock line
  let some (head, expression) := Text.cut? '=' line | throw .missingEquals
  let some (name, parameters) := Text.cut? '(' head | throw .missingOpening
  let name ← toName .function name
  let some parameters := dropClosing? parameters | throw .missingClosing
  let parameters ← (Text.pieces ',' parameters).mapM (toName .parameter)
  if let some name := firstDuplicate? [] parameters then throw (.duplicateParameter name)
  let expression := Text.trim expression
  if expression.isEmpty then throw .emptyExpression
  let substitutions ← match block with
    | some block => (Text.pieces ',' block).mapM toSubstitution
    | none => pure []
  return { lineNumber, name, parameters, substitutions, expression := String.ofList expression }

end Record

end EquationCompiler
