import EquationCompiler.Text.Basic

/-!
# Values that templates see

Texts, numbers and truth values, in lists and in records with named fields.
-/
namespace EquationCompiler

/-- What can go wrong with a template. The text is at fault if tags are malformed or unbalanced, the
data if a value is missing or has the wrong kind. -/
inductive TemplateFault where
  /-- A tag or comment that does not end. -/
  | unclosedTag
  /-- A tag whose contents mean nothing. -/
  | malformedTag (inside : String)
  /-- A tag that belongs to no open block, or a block that is not closed. -/
  | unbalanced
  | unknownName (path : List String)
  | unknownFilter (name : String)
  /-- A loop over something else than a list or a text. -/
  | notIterable (value : String)
  | noLength (value : String)
  /-- What another engine reports. -/
  | foreign (message : String)
  deriving DecidableEq, Repr

def TemplateFault.message : TemplateFault → String
  | unclosedTag => "a tag is not closed"
  | malformedTag inside => "malformed tag: " ++ inside
  | unbalanced => "blocks are not balanced"
  | unknownName path => "unknown name: " ++ ".".intercalate path
  | unknownFilter name => "unknown filter: " ++ name
  | notIterable value => "not a list: " ++ value
  | noLength value => "no length: " ++ value
  | foreign message => message

/-- What a template can refer to. -/
inductive Value where
  | text (s : String)
  | number (n : Nat)
  | flag (b : Bool)
  | list (items : List Value)
  | record (fields : List (String × Value))
  deriving Repr, Inhabited

/-- A name and the names of the fields that lead to a value inside it. -/
abbrev ValuePath := List String

namespace Value

/-- A position in a list: digits without leading zeros. -/
def position? (name : String) : Option Nat :=
  match name.toList with
  | ['0'] => some 0
  | '0' :: _ | [] => none
  | cs => if cs.all Char.isDigit then some (Text.natOfDigits cs) else none

/-- The field of a record, or the item of a list at a position counted from zero. -/
def field? (name : String) : Value → Option Value
  | record fields => fields.lookup name
  | list items => (position? name).bind fun i => items[i]?
  | _ => none

/-- The value that a row of fields leads to. -/
def follow? (v : Value) (fields : List String) : Option Value :=
  fields.foldlM (fun v name => v.field? name) v

@[simp] theorem follow?_nil (v : Value) : v.follow? [] = some v := rfl

@[simp] theorem follow?_cons (v : Value) (name : String) (fields : List String) :
    v.follow? (name :: fields) = (v.field? name).bind fun w => w.follow? fields := rfl

mutual
def toText : Value → String
  | text s => s
  | number n => toString n
  | flag b => if b then "true" else "false"
  | list items => "[" ++ ", ".intercalate (allToText items) ++ "]"
  | record _ => "[object]"
def allToText : List Value → List String
  | [] => []
  | v :: vs => v.toText :: allToText vs
end

/-- Whether a value counts as false. -/
def isEmpty : Value → Bool
  | text s => s.isEmpty
  | number n => n == 0
  | flag b => !b
  | list items => items.isEmpty
  | record fields => fields.isEmpty

def length? : Value → Option Nat
  | text s => some s.length
  | list items => some items.length
  | record fields => some fields.length
  | _ => none

/-- What a loop goes through. -/
def items? : Value → Option (List Value)
  | text s => some (s.toList.map fun c => text (String.singleton c))
  | list items => some items
  | _ => none

/-- The value that the filter of the given name makes. -/
def filtered (v : Value) (filter : String) : Except TemplateFault Value :=
  if filter = "length" then
    match v.length? with
    | some n => .ok (.number n)
    | none => .error (.noLength v.toText)
  else .error (.unknownFilter filter)

end Value

end EquationCompiler
