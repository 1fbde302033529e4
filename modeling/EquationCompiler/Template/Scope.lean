import EquationCompiler.Template.Value

/-!
# Scopes of templates

A path is looked up in the rounds of the loops around it, from the inside out, and
then among the fields that the template is rendered with. A round that cannot
follow the path to its end leaves it to the next, even if it knows the name.
-/
namespace EquationCompiler

/-- One round of a loop. -/
structure LoopRound where
  /-- The name that the loop gives to each item. -/
  name : String
  item : Value
  index : Nat
  count : Nat
  deriving Repr, Inhabited

/-- What can be looked up at some place in a template. -/
structure Scope where
  /-- The rounds of the loops around the place, innermost first. -/
  rounds : List LoopRound := []
  fields : List (String × Value)
  deriving Repr, Inhabited

/-- Where a round stands in its loop, under the names that follow `loop`. -/
def LoopRound.place? (r : LoopRound) : List String → Option Value
  | ["index"] => some (.number (r.index + 1))
  | ["index0"] => some (.number r.index)
  | ["first"] => some (.flag (r.index = 0))
  | ["last"] => some (.flag (r.index + 1 = r.count))
  | _ => none

/-- What a round says about a path. The name `loop` always means the loop and never its item. -/
def LoopRound.find? (r : LoopRound) : ValuePath → Option Value
  | [] => none
  | name :: fields =>
    if name = "loop" then r.place? fields
    else if name = r.name then r.item.follow? fields
    else none

namespace Scope

def find? (scope : Scope) (path : ValuePath) : Option Value :=
  (scope.rounds.findSome? (·.find? path)).or ((Value.record scope.fields).follow? path)

def find (scope : Scope) (path : ValuePath) : Except TemplateFault Value :=
  match scope.find? path with
  | some v => .ok v
  | none => .error (.unknownName path)

/-- The scope inside one more loop. -/
def enter (scope : Scope) (r : LoopRound) : Scope := { scope with rounds := r :: scope.rounds }

theorem find?_enter (scope : Scope) (r : LoopRound) (path : ValuePath) :
    (scope.enter r).find? path = (r.find? path).or (scope.find? path) := by
  cases h : r.find? path <;> simp [enter, find?, h]

/-- The scopes of the rounds of a loop. -/
def loop (scope : Scope) (name : String) (items : List Value) : List Scope :=
  items.mapIdx fun i item => scope.enter ⟨name, item, i, items.length⟩

@[simp] theorem length_loop (scope : Scope) (name : String) (items : List Value) :
    (scope.loop name items).length = items.length := by
  simp [loop]

end Scope

end EquationCompiler
