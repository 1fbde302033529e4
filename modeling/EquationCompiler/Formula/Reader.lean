import EquationCompiler.Formula.Peg

/-!
# Reading formulas

The pairs of an expression are operands and operators in a row. A table says how
tightly each operator binds and on which side it groups, and operands are joined
by climbing from the loosest operators to the tightest ones.
-/
namespace EquationCompiler

/-- The structure of a formula, before names have meanings. A positive sign leaves no trace. -/
inductive Formula where
  | number (literal : String)
  | name (name : String)
  | call (name : String) (args : List Formula)
  | negation (f : Formula)
  | sum (f g : Formula)
  | difference (f g : Formula)
  | product (f g : Formula)
  | quotient (f g : Formula)
  | power (f g : Formula)
  deriving Repr, Inhabited

/-- Where the operands of an operator stand. -/
inductive Affix where
  /-- Before its only operand. -/
  | before
  /-- Between two operands. Of several in a row, the first one is applied first. -/
  | left
  /-- Between two operands. Of several in a row, the last one is applied first. -/
  | right
  deriving DecidableEq, Repr

namespace Rule

/-- The operators from the loosest to the tightest ones. -/
def operators : List (List (Rule × Affix)) :=
  [[(add, .left), (sub, .left)], [(mul, .left), (div, .left)], [(neg, .before), (pos, .before)],
    [(pow, .right)]]

/-- What kind of operator a rule is, and how tightly it binds if the first of the levels binds with
the given strength and each next one more tightly by ten. -/
def bindingIn? (r : Rule) (strength : Nat) : List (List (Rule × Affix)) → Option (Affix × Nat)
  | [] => none
  | level :: levels =>
    match level.lookup r with
    | some affix => some (affix, strength)
    | none => bindingIn? r (strength + 10) levels

def binding? (r : Rule) : Option (Affix × Nat) := r.bindingIn? 20 operators

end Rule

/-- What stands in a row in an expression. -/
inductive Item where
  | operator (r : Rule)
  | operand (f : Formula)

namespace Formula

/-- A sign before an operand. -/
def signed : Rule → Formula → Formula
  | .neg, f => negation f
  | _, f => f

/-- Two operands joined by an operator. -/
def joined? : Rule → Formula → Formula → Option Formula
  | .add, f, g => some (sum f g)
  | .sub, f, g => some (difference f g)
  | .mul, f, g => some (product f g)
  | .div, f, g => some (quotient f g)
  | .pow, f, g => some (power f g)
  | _, _, _ => none

mutual
/-- The operand at the start of the items, with all that binds to it more tightly than `bound`, and
the items after that. -/
def climb : Nat → Nat → List Item → Option (Formula × List Item)
  | rounds + 1, bound, .operand f :: items => extend rounds bound f items
  | rounds + 1, bound, .operator r :: items =>
    match r.binding? with
    | some (.before, strength) => do
      let (f, items) ← climb rounds (strength - 1) items
      extend rounds bound (signed r f) items
    | _ => none
  | _, _, _ => none
/-- The operand `f` with all that follows and binds more tightly than `bound`. -/
def extend : Nat → Nat → Formula → List Item → Option (Formula × List Item)
  | rounds + 1, bound, f, .operator r :: items => do
    let (affix, strength) ← r.binding?
    if bound < strength then
      let inner ← match affix with
        | .left => some strength
        | .right => some (strength - 1)
        | .before => none
      let (g, items) ← climb rounds inner items
      extend rounds bound (← joined? r f g) items
    else some (f, .operator r :: items)
  | _, _, f, [] => some (f, [])
  | _, _, _, _ => none
end

/-- The formula of items in a row. -/
def ofItems? (items : List Item) : Option Formula :=
  (climb items.length 0 items).map Prod.fst

end Formula

mutual
def Pair.item? : Pair → Option Item
  | ⟨.number, text, _⟩ => some (.operand (.number text))
  | ⟨.ident, text, _⟩ => some (.operand (.name text))
  | ⟨.call, _, ⟨_, function, _⟩ :: args⟩ => do return .operand (.call function (← formulas? args))
  | ⟨.expr, _, inner⟩ => do return .operand (← Formula.ofItems? (← items? inner))
  | ⟨r, _, _⟩ => some (.operator r)
def Pair.items? : List Pair → Option (List Item)
  | [] => some []
  | p :: ps => do return (← p.item?) :: (← items? ps)
/-- The formulas of arguments. -/
def Pair.formulas? : List Pair → Option (List Formula)
  | [] => some []
  | ⟨_, _, inner⟩ :: ps => do return (← Formula.ofItems? (← items? inner)) :: (← formulas? ps)
end

namespace Formula

/-- The number, counted from one, of the character in its line before which the given number of
characters is left. -/
def columnOf (text : List Char) (left : Nat) : Nat :=
  ((text.take (text.length - left)).reverse.takeWhile (· ≠ '\n')).length + 1

/-- The formula of the pairs of a whole text. -/
def ofPairs? : List Pair → Option Formula
  | ⟨.expression, _, ⟨.expr, _, inner⟩ :: _⟩ :: _ => do ofItems? (← Pair.items? inner)
  | _ => none

/-- A text as a formula. -/
@[irreducible] def read (text : String) : Except ExprFault Formula :=
  let cs := text.toList
  let (pairs, attempts) := Parser.expression cs ⟨cs.length, []⟩
  match pairs.bind fun (pairs, _) => ofPairs? pairs with
  | some f => .ok f
  | none => .error (.unreadable attempts.expected (columnOf cs attempts.left))

end Formula

end EquationCompiler
