import EquationCompiler.Text.Basic

/-!
# The shape of records

A record is written `name(p, q) [s = text, t = text] = expression`, where the
bracketed block may be missing. This module decides whether a line has that
shape and takes it apart without judging the pieces.
-/
namespace EquationCompiler

/-- The pieces of a line of the right shape. -/
structure Shape where
  name : List Char
  parameters : List (List Char)
  substitutions : List (List Char × List Char)
  expression : List Char
  deriving DecidableEq, Repr

namespace Shape

/-- What may stand between the pieces. -/
def isBlank (c : Char) : Bool := c = ' ' || c = '\t' || c = '\r'

def isNameChar (c : Char) : Bool := c.isAlphanum || c = '_'

def skipBlanks (cs : List Char) : List Char := cs.dropWhile isBlank

/-- The name after leading blanks, and what follows it. -/
def takeName? (cs : List Char) : Option (List Char × List Char) :=
  let cs := skipBlanks cs
  let name := cs.takeWhile isNameChar
  if name.isEmpty then none else some (name, cs.dropWhile isNameChar)

/-- What follows the character `c` after leading blanks. -/
def expect? (c : Char) (cs : List Char) : Option (List Char) :=
  match skipBlanks cs with
  | d :: rest => if d = c then some rest else none
  | [] => none

/-- A name with nothing but blanks around it. -/
def parameter? (cs : List Char) : Option (List Char) := do
  let (name, rest) ← takeName? cs
  if (skipBlanks rest).isEmpty then some name else none

/-- A name, an equals sign and a text, which starts after the blanks and has no opening bracket. -/
def substitution? (cs : List Char) : Option (List Char × List Char) := do
  let (name, rest) ← takeName? cs
  let rest ← expect? '=' rest
  let text := skipBlanks rest
  if text.isEmpty || text.contains '[' then none else some (name, text)

/-- The substitutions in a block in brackets, or none without a block, and what follows. -/
def takeBlock? (cs : List Char) : Option (List (List Char × List Char) × List Char) :=
  match expect? '[' cs with
  | some rest => do
    let (block, rest) ← Text.cut? ']' rest
    let substitutions ← (Text.pieces ',' block).mapM substitution?
    some (substitutions, rest)
  | none => some ([], cs)

/-- The pieces of a line, if it has the shape of a record. -/
def ofText? (cs : List Char) : Option Shape := do
  let (name, rest) ← takeName? cs
  let rest ← expect? '(' rest
  let (parameters, rest) ← Text.cut? ')' rest
  let parameters ← (Text.pieces ',' parameters).mapM parameter?
  let (substitutions, rest) ← takeBlock? rest
  let rest ← expect? '=' rest
  let expression := skipBlanks rest
  if expression.isEmpty then none
  else some { name, parameters, substitutions, expression }

end Shape

end EquationCompiler
