import EquationCompiler.Formula.Reader
import EquationCompiler.Proofs.Scanner

/-!
# Reading by descent

Formulas can be read from their tokens without going back and without a table: a sum
has terms, a term has signed factors, a factor may be a power, and the exponent of a
power is again signed. Sums and terms group to the left, powers to the right, and a
power binds more tightly than a sign before it.

The first token that cannot continue the formula ends the reading with what was
expected in its place.
-/
namespace EquationCompiler

namespace Formula

/-- Where a formula cannot be continued: what was expected, and the tokens that remain. -/
structure Obstacle where
  expected : Expected
  remaining : List Token
  deriving DecidableEq, Repr

/-- A formula and the tokens after it. -/
abbrev Reading := Except Obstacle (Formula × List Token)

/-- Arguments of a function and the tokens after them. -/
abbrev ReadingArguments := Except Obstacle (List Formula × List Token)

mutual
def readSum : Nat → Expected → List Token → Reading
  | 0, expected, ts => .error ⟨expected, ts⟩
  | depth + 1, expected, ts => do
    let (f, rest) ← readTerm depth expected ts
    readTerms depth f rest
/-- The terms that follow the sum `f`. -/
def readTerms : Nat → Formula → List Token → Reading
  | depth + 1, f, .plus :: ts => do
    let (g, rest) ← readTerm depth .operand ts
    readTerms depth (sum f g) rest
  | depth + 1, f, .minus :: ts => do
    let (g, rest) ← readTerm depth .operand ts
    readTerms depth (difference f g) rest
  | _, f, ts => .ok (f, ts)
def readTerm : Nat → Expected → List Token → Reading
  | 0, expected, ts => .error ⟨expected, ts⟩
  | depth + 1, expected, ts => do
    let (f, rest) ← readSigned depth expected ts
    readFactors depth f rest
/-- The factors that follow the term `f`. -/
def readFactors : Nat → Formula → List Token → Reading
  | depth + 1, f, .star :: ts => do
    let (g, rest) ← readSigned depth .operand ts
    readFactors depth (product f g) rest
  | depth + 1, f, .slash :: ts => do
    let (g, rest) ← readSigned depth .operand ts
    readFactors depth (quotient f g) rest
  | _, f, ts => .ok (f, ts)
def readSigned : Nat → Expected → List Token → Reading
  | 0, expected, ts => .error ⟨expected, ts⟩
  | depth + 1, _, .minus :: ts => do
    let (f, rest) ← readSigned depth .operand ts
    return (negation f, rest)
  | depth + 1, _, .plus :: ts => readSigned depth .operand ts
  | depth + 1, expected, ts => readPower depth expected ts
def readPower : Nat → Expected → List Token → Reading
  | 0, expected, ts => .error ⟨expected, ts⟩
  | depth + 1, expected, ts => do
    let (f, rest) ← readOperand depth expected ts
    match rest with
    | .power :: rest => do
      let (g, rest) ← readSigned depth .operand rest
      return (power f g, rest)
    | rest => return (f, rest)
def readOperand : Nat → Expected → List Token → Reading
  | _ + 1, _, .number literal :: ts => .ok (number literal, ts)
  | depth + 1, _, .name f :: .opening :: ts => do
    let (arg, rest) ← readSum depth .expression ts
    let (args, rest) ← readArguments depth rest
    return (call f (arg :: args), rest)
  | _ + 1, _, .name s :: ts => .ok (name s, ts)
  | depth + 1, _, .opening :: ts => do
    let (f, rest) ← readSum depth .expression ts
    match rest with
    | .closing :: rest => return (f, rest)
    | rest => throw ⟨.operator, rest⟩
  | _, expected, ts => .error ⟨expected, ts⟩
/-- The arguments that follow the first one, up to the closing parenthesis. -/
def readArguments : Nat → List Token → ReadingArguments
  | _ + 1, .closing :: ts => .ok ([], ts)
  | depth + 1, .comma :: ts => do
    let (arg, rest) ← readSum depth .expression ts
    let (args, rest) ← readArguments depth rest
    return (arg :: args, rest)
  | _, ts => .error ⟨.operator, ts⟩
end

/-- A list of tokens as a formula. From a sum to an operand there are five levels, and only a token
leads from an operand back to a sum, which bounds the nesting. -/
def ofTokens (ts : List Token) : Except Obstacle Formula := do
  let (f, rest) ← readSum (5 * ts.length + 5) .expression ts
  match rest with
  | [] => return f
  | rest => throw ⟨.operatorOrEnd, rest⟩

/-- How many characters of a text are left from its last tokens on. -/
def leftAt (text : List Char) (remaining : List Token) : Nat :=
  let lexemes := Token.scan text
  match lexemes.drop (lexemes.length - remaining.length) with
  | (_, rest) :: _ => rest.length
  | [] => 0

/-- A text as a formula, by descent. -/
def descend (text : String) : Except ExprFault Formula :=
  match ofTokens (Token.tokens text.toList) with
  | .ok f => .ok f
  | .error obstacle => .error (.unreadable obstacle.expected
    (columnOf text.toList (leftAt text.toList obstacle.remaining)))

end Formula

end EquationCompiler
