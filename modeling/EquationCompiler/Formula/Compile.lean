import EquationCompiler.Expr.Simplify
import EquationCompiler.Formula.Reader
import EquationCompiler.Text.Basic

/-!
# From formulas to expressions

Names get their meanings: a name of the vocabulary is a symbol, whatever else it
could be; other names may be constants or functions. Expressions are built from
the inside out and from left to right, so the first fault in this order is the
one reported.
-/
namespace EquationCompiler

/-- The names that stand for symbols even where they would name a constant or a function. -/
structure Vocabulary where
  names : List String := []
  deriving DecidableEq, Repr

namespace Vocabulary

def ofList (names : List String) : Vocabulary := ⟨sortedNames names⟩

def contains (v : Vocabulary) (name : String) : Bool := v.names.contains name

def insert (v : Vocabulary) (name : String) : Vocabulary := ⟨insertName name v.names⟩

def size (v : Vocabulary) : Nat := v.names.length

def isEmpty (v : Vocabulary) : Bool := v.names.isEmpty

@[simp] theorem contains_ofList (names : List String) (name : String) :
    (ofList names).contains name = names.contains name := by
  simp [contains, ofList]

@[simp] theorem contains_insert (v : Vocabulary) (a b : String) :
    (v.insert a).contains b = (b == a || v.contains b) := by
  rw [Bool.eq_iff_iff]
  simp [contains, insert]

end Vocabulary

/-- A literal as `digits * 10^exponent`. -/
def decimalOfLiteral (cs : List Char) : Nat × Int :=
  let isMantissa (c : Char) : Bool := c ≠ 'e' && c ≠ 'E'
  let mantissa := cs.takeWhile isMantissa
  let exponent := Text.intOfDigits ((cs.dropWhile isMantissa).drop 1)
  let places := ((mantissa.dropWhile (· ≠ '.')).drop 1).length
  (Text.natOfDigits (mantissa.filter Char.isDigit), exponent - places)

namespace Formula
variable {α : Type} [Numeral α]

def literalValue? (literal : String) : Option α :=
  let (digits, exponent) := decimalOfLiteral literal.toList
  Numeral.ofDecimal? digits exponent

/-- The meaning of a name that is not applied. -/
def identifier (v : Vocabulary) (s : String) : Expr α :=
  if v.contains s then .symbol s
  else match Constant.ofName? s with
    | some c => .constant c
    | none => .symbol s

/-- The meaning of a name that is applied. A square root is a power. -/
def application (v : Vocabulary) (f : String) (args : List (Expr α)) :
    Except ExprFault (Expr α) :=
  if v.contains f then .error (.notCallable f)
  else if f = "sqrt" then
    match args with
    | [e] => .ok (e.pow (.number Scalar.half))
    | _ => .error (.arity f 1 args.length)
  else match Elementary.ofName? f with
    | none => .error (.unknownFunction f)
    | some g =>
      if args.length = g.arity then .ok (.apply g args) else .error (.arity f g.arity args.length)

mutual
/-- The expression that a formula denotes. -/
def compile (v : Vocabulary) : Formula → Except ExprFault (Expr α)
  | number literal =>
    match literalValue? literal with
    | some x => .ok (.number x)
    | none => .error (.invalidNumber literal)
  | name s => .ok (identifier v s)
  | call f args => do
    let args ← compileAll v args
    application v f args
  | negation f => do
    let a ← compile v f
    return a.neg
  | sum f g => do
    let a ← compile v f
    let b ← compile v g
    return .add [a, b]
  | difference f g => do
    let a ← compile v f
    let b ← compile v g
    return a.sub b
  | product f g => do
    let a ← compile v f
    let b ← compile v g
    return .mul [a, b]
  | quotient f g => do
    let a ← compile v f
    let b ← compile v g
    return a.div b
  | power f g => do
    let a ← compile v f
    let b ← compile v g
    return a.pow b
def compileAll (v : Vocabulary) : List Formula → Except ExprFault (List (Expr α))
  | [] => .ok []
  | f :: fs => do
    let e ← compile v f
    let es ← compileAll v fs
    return e :: es
end

end Formula

/-- The expression that a text denotes. A text that is no formula is reported before any fault in
the meaning of its parts. -/
def Expr.parse {α : Type} [Numeral α] (v : Vocabulary) (text : String) :
    Except ExprFault (Expr α) := do
  let f ← Formula.read text
  f.compile v

end EquationCompiler
