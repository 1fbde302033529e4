import EquationCompiler.Number.Scalar
import EquationCompiler.Text.Names

/-!
# Symbolic expressions

A difference is a sum with a coefficient `-1`, and a quotient is a product with
an exponent `-1`, so every transformation deals with sums, products, powers and
calls only. The type is plain data: building simplified expressions is the work
of `Expr.add`, `Expr.mul`, `Expr.pow` and `Expr.call`.
-/
namespace EquationCompiler

/-- The named mathematical constants. -/
inductive Constant where
  | pi
  | e
  deriving DecidableEq, Repr

namespace Constant

/-- The name in formulas. -/
def name : Constant → String
  | pi => "pi"
  | e => "E"

def ofName? (name : String) : Option Constant :=
  if name = "pi" then some pi else if name = "E" then some e else none

@[simp] theorem ofName?_name (c : Constant) : ofName? c.name = some c := by
  cases c <;> rfl

end Constant

/-- The functions that formulas may apply. A square root is not among them: it is a power. -/
inductive Elementary where
  | sin | cos | tan
  | asin | acos | atan | atan2
  | sinh | cosh | tanh
  | exp | log | abs
  deriving DecidableEq, Repr

namespace Elementary

/-- The name in formulas. -/
def name : Elementary → String
  | sin => "sin" | cos => "cos" | tan => "tan"
  | asin => "asin" | acos => "acos" | atan => "atan" | atan2 => "atan2"
  | sinh => "sinh" | cosh => "cosh" | tanh => "tanh"
  | exp => "exp" | log => "log" | abs => "abs"

def all : List Elementary :=
  [sin, cos, tan, asin, acos, atan, atan2, sinh, cosh, tanh, exp, log, abs]

theorem mem_all (f : Elementary) : f ∈ all := by
  cases f <;> decide

def ofName? (name : String) : Option Elementary := all.find? (·.name = name)

@[simp] theorem ofName?_name (f : Elementary) : ofName? f.name = some f := by
  cases f <;> decide

/-- The number of arguments. -/
def arity : Elementary → Nat
  | atan2 => 2
  | _ => 1

end Elementary

/-- A symbolic expression with coefficients in `α`. -/
inductive Expr (α : Type) where
  | number (value : α)
  | symbol (name : String)
  | constant (c : Constant)
  | sum (terms : List (Expr α))
  | product (factors : List (Expr α))
  | power (base exponent : Expr α)
  | call (f : Elementary) (args : List (Expr α))
  deriving Repr, Inhabited

namespace Expr
variable {α : Type}

def asNumber? : Expr α → Option α
  | number x => some x
  | _ => none

@[simp] theorem asNumber?_number (x : α) : (number x).asNumber? = some x := rfl

section Tests
variable [Scalar α]

/-- The number zero, of either sign. -/
def isZero : Expr α → Bool
  | number x => Scalar.isZero x
  | _ => false

/-- The number one. -/
def isOne : Expr α → Bool
  | number x => Scalar.isOne x
  | _ => false

mutual
/-- Equality of structure, in which numbers are compared as numbers and order matters. -/
def same : Expr α → Expr α → Bool
  | number x, number y => Scalar.same x y
  | symbol a, symbol b => a == b
  | constant c, constant d => c == d
  | sum as, sum bs => sameAll as bs
  | product as, product bs => sameAll as bs
  | power a x, power b y => same a b && same x y
  | call f as, call g bs => f == g && sameAll as bs
  | _, _ => false
def sameAll : List (Expr α) → List (Expr α) → Bool
  | [], [] => true
  | a :: as, b :: bs => same a b && sameAll as bs
  | _, _ => false
end

mutual
/-- The first number, from left to right, that is not finite. -/
def nonFinite? : Expr α → Option α
  | number x => if Scalar.isFinite x then none else some x
  | symbol _ | constant _ => none
  | sum es | product es | call _ es => nonFiniteAny? es
  | power b e => b.nonFinite? <|> e.nonFinite?
def nonFiniteAny? : List (Expr α) → Option α
  | [] => none
  | e :: es => e.nonFinite? <|> nonFiniteAny? es
end

end Tests

mutual
/-- Whether the symbol `name` occurs. -/
def contains (name : String) : Expr α → Bool
  | number _ | constant _ => false
  | symbol s => s == name
  | sum es | product es | call _ es => containsAny name es
  | power b e => b.contains name || e.contains name
def containsAny (name : String) : List (Expr α) → Bool
  | [] => false
  | e :: es => e.contains name || containsAny name es
end

mutual
/-- The symbols in order of occurrence, with repetitions. -/
def symbols : Expr α → List String
  | number _ | constant _ => []
  | symbol s => [s]
  | sum es | product es | call _ es => symbolsAll es
  | power b e => b.symbols ++ e.symbols
def symbolsAll : List (Expr α) → List String
  | [] => []
  | e :: es => e.symbols ++ symbolsAll es
end

end Expr

/-- The distinct symbols of an expression, ascending. -/
def Expr.freeSymbols {α : Type} (e : Expr α) : List String := sortedNames e.symbols

@[simp] theorem Expr.mem_freeSymbols {α : Type} {e : Expr α} {name : String} :
    name ∈ e.freeSymbols ↔ name ∈ e.symbols := mem_sortedNames

end EquationCompiler
