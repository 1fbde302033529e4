/-!
# Scalars

The arithmetic that expressions are built over. Every operation of the
simplifier, the differentiator and the printer is written for an arbitrary
`Scalar`, so one definition runs on binary floating point and is reasoned about
over exact numbers.
-/
namespace EquationCompiler

/-- Numbers with the operations that symbolic simplification folds. -/
class Scalar (α : Type) extends Add α, Mul α, Neg α where
  zero : α
  one : α
  half : α
  /-- Numerical equality. The two zeros are the same; a value that is not a number is the same as
  nothing. -/
  same : α → α → Bool
  /-- Strictly below zero. -/
  isNegative : α → Bool
  /-- Neither infinite nor undefined. -/
  isFinite : α → Bool
  /-- The integer this number equals, if it is whole and its absolute value is below `10^15`. -/
  whole? : α → Option Int
  /-- The power to a positive whole exponent, if it is finite. -/
  power? : α → Nat → Option α
  /-- The quotient, if it is whole and its absolute value is below `10^15`. -/
  quotient? : α → α → Option α
  /-- The largest exponent that `natPower` works with. -/
  exponentLimit : Nat

/-- Scalars that are read from decimal literals and written as text. -/
class Numeral (α : Type) extends Scalar α where
  /-- The value nearest to `digits * 10^exponent`, unless that is too large. -/
  ofDecimal? : (digits : Nat) → (exponent : Int) → Option α
  /-- The shortest text that reads back. Text of a finite number has a point or an exponent. -/
  text : α → String

/-- The limit of machine numbers, the largest signed integer of 32 bits. -/
def machineExponentLimit : Nat := 2147483647

namespace Scalar
variable {α : Type} [Scalar α]

/-- Strictly above zero. -/
def isPositive (x : α) : Bool := isNegative (-x)

def isZero (x : α) : Bool := same x zero

def isOne (x : α) : Bool := same x one

def two : α := one + one

/-- The absolute value. Adding zero leaves every number but a negative zero as it is. -/
def magnitude (x : α) : α := if isNegative x then -x else x + zero

/-- One round of repeated squaring: `product` collects the squares `x` whose bit of `n` is set. -/
def squareAndMultiply : Nat → α → α → Nat → α
  | 0, product, _, _ => product
  | rounds + 1, product, x, n =>
    let product := if n % 2 = 1 then product * x else product
    if n / 2 = 0 then product else squareAndMultiply rounds product (x * x) (n / 2)

/-- The power of `x` to a natural exponent by repeated squaring. Exponents above `exponentLimit`
are lowered to it. -/
def natPower (x : α) (n : Nat) : α :=
  let n := min n (exponentLimit α)
  squareAndMultiply (n.log2 + 1) one x n

@[simp] theorem natPower_zero (x : α) : natPower x 0 = one := by
  simp [natPower, squareAndMultiply]

end Scalar

end EquationCompiler
