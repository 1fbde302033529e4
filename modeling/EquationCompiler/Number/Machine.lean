import EquationCompiler.Expr.Evaluate
import EquationCompiler.Number.Shortest

/-!
# Machine numbers

Binary floating point of 64 bits as scalars. Whether a number is whole, and how it
is written, is read off its sign, significand and power of two. Constants, powers
and elementary functions are as the machine computes them.
-/
namespace EquationCompiler

/-- What the bits of a machine number stand for. A finite one is `± significand * 2^exponent`. -/
inductive Binary64 where
  | nan
  | infinite (negative : Bool)
  | finite (negative : Bool) (significand : Nat) (exponent : Int)
  deriving DecidableEq, Repr

namespace Binary64

/-- A sign bit, eleven bits of exponent and 52 bits of fraction. The least exponent field has no
hidden leading bit, the greatest is kept for values that are not finite. -/
def ofBits (bits : Nat) : Binary64 :=
  let negative : Bool := bits / Nat.pow 2 63 = 1
  let field : Nat := bits / Nat.pow 2 52 % Nat.pow 2 11
  let fraction : Nat := bits % Nat.pow 2 52
  if field = 2047 then
    if fraction = 0 then .infinite negative else .nan
  else if field = 0 then .finite negative fraction (-1074)
  else .finite negative (Nat.pow 2 52 + fraction) ((field : Int) - 1075)

def ofFloat (x : Float) : Binary64 := ofBits x.toBits.toNat

/-- The integer that a whole value below `10^15` equals. -/
def whole? : Binary64 → Option Int
  | .finite negative m q =>
    let unit := Nat.pow 2 (-q).toNat
    let n := m * Nat.pow 2 q.toNat / unit
    if m % unit = 0 ∧ n < Nat.pow 10 15 then some (if negative then -n else n) else none
  | _ => none

/-- The shortest text that reads back. -/
def text : Binary64 → String
  | .nan => "NaN"
  | .infinite negative => if negative then "-inf" else "inf"
  | .finite negative m q =>
    let sign := if negative then "-" else ""
    if m = 0 then sign ++ "0.0" else sign ++ (Shortest.shortest m q).text

/-- The machine number nearest to `digits * 10^exponent`, unless that is too large. -/
def ofDecimal? (digits : Nat) (exponent : Int) : Option Float :=
  let value := Float.ofScientific digits (exponent < 0) exponent.natAbs
  if value.isFinite then some value else none

end Binary64

instance : Numeral Float where
  add := Float.add
  mul := Float.mul
  neg := Float.neg
  zero := 0
  one := 1
  half := 0.5
  same x y := x == y
  isNegative x := x < 0
  isFinite := Float.isFinite
  whole? x := (Binary64.ofFloat x).whole?
  power? x n :=
    let power := x ^ Float.ofNat n
    if power.isFinite then some power else none
  quotient? x y :=
    let quotient := x / y
    (Binary64.ofFloat quotient).whole?.map fun _ => quotient
  exponentLimit := machineExponentLimit
  ofDecimal? := Binary64.ofDecimal?
  text x := (Binary64.ofFloat x).text

instance : Transcendental Float where
  constant
    | .pi => 3.141592653589793
    | .e => 2.718281828459045
  power x y := x ^ y
  function
    | .sin, [x] => x.sin
    | .cos, [x] => x.cos
    | .tan, [x] => x.tan
    | .asin, [x] => x.asin
    | .acos, [x] => x.acos
    | .atan, [x] => x.atan
    | .atan2, [y, x] => Float.atan2 y x
    | .sinh, [x] => x.sinh
    | .cosh, [x] => x.cosh
    | .tanh, [x] => x.tanh
    | .exp, [x] => x.exp
    | .log, [x] => x.log
    | .abs, [x] => x.abs
    | _, _ => 0 / 0

end EquationCompiler
