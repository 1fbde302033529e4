import EquationCompiler.Expr.Fault
import EquationCompiler.Expr.Simplify

/-!
# Printing expressions

One printer writes both dialects: formulas, which can be read again, and C++. It
gives signs to negative terms, gathers factors with negative exponents below a
division line, and puts in the parentheses that precedence demands. C++ text
never divides one integer literal by another.

Some pieces are simplified again before they are printed: a term without its
sign, a factor moved below the line. Such a piece is never larger than what it
came from, which bounds the recursion.
-/
namespace EquationCompiler

/-- The language that is written. -/
inductive Dialect where
  | formula
  | cpp
  deriving DecidableEq, Repr

/-- How tightly a text binds. -/
inductive Precedence where
  | sum
  | product
  | power
  | atom
  deriving DecidableEq, Repr

def Precedence.rank : Precedence → Nat
  | sum => 1
  | product => 2
  | power => 3
  | atom => 4

/-- A text and how tightly it binds. -/
structure Printed where
  text : String
  precedence : Precedence
  deriving DecidableEq, Repr

namespace Printed

/-- The text for a place that needs the given precedence. -/
def atLeast (p : Printed) (needed : Precedence) : String :=
  if p.precedence.rank < needed.rank then "(" ++ p.text ++ ")" else p.text

@[simp] theorem atLeast_self (text : String) (p : Precedence) :
    atLeast ⟨text, p⟩ p = text := by
  simp [atLeast]

@[simp] theorem atLeast_atom (text : String) (p : Precedence) :
    atLeast ⟨text, .atom⟩ p = text := by
  cases p <;> rfl

end Printed

namespace Dialect

def constant : Dialect → Constant → String
  | formula, c => c.name
  | cpp, .pi => "M_PI"
  | cpp, .e => "M_E"

def function : Dialect → Elementary → String
  | cpp, .abs => "fabs"
  | _, f => f.name

variable {α : Type} [Numeral α]

/-- A number. Whole ones are written without a point, unless an operand of a division has to be
no integer in C++. -/
def number (d : Dialect) (x : α) (divides : Bool) : String :=
  match Scalar.whole? x with
  | some n => if divides && d == cpp then Numeral.text x else toString n
  | none => Numeral.text x

end Dialect

namespace Expr
variable {α : Type} [Numeral α]

/-- A term of a sum as a sign and a magnitude. -/
def splitSign : Expr α → Bool × Expr α
  | number x => if Scalar.isNegative x then (true, number (-x)) else (false, number x)
  | product (number c :: rest) =>
    if Scalar.isNegative c then (true, mul (number (-c) :: rest))
    else (false, product (number c :: rest))
  | e => (false, e)

/-- Terms with their signs. The first has a sign only if it is negative. -/
def joinTerms : List (Bool × String) → String
  | [] => ""
  | (negative, first) :: rest =>
    (if negative then "-" else "") ++ first ++
      String.join (rest.map fun (negative, term) => (if negative then " - " else " + ") ++ term)

def printSum (print : Expr α → Printed) (ts : List (Expr α)) : Printed :=
  let term (t : Expr α) :=
    let (negative, magnitude) := splitSign t
    (negative, (print magnitude).atLeast .product)
  ⟨joinTerms (ts.map term), .sum⟩

/-- The factors of a product, sorted into a coefficient and the factors above and below the
division line. -/
structure Fraction (α : Type) where
  coefficient : α
  above : List (Expr α)
  below : List (Expr α)

/-- A factor to a negative numeric exponent goes below the line with the exponent negated. -/
def Fraction.push (f : Fraction α) : Expr α → Fraction α
  | number x => { f with coefficient := f.coefficient * x }
  | power b (number e) =>
    if Scalar.isNegative e then { f with below := f.below ++ [pow b (number (-e))] }
    else { f with above := f.above ++ [power b (number e)] }
  | e => { f with above := f.above ++ [e] }

def Fraction.ofFactors (fs : List (Expr α)) : Fraction α :=
  fs.foldl Fraction.push ⟨Scalar.one, [], []⟩

/-- A factor below the line, in a place that needs the given precedence. -/
def printDivisor (d : Dialect) (print : Expr α → Printed) (needed : Precedence) :
    Expr α → String
  | number x => d.number x true
  | e => (print e).atLeast needed

/-- What follows the factors above the line. -/
def printBelow (d : Dialect) (print : Expr α → Printed) : List (Expr α) → String
  | [] => ""
  | [e] => "/" ++ printDivisor d print .power e
  | es => "/(" ++ "*".intercalate (es.map (printDivisor d print .product)) ++ ")"

def printProduct (d : Dialect) (print : Expr α → Printed) (fs : List (Expr α)) : Printed :=
  let f := Fraction.ofFactors fs
  let size := Scalar.magnitude f.coefficient
  let lead :=
    if !Scalar.isOne size || f.above.isEmpty then
      [d.number size (f.above.isEmpty && !f.below.isEmpty)]
    else []
  let text := "*".intercalate (lead ++ f.above.map fun e => (print e).atLeast .product) ++
    printBelow d print f.below
  if Scalar.isNegative f.coefficient then ⟨"-" ++ text, .sum⟩ else ⟨text, .product⟩

/-- A power whose exponent is no negative number. -/
def printPower (d : Dialect) (print : Expr α → Printed) (b e : Expr α) : Printed :=
  if (e.asNumber?.any (Scalar.same · Scalar.half)) then
    ⟨"sqrt(" ++ (print b).text ++ ")", .atom⟩
  else match d with
    | .cpp => ⟨"pow(" ++ (print b).text ++ ", " ++ (print e).text ++ ")", .atom⟩
    | .formula => ⟨(print b).atLeast .atom ++ "**" ++ (print e).atLeast .atom, .power⟩

/-- Prints an expression whose parts are printed by `print`. -/
def printWith (d : Dialect) (print : Expr α → Printed) : Expr α → Printed
  | number x => ⟨d.number x false, if Scalar.isNegative x then .sum else .atom⟩
  | symbol s => ⟨s, .atom⟩
  | constant c => ⟨d.constant c, .atom⟩
  | sum ts => printSum print ts
  | product fs => printProduct d print fs
  | power b e =>
    if e.asNumber?.any Scalar.isNegative then printProduct d print [power b e]
    else printPower d print b e
  | call f args =>
    ⟨d.function f ++ "(" ++ ", ".intercalate (args.map fun e => (print e).text) ++ ")", .atom⟩

/-- Prints with at most `rounds` nested parts. -/
def printIn (d : Dialect) : Nat → Expr α → Printed
  | 0, _ => ⟨"", .atom⟩
  | rounds + 1, e => printWith d (printIn d rounds) e

mutual
/-- The number of nodes that are no numbers. Simplifying never increases it. -/
def weight : Expr α → Nat
  | number _ => 0
  | symbol _ | constant _ => 1
  | sum es | product es | call _ es => weightAll es + 1
  | power b e => b.weight + e.weight + 1
def weightAll : List (Expr α) → Nat
  | [] => 0
  | e :: es => e.weight + weightAll es
end

/-- The text of an expression and how tightly it binds. A power with a negative exponent is
printed as a fraction of a part that may weigh as much, all other parts weigh less, so twice the
weight bounds the nesting. -/
def print (d : Dialect) (e : Expr α) : Printed := printIn d (2 * e.weight + 2) e

/-- The formula that an expression is written as. -/
def toFormula (e : Expr α) : String := (e.print .formula).text

/-- The C++ text of an expression. Infinite and undefined numbers have none. -/
def toCpp (e : Expr α) : Except ExprFault String :=
  match e.nonFinite? with
  | some x => .error (.nonFinite (Numeral.text x))
  | none => .ok (e.print .cpp).text

end Expr

end EquationCompiler
