import EquationCompiler.Expr.Simplify

/-!
# Derivatives

The rules for sums, products, powers and functions, with every result built by
the simplifying constructors. An expression without the symbol has the
derivative zero whatever its shape.
-/
namespace EquationCompiler.Expr
variable {α : Type} [Scalar α]

/-- The product rule: for each factor whose derivative is not zero, the other factors in order and
then that derivative. `before` holds the factors already passed. -/
def productTerms (before : List (Expr α)) : List (Expr α) → List (Expr α) → List (Expr α)
  | f :: fs, d :: ds =>
    let later := productTerms (before ++ [f]) fs ds
    if d.isZero then later else mul (before ++ fs ++ [d]) :: later
  | _, _ => []

/-- The derivative of a power whose exponent does not depend on the symbol. -/
def powerRule (b e db : Expr α) : Expr α :=
  mul [e, pow b (add [e, number (-Scalar.one)]), db]

/-- The derivative of a power whose exponent depends on the symbol:
`b^e * (de * log b + e * db / b)`. -/
def exponentialRule (b e db de : Expr α) : Expr α :=
  let logTerm := mul [de, apply .log [b]]
  let ratioTerm := mul [e, db, pow b (number (-Scalar.one))]
  mul [pow b e, add [logTerm, ratioTerm]]

def square (e : Expr α) : Expr α := pow e (number Scalar.two)

/-- The derivative of a function of one argument, at that argument. -/
def outerDerivative : Elementary → Expr α → Expr α
  | .sin, x => apply .cos [x]
  | .cos, x => neg (apply .sin [x])
  | .tan, x => pow (apply .cos [x]) (number (-Scalar.two))
  | .asin, x => pow (sub (number Scalar.one) (square x)) (number (-Scalar.half))
  | .acos, x => neg (pow (sub (number Scalar.one) (square x)) (number (-Scalar.half)))
  | .atan, x => pow (add [number Scalar.one, square x]) (number (-Scalar.one))
  | .sinh, x => apply .cosh [x]
  | .cosh, x => apply .sinh [x]
  | .tanh, x => pow (apply .cosh [x]) (number (-Scalar.two))
  | .exp, x => apply .exp [x]
  | .log, x => pow x (number (-Scalar.one))
  | .abs, x => div x (apply .abs [x])
  | .atan2, _ => number Scalar.zero

/-- The derivative of the angle of the point `(x, y)`: `(x dy - y dx) / (x^2 + y^2)`. -/
def angleRule (y x dy dx : Expr α) : Expr α :=
  div (sub (mul [x, dy]) (mul [y, dx])) (add [square x, square y])

/-- The chain rule. Only the first argument of a function of one argument counts, and an angle
with the wrong number of arguments has the derivative zero. -/
def chainRule (f : Elementary) (args derivatives : List (Expr α)) : Expr α :=
  match f, args, derivatives with
  | .atan2, [y, x], [dy, dx] => angleRule y x dy dx
  | .atan2, _, _ => number Scalar.zero
  | f, x :: _, dx :: _ => mul [outerDerivative f x, dx]
  | _, _, _ => number Scalar.zero

mutual
/-- The partial derivative by the symbol `name`. -/
def derivative (name : String) : Expr α → Expr α
  | number _ | constant _ => number Scalar.zero
  | symbol s => number (if s == name then Scalar.one else Scalar.zero)
  | sum ts =>
    if containsAny name ts then add (derivativeAll name ts) else number Scalar.zero
  | product fs =>
    if containsAny name fs then add (productTerms [] fs (derivativeAll name fs))
    else number Scalar.zero
  | power b e =>
    if e.contains name then exponentialRule b e (derivative name b) (derivative name e)
    else if b.contains name then powerRule b e (derivative name b)
    else number Scalar.zero
  | call f args =>
    if containsAny name args then chainRule f args (derivativeAll name args)
    else number Scalar.zero
def derivativeAll (name : String) : List (Expr α) → List (Expr α)
  | [] => []
  | e :: es => derivative name e :: derivativeAll name es
end

/-- The partial derivatives by the symbols in `names`, in order. -/
def gradient (e : Expr α) (names : List String) : List (Expr α) :=
  names.map fun name => e.derivative name

@[simp] theorem length_gradient (e : Expr α) (names : List String) :
    (e.gradient names).length = names.length := by
  simp [gradient]

end EquationCompiler.Expr
