import EquationCompiler.Expr.Equivalence

/-!
# Simplifying constructors

Sums collect like terms, products fold their coefficients and merge equal bases,
powers of powers merge their exponents. The order is that of first appearance,
never sorted, so equal inputs give equal outputs.

A sum needs products of its collected terms, a product needs sums of the
exponents it merges, and a power needs products of exponents. The recursion is
bounded by `depth`, which counts how often exponents are nested: the exponents of
an expression are less deep than the expression, so `mulAt` at one level calls
itself only at the level below.
-/
namespace EquationCompiler.Expr
variable {α : Type} [Scalar α]

mutual
/-- The terms of a sum, of the sums among them, and so on. Anything else is its own only term. -/
def terms : Expr α → List (Expr α)
  | sum ts => termsAll ts
  | number x => [number x]
  | symbol s => [symbol s]
  | constant c => [constant c]
  | product fs => [product fs]
  | power b e => [power b e]
  | call f as => [call f as]
def termsAll : List (Expr α) → List (Expr α)
  | [] => []
  | t :: ts => t.terms ++ termsAll ts
end

mutual
/-- The factors of a product, of the products among them, and so on. -/
def factors : Expr α → List (Expr α)
  | product fs => factorsAll fs
  | number x => [number x]
  | symbol s => [symbol s]
  | constant c => [constant c]
  | sum ts => [sum ts]
  | power b e => [power b e]
  | call f as => [call f as]
def factorsAll : List (Expr α) → List (Expr α)
  | [] => []
  | f :: fs => f.factors ++ factorsAll fs
end

/-- The list of an expression kind that needs no wrapping when it has one element. -/
def collapse (wrap : List (Expr α) → Expr α) : List (Expr α) → Expr α
  | [e] => e
  | es => wrap es

/-- A term as a leading numeric coefficient and the rest. -/
def splitCoefficient : Expr α → α × Expr α
  | product (number c :: rest) => (c, collapse product rest)
  | e => (Scalar.one, e)

/-- Adds `c * rest` to the like term if there is one, and appends it otherwise. -/
def collectTerm (c : α) (rest : Expr α) : List (α × Expr α) → List (α × Expr α)
  | [] => [(c, rest)]
  | (k, e) :: more =>
    if equiv e rest then (k + c, e) :: more else (k, e) :: collectTerm c rest more

/-- The numeric part of a sum and its like terms with their coefficients. -/
structure Collected (α : Type) where
  constant : α
  terms : List (α × Expr α)

def Collected.insert (s : Collected α) : Expr α → Collected α
  | number x => { s with constant := s.constant + x }
  | e => let (c, rest) := splitCoefficient e; { s with terms := collectTerm c rest s.terms }

def collect (ts : List (Expr α)) : Collected α :=
  (termsAll ts).foldl Collected.insert ⟨Scalar.zero, []⟩

/-- One collected term, or nothing if its coefficient has become zero. -/
def restoreTerm (mul : List (Expr α) → Expr α) : α × Expr α → Option (Expr α)
  | (c, rest) =>
    if Scalar.isZero c then none
    else if Scalar.isOne c then some rest
    else some (mul [number c, rest])

/-- The sum of `ts`: its numeric part, unless zero, and then the like terms. -/
def addWith (mul : List (Expr α) → Expr α) (ts : List (Expr α)) : Expr α :=
  let s := collect ts
  let kept := s.terms.filterMap (restoreTerm mul)
  match if Scalar.isZero s.constant then kept else number s.constant :: kept with
  | [] => number Scalar.zero
  | es => collapse sum es

/-- The exponent as a whole number. -/
def wholeExponent? : Expr α → Option (α × Int)
  | number e => (Scalar.whole? e).map (e, ·)
  | _ => none

/-- A power of a number: folded if the exponent is positive and whole and the result is finite,
and zero for any positive power of zero. -/
def numberPower (b : α) (exponent : Expr α) : Expr α :=
  match exponent with
  | number e =>
    let folded := match Scalar.whole? e with
      | some n => if 0 < n then Scalar.power? b n.toNat else none
      | none => none
    match folded with
    | some value => number value
    | none =>
      if Scalar.isZero b && Scalar.isPositive e then number Scalar.zero
      else power (number b) exponent
  | _ => power (number b) exponent

/-- The power of `base` to `exponent`. A whole power of a power multiplies the exponents. -/
def powWith (mul : List (Expr α) → Expr α) : Expr α → Expr α → Expr α
  | base, exponent =>
    if exponent.isZero || base.isOne then number Scalar.one
    else if exponent.isOne then base
    else match base with
      | number b => numberPower b exponent
      | power inner e =>
        match wholeExponent? exponent with
        | some _ => powWith mul inner (mul [e, exponent])
        | none => power (power inner e) exponent
      | base => power base exponent

/-- A factor as a base and an exponent. -/
def splitPower : Expr α → Expr α × Expr α
  | power b e => (b, e)
  | e => (e, number Scalar.one)

/-- Adds the exponent to that of an equal base if there is one, and appends the power otherwise. -/
def collectPower (add : List (Expr α) → Expr α) (b e : Expr α) :
    List (Expr α × Expr α) → List (Expr α × Expr α)
  | [] => [(b, e)]
  | (c, x) :: more =>
    if equiv c b then (c, add [x, e]) :: more else (c, x) :: collectPower add b e more

/-- The coefficient of a product and its bases with their exponents. -/
structure Powers (α : Type) where
  coefficient : α
  powers : List (Expr α × Expr α)

def Powers.insert (add : List (Expr α) → Expr α) (p : Powers α) : Expr α → Powers α
  | number x => { p with coefficient := p.coefficient * x }
  | e => let (b, x) := splitPower e; { p with powers := collectPower add b x p.powers }

def collectPowers (add : List (Expr α) → Expr α) (fs : List (Expr α)) : Powers α :=
  (factorsAll fs).foldl (Powers.insert add) ⟨Scalar.one, []⟩

/-- What dividing the coefficient by a power of a number leaves, if that is whole. The power must
have a negative whole exponent, and the number must not be zero. -/
def foldReciprocal? (coefficient : α) : Expr α → Expr α → Option α
  | number b, number e =>
    match Scalar.whole? e with
    | some n =>
      if n < 0 ∧ ¬Scalar.isZero b then
        Scalar.quotient? coefficient (Scalar.natPower b n.natAbs)
      else none
    | none => none
  | _, _ => none

/-- A coefficient and the factors that follow it. -/
structure Folded (α : Type) where
  coefficient : α
  factors : List (Expr α)

/-- Turns a collected power into a factor, or into a change of the coefficient. -/
def Folded.push (pow : Expr α → Expr α → Expr α) (f : Folded α) : Expr α × Expr α → Folded α
  | (b, e) =>
    match foldReciprocal? f.coefficient b e with
    | some quotient => { f with coefficient := quotient }
    | none =>
      match pow b e with
      | number value => { f with coefficient := f.coefficient * value }
      | other => { f with factors := f.factors ++ [other] }

/-- The product of a coefficient and factors that are no numbers. -/
def Folded.toExpr (f : Folded α) : Expr α :=
  if Scalar.isZero f.coefficient then number Scalar.zero
  else if f.factors.isEmpty then number f.coefficient
  else if Scalar.isOne f.coefficient then collapse product f.factors
  else product (number f.coefficient :: f.factors)

/-- The product of `fs`, given how to add exponents and how to raise a base. -/
def mulWith (add : List (Expr α) → Expr α) (pow : Expr α → Expr α → Expr α)
    (fs : List (Expr α)) : Expr α :=
  let p := collectPowers add fs
  if Scalar.isZero p.coefficient then number Scalar.zero
  else (p.powers.foldl (Folded.push pow) ⟨p.coefficient, []⟩).toExpr

mutual
/-- How deep exponents are nested. Numbers have depth zero, everything else at least one, and a
power is deeper than its exponent. -/
def depth : Expr α → Nat
  | number _ => 0
  | symbol _ | constant _ | call _ _ => 1
  | sum es | product es => max 1 (depthAll es)
  | power b e => max b.depth (e.depth + 1)
def depthAll : List (Expr α) → Nat
  | [] => 0
  | e :: es => max e.depth (depthAll es)
end

/-- The product of expressions of a depth below the level. -/
def mulAt : Nat → List (Expr α) → Expr α
  | 0, fs => product fs
  | level + 1, fs => mulWith (addWith (mulAt level)) (powWith (mulAt level)) fs

/-- The product, with the numeric coefficient in front. -/
def mul (fs : List (Expr α)) : Expr α := mulAt (depthAll fs + 1) fs

/-- The sum, with the numeric part in front and like terms collected. -/
def add (ts : List (Expr α)) : Expr α := addWith (mulAt (depthAll ts + 1)) ts

/-- The power. -/
def pow (base exponent : Expr α) : Expr α :=
  powWith (mulAt (max base.depth exponent.depth + 1)) base exponent

def neg (e : Expr α) : Expr α := mul [number (-Scalar.one), e]

def sub (a b : Expr α) : Expr α := add [a, neg b]

def div (a b : Expr α) : Expr α := mul [a, pow b (number (-Scalar.one))]

/-- The value of a function at an argument where it is known exactly. -/
def exactValue? : Elementary → Expr α → Option α
  | .sin, e | .tan, e | .asin, e | .atan, e | .sinh, e | .tanh, e =>
    if e.isZero then some Scalar.zero else none
  | .cos, e | .cosh, e | .exp, e => if e.isZero then some Scalar.one else none
  | .log, e => if e.isOne then some Scalar.zero else none
  | _, _ => none

/-- The application of a function, folded where the value is exact. -/
def apply (f : Elementary) (args : List (Expr α)) : Expr α :=
  match args with
  | [e] =>
    match exactValue? f e with
    | some value => number value
    | none => call f args
  | _ => call f args

end EquationCompiler.Expr
