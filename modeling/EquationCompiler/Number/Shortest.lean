/-!
# Shortest decimals

A binary floating-point value `m * 2^q` stands for every real that rounds to it.
Its shortest decimal is the point of the coarsest grid `c * 10^p` that meets this
interval, and of two such points the nearer one. All comparisons are made in
exact integers.
-/
namespace EquationCompiler.Shortest

/-- A decimal `digits * 10^exponent`. -/
structure Decimal where
  digits : Nat
  exponent : Int
  deriving DecidableEq, Repr

/-- The reals that round to one floating-point value, in units of `2^unit`. -/
structure Interval where
  lower : Nat
  value : Nat
  upper : Nat
  unit : Int
  /-- Whether the two ends belong to the interval. -/
  closed : Bool

/-- The interval of `m * 2^q`: half a step to either side, and only a quarter step down from a
power of two, where the steps below are half as wide. The ends round to even significands. -/
def Interval.ofBinary (m : Nat) (q : Int) : Interval where
  lower := if m = Nat.pow 2 52 ∧ q > -1074 then 4 * m - 1 else 4 * m - 2
  value := 4 * m
  upper := 4 * m + 2
  unit := q - 2
  closed := m % 2 = 0

/-- The factors that turn `c * 10^p` and `k * 2^unit` into integers of a common unit. -/
def scales (p unit : Int) : Nat × Nat :=
  (Nat.pow 10 p.toNat * Nat.pow 2 (-unit).toNat, Nat.pow 10 (-p).toNat * Nat.pow 2 unit.toNat)

/-- Whether `c * 10^p` lies in the interval. -/
def Interval.contains (i : Interval) (c : Nat) (p : Int) : Bool :=
  let (grid, step) := scales p i.unit
  if i.closed then i.lower * step ≤ c * grid ∧ c * grid ≤ i.upper * step
  else i.lower * step < c * grid ∧ c * grid < i.upper * step

/-- The multiple of `10^p` in the interval that is nearest to the value. Of two that are equally
near the larger is taken. -/
def Interval.onGrid? (i : Interval) (p : Int) : Option Nat :=
  let (grid, step) := scales p i.unit
  let value := i.value * step
  let below := value / grid
  let above := below + 1
  match i.contains below p, i.contains above p with
  | true, true => some (if value - below * grid < above * grid - value then below else above)
  | true, false => some below
  | false, true => some above
  | false, false => none

/-- The first hit on the grids `10^p, 10^(p-1), …`. -/
def Interval.search (i : Interval) : Nat → Int → Decimal
  | 0, p => ⟨0, p⟩
  | grids + 1, p =>
    match i.onGrid? p with
    | some c => ⟨c, p⟩
    | none => i.search grids (p - 1)

/-- Not below the decimal logarithm of `m * 2^q`, and at most two above it. -/
def logCeiling (m : Nat) (q : Int) : Int :=
  (((m.log2 : Int) + q) * 30103) / 100000 + 2

/-- The shortest decimal that rounds to `m * 2^q`, for a positive significand of at most 53 bits.
Seventeen digits always suffice, so twenty grids are enough. -/
def shortest (m : Nat) (q : Int) : Decimal :=
  (Interval.ofBinary m q).search 20 (logCeiling m q)

/-- Values from `10^-4` up to `10^16` are written out; the others have an exponent. -/
def isPositional (leading : Int) : Bool := -4 ≤ leading ∧ leading < 16

/-- The text of a positive decimal: positional with at least one place after the point, or one
digit, the other digits after a point, and the exponent after an `e`. -/
def Decimal.text (d : Decimal) : String :=
  let ds := Nat.toDigits 10 d.digits
  let leading := d.exponent + ds.length - 1
  if isPositional leading then
    if 0 ≤ d.exponent then
      String.ofList (ds ++ List.replicate d.exponent.toNat '0') ++ ".0"
    else if 0 ≤ leading then
      let places := leading.toNat + 1
      String.ofList (ds.take places ++ '.' :: ds.drop places)
    else
      "0." ++ String.ofList (List.replicate (-leading - 1).toNat '0' ++ ds)
  else
    let mantissa := match ds with
      | d :: more@(_ :: _) => d :: '.' :: more
      | ds => ds
    String.ofList mantissa ++ "e" ++ toString leading

end EquationCompiler.Shortest
