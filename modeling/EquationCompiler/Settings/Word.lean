import EquationCompiler.Text.Basic

/-!
# Words of settings files

A value without quotes or brackets is a word: a truth value, a number, or a point
in time. No setting is of such a type, so all that matters is which words there
are.
-/
namespace EquationCompiler.Word

/-- What words are written with. -/
def isWordChar (c : Char) : Bool :=
  c.isAlphanum || c = '_' || c = '-' || c = '+' || c = '.' || c = ':'

def isOctalDigit (c : Char) : Bool := '0' ≤ c && c ≤ '7'

def isHexDigit (c : Char) : Bool := (Text.hexDigit? c).isSome

/-- Digits of some base, with underscores only between two of them. -/
def isDigits (digit : Char → Bool) (cs : List Char) : Bool :=
  (Text.pieces '_' cs).all fun part => !part.isEmpty && part.all digit

/-- A natural number: decimal digits, of which the first is zero only if it stands alone. -/
def isNatural (cs : List Char) : Bool :=
  isDigits Char.isDigit cs && (cs.head? ≠ some '0' || cs = ['0'])

def dropSign : List Char → List Char
  | '+' :: cs | '-' :: cs => cs
  | cs => cs

/-- A natural number, with digits after a point or without. -/
def isFixed (cs : List Char) : Bool :=
  match Text.cut? '.' cs with
  | some (whole, fraction) => isNatural whole && isDigits Char.isDigit fraction
  | none => isNatural cs

/-- A decimal number without a sign, with an exponent or without. -/
def isDecimal (cs : List Char) : Bool :=
  match Text.cut? 'e' (cs.map fun c => if c = 'E' then 'e' else c) with
  | some (mantissa, exponent) => isFixed mantissa && isDigits Char.isDigit (dropSign exponent)
  | none => isFixed cs

/-- A number. Only decimal ones may have a sign. -/
def isNumber : List Char → Bool
  | '0' :: 'x' :: cs => isDigits isHexDigit cs
  | '0' :: 'o' :: cs => isDigits isOctalDigit cs
  | '0' :: 'b' :: cs => isDigits (fun c => c = '0' || c = '1') cs
  | cs => isDecimal (dropSign cs) || dropSign cs ∈ ["inf".toList, "nan".toList]

/-- A reader of a part of a point in time. -/
abbrev Part (β : Type) := StateT (List Char) Option β

/-- The number in exactly `count` digits. -/
def readDigits (count : Nat) : Part Nat := do
  let digits := (← get).take count
  guard (digits.length = count ∧ digits.all Char.isDigit)
  modify (·.drop count)
  return Text.natOfDigits digits

/-- Passes over one of the given characters. -/
def readMark (marks : List Char) : Part Unit := do
  match ← get with
  | c :: rest => guard (c ∈ marks); set rest
  | [] => failure

def isLeap (year : Nat) : Bool := 4 ∣ year ∧ (¬ 100 ∣ year ∨ 400 ∣ year)

def daysIn (year month : Nat) : Nat :=
  if month = 2 then (if isLeap year then 29 else 28)
  else if month ∈ [4, 6, 9, 11] then 30
  else 31

def readDate : Part Unit := do
  let year ← readDigits 4
  readMark ['-']
  let month ← readDigits 2
  guard (1 ≤ month ∧ month ≤ 12)
  readMark ['-']
  let day ← readDigits 2
  guard (1 ≤ day ∧ day ≤ daysIn year month)

/-- Hours and minutes. -/
def readClock : Part Unit := do
  let hour ← readDigits 2
  readMark [':']
  let minute ← readDigits 2
  guard (hour ≤ 23 ∧ minute ≤ 59)

/-- A time of day. Seconds may be missing or have a fraction, and the last minute of a day may be
one second longer. -/
def readTime : Part Unit := do
  readClock
  if (← get).head? = some ':' then
    readMark [':']
    guard ((← readDigits 2) ≤ 60)
    if (← get).head? = some '.' then
      readMark ['.']
      guard ((← get).head?.any Char.isDigit)
      modify (·.dropWhile Char.isDigit)

/-- How far a time is from the universal one. -/
def readOffset : Part Unit := do
  match ← get with
  | [] => pure ()
  | c :: _ =>
    if c = 'Z' ∨ c = 'z' then readMark [c]
    else
      readMark ['+', '-']
      readClock

/-- A date, with a time after it or without. -/
def readMoment : Part Unit := do
  readDate
  if !(← get).isEmpty then
    readMark ['T', 't', ' ']
    readTime
    readOffset

/-- Whether a reader takes the whole text. -/
def Part.takesAll (part : Part Unit) (cs : List Char) : Bool :=
  match part.run cs with
  | some ((), []) => true
  | _ => false

def isDate (cs : List Char) : Bool := Part.takesAll readDate cs

/-- A date, a time of day, or both. -/
def isMoment (cs : List Char) : Bool :=
  Part.takesAll readMoment cs || Part.takesAll readTime cs

/-- A truth value, a number or a point in time. -/
def isWord (cs : List Char) : Bool :=
  cs ∈ ["true".toList, "false".toList] || isNumber cs || isMoment cs

end EquationCompiler.Word
