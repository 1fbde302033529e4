import EquationCompiler.Formula.Peg

/-!
# Tokens of formulas

Formulas are read without tokens, but what they are is easier to say with them.
Numbers and names are read as long as they go; spaces and tabs only separate. A
character that starts no token is kept as an unknown one, so that a text is always
a list of tokens.
-/
namespace EquationCompiler

inductive Token where
  | number (literal : String)
  | name (name : String)
  | plus
  | minus
  | star
  | slash
  /-- Two stars, or a caret. -/
  | power
  | opening
  | closing
  | comma
  | unknown (c : Char)
  deriving DecidableEq, Repr

namespace Token

/-- Digits with at most one point among them or at either end, and what follows. -/
def takeMantissa? (cs : List Char) : Option (List Char × List Char) :=
  let whole := cs.takeWhile Char.isDigit
  match cs.dropWhile Char.isDigit with
  | '.' :: rest =>
    let places := rest.takeWhile Char.isDigit
    if whole.isEmpty && places.isEmpty then none
    else some (whole ++ '.' :: places, rest.dropWhile Char.isDigit)
  | rest => if whole.isEmpty then none else some (whole, rest)

/-- An exponent mark with digits after it, which may have a sign, and what follows. Without
digits there is no exponent. -/
def takeExponent (cs : List Char) : List Char × List Char :=
  match cs with
  | mark :: rest =>
    if mark = 'e' ∨ mark = 'E' then
      let (sign, rest) := match rest with
        | '+' :: rest => (['+'], rest)
        | '-' :: rest => (['-'], rest)
        | rest => ([], rest)
      let digits := rest.takeWhile Char.isDigit
      if digits.isEmpty then ([], cs) else (mark :: sign ++ digits, rest.dropWhile Char.isDigit)
    else ([], cs)
  | [] => ([], [])

/-- The longest number at the start, and what follows. -/
def takeNumber? (cs : List Char) : Option (List Char × List Char) :=
  (takeMantissa? cs).map fun (mantissa, rest) =>
    let (exponent, rest) := takeExponent rest
    (mantissa ++ exponent, rest)

/-- The token at the start of a text without blanks before it, and what follows. -/
def take (c : Char) (cs : List Char) : Token × List Char :=
  match takeNumber? (c :: cs) with
  | some (literal, rest) => (number (String.ofList literal), rest)
  | none =>
    if isNameStart c then
      (name (String.ofList (c :: cs.takeWhile isNameChar)), cs.dropWhile isNameChar)
    else match c, cs with
      | '*', '*' :: rest => (power, rest)
      | '*', rest => (star, rest)
      | '^', rest => (power, rest)
      | '+', rest => (plus, rest)
      | '-', rest => (minus, rest)
      | '/', rest => (slash, rest)
      | '(', rest => (opening, rest)
      | ')', rest => (closing, rest)
      | ',', rest => (comma, rest)
      | c, rest => (unknown c, rest)

/-- The tokens of a text, each with the text from its first character on. -/
def scanIn : Nat → List Char → List (Token × List Char)
  | 0, _ => []
  | _ + 1, [] => []
  | rounds + 1, c :: cs =>
    if isBlank c then scanIn rounds cs
    else
      let (token, rest) := take c cs
      (token, c :: cs) :: scanIn rounds rest

/-- The tokens of a text, each with the text from its first character on. A token uses up at least
one character, so the length bounds their number. -/
def scan (cs : List Char) : List (Token × List Char) := scanIn cs.length cs

def tokens (cs : List Char) : List Token := (scan cs).map Prod.fst

end Token

end EquationCompiler
