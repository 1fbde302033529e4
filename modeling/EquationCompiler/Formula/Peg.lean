import EquationCompiler.Expr.Fault

/-!
# The rules of formulas

A formula is read by parsing expressions: the first alternative that succeeds is
taken, a repetition goes on as long as it can, and neither is tried again later.
Blanks are skipped between the parts of a rule, but not inside numbers and names. A
rule that succeeds gives a pair of its name and its text, with the pairs of its
parts.

What a faulty formula should have gone on with are the rules that failed at the
furthest place where one did.
-/
namespace EquationCompiler

namespace Token

/-- What may stand between tokens. -/
def isBlank (c : Char) : Bool := c = ' ' || c = '\t'

def isNameStart (c : Char) : Bool := c.isAlpha || c = '_'

def isNameChar (c : Char) : Bool := c.isAlphanum || c = '_'

end Token

/-- A part of a text without rules of its own: what is left after it, if the text starts with it. -/
abbrev Recognizer := List Char → Option (List Char)

namespace Recognizer

/-- One character of a kind. -/
def one (p : Char → Bool) : Recognizer
  | [] => none
  | c :: cs => if p c then some cs else none

/-- All characters of a kind up to the first other one. -/
def many (p : Char → Bool) : Recognizer := fun cs => some (cs.dropWhile p)

def word (text : String) : Recognizer := text.toList.isPrefixOf?

def orElse (p q : Recognizer) : Recognizer := fun cs => (p cs).or (q cs)

def andThen (p q : Recognizer) : Recognizer := fun cs => (p cs).bind q

def optional (p : Recognizer) : Recognizer := fun cs => some ((p cs).getD cs)

/-- One or more characters of a kind. -/
def some (p : Char → Bool) : Recognizer := (one p).andThen (many p)

def atEnd : Recognizer := fun cs => if cs.isEmpty then Option.some [] else none

/-- Digits with at most one point among them or at either end. -/
def mantissa : Recognizer :=
  ((some Char.isDigit).andThen (optional ((word ".").andThen (many Char.isDigit)))).orElse
    ((word ".").andThen (some Char.isDigit))

def exponent : Recognizer :=
  (one fun c => c = 'e' || c = 'E').andThen <|
    (optional ((word "+").orElse (word "-"))).andThen (some Char.isDigit)

def number : Recognizer := mantissa.andThen (optional exponent)

def ident : Recognizer := (one Token.isNameStart).andThen (many Token.isNameChar)

end Recognizer

/-- The rules that failed at the furthest place where one did. There, `left` characters are left. -/
structure Attempts where
  left : Nat
  rules : List Rule := []
  deriving DecidableEq, Repr

namespace Attempts

/-- How many rules have failed at the place where the given characters are left. -/
def count (a : Attempts) (cs : List Char) : Nat :=
  if cs.length = a.left then a.rules.length else 0

/-- Notes that a rule has failed which started at the given characters, where `before` rules had
failed before. It takes the place of its parts that failed there as well, unless that is a single
one, which is kept instead. -/
def note (a : Attempts) (r : Rule) (cs : List Char) (before : Nat) : Attempts :=
  if a.count cs = before + 1 then a
  else if cs.length = a.left then { a with rules := a.rules.take before ++ [r] }
  else if cs.length < a.left then ⟨cs.length, [r]⟩
  else a

def expected (a : Attempts) : Expected := ⟨Rule.all.filter a.rules.contains⟩

end Attempts

/-- A rule that succeeded, the text that it covers, and the pairs of its parts. -/
inductive Pair where
  | mk (rule : Rule) (text : String) (inner : List Pair)

/-- Reads pairs from a text. The attempts are kept where it fails as well as where it succeeds. -/
abbrev Parser := List Char → Attempts → Option (List Pair × List Char) × Attempts

namespace Parser

def token (r : Recognizer) : Parser := fun cs a => ((r cs).map fun rest => ([], rest), a)

def andThen (p q : Parser) : Parser := fun cs a =>
  match p cs a with
  | (none, a) => (none, a)
  | (some (ps, rest), a) =>
    match q rest a with
    | (none, a) => (none, a)
    | (some (qs, rest), a) => (some (ps ++ qs, rest), a)

def orElse (p q : Parser) : Parser := fun cs a =>
  match p cs a with
  | (none, a) => q cs a
  | found => found

def optional (p : Parser) : Parser := fun cs a =>
  match p cs a with
  | (none, a) => (some ([], cs), a)
  | found => found

/-- As many as there are, at most the given number. -/
def manyIn (p : Parser) : Nat → Parser
  | 0 => fun cs a => (some ([], cs), a)
  | rounds + 1 => optional (p.andThen (manyIn p rounds))

/-- As many as there are. Each uses up a character, and one more is tried at the end of the text. -/
def many (p : Parser) : Parser := fun cs => manyIn p (cs.length + 1) cs

def skip : Parser := token (.many Token.isBlank)

/-- One after the other, with blanks between them. -/
def seq (p q : Parser) : Parser := p.andThen (skip.andThen q)

/-- As many as there are, with blanks between them. -/
def star (p : Parser) : Parser := optional (p.andThen (many (skip.andThen p)))

/-- A rule of the grammar with its body. -/
def rule (r : Rule) (body : Parser) : Parser := fun cs a =>
  match body cs a with
  | (some (inner, rest), b) =>
    (some ([⟨r, String.ofList (cs.take (cs.length - rest.length)), inner⟩], rest), b)
  | (none, b) => (none, b.note r cs (a.count cs))

def number : Parser := rule .number (token .number)

def ident : Parser := rule .ident (token .ident)

def sign : Parser :=
  (rule .neg (token (.word "-"))).orElse (rule .pos (token (.word "+")))

/-- Two stars come before one, which would succeed as well. -/
def operator : Parser :=
  (rule .add (token (.word "+"))).orElse <|
  (rule .sub (token (.word "-"))).orElse <|
  (rule .pow (token ((Recognizer.word "**").orElse (.word "^")))).orElse <|
  (rule .mul (token (.word "*"))).orElse <|
  rule .div (token (.word "/"))

section
variable (expr : Parser)

def group : Parser := (token (.word "(")).seq (expr.seq (token (.word ")")))

/-- The arguments after the first one, up to the closing parenthesis. -/
def moreArguments : Parser := (star ((token (.word ",")).seq expr)).seq (token (.word ")"))

def call : Parser :=
  rule .call (ident.seq ((token (.word "(")).seq (expr.seq (moreArguments expr))))

/-- A call comes before a name, with which it starts. -/
def primary : Parser := (call expr).orElse (number.orElse (ident.orElse (group expr)))

/-- An operand with signs before it. -/
def signed : Parser := (star sign).seq (primary expr)

/-- Operands with operators between them, not yet grouped. -/
def exprBody : Parser := (signed expr).seq (star (operator.seq (signed expr)))

end

/-- An expression in which parentheses are nested less deep than the given number. -/
def expr : Nat → Parser
  | 0 => fun _ a => (none, a)
  | depth + 1 => rule .expr (exprBody (expr depth))

/-- A whole text. Its length bounds how deep parentheses are nested in it. -/
def expression : Parser := fun cs =>
  rule .expression (skip.andThen ((expr (cs.length + 1)).seq (rule .eoi (token .atEnd)))) cs

end Parser

end EquationCompiler
