import EquationCompiler.Expr.Basic

/-!
# What can go wrong with an expression

The causes, from reading a formula to evaluating or printing its expression, and
their wording.
-/
namespace EquationCompiler

/-- The rules by which formulas are read, in the order in which they are reported. -/
inductive Rule where
  | eoi
  | expression
  | expr
  | add
  | sub
  | pow
  | mul
  | div
  | neg
  | pos
  | call
  | number
  | ident
  deriving DecidableEq, Repr

namespace Rule

def name : Rule → String
  | eoi => "EOI"
  | expression => "expression"
  | expr => "expr"
  | add => "add"
  | sub => "sub"
  | pow => "pow"
  | mul => "mul"
  | div => "div"
  | neg => "neg"
  | pos => "pos"
  | call => "call"
  | number => "number"
  | ident => "ident"

def all : List Rule :=
  [eoi, expression, expr, add, sub, pow, mul, div, neg, pos, call, number, ident]

end Rule

/-- What a formula should have gone on with where it could not be read further. -/
structure Expected where
  rules : List Rule
  deriving DecidableEq, Repr

namespace Expected

/-- One or two rules are joined by a word, more are set apart by commas as well. -/
def description (e : Expected) : String :=
  match e.rules.map Rule.name with
  | [] => ""
  | [a] => a
  | [a, b] => a ++ " or " ++ b
  | names => ", ".intercalate names.dropLast ++ ", or " ++ names.getLastD ""

/-- A whole expression: at the start, after an opening parenthesis or after a comma. -/
def expression : Expected := ⟨[.expr]⟩

/-- A sign or an operand: after an operator or a sign. -/
def operand : Expected := ⟨[.neg, .pos, .number, .ident]⟩

/-- An operator, inside parentheses. -/
def operator : Expected := ⟨[.add, .sub, .pow, .mul, .div]⟩

/-- An operator or the end of the formula. -/
def operatorOrEnd : Expected := ⟨[.eoi, .add, .sub, .pow, .mul, .div]⟩

end Expected

inductive ExprFault where
  | unreadable (expected : Expected) (column : Nat)
  | invalidNumber (literal : String)
  | unknownFunction (name : String)
  | notCallable (name : String)
  | arity (function : String) (expected found : Nat)
  | unboundSymbol (name : String)
  /-- A number without a literal, by its text. -/
  | nonFinite (value : String)
  deriving DecidableEq, Repr

def ExprFault.message : ExprFault → String
  | unreadable expected column =>
    "syntax error: expected " ++ expected.description ++ " at column " ++ toString column
  | invalidNumber literal => "invalid number literal `" ++ literal ++ "`"
  | unknownFunction name => "unknown function `" ++ name ++ "`"
  | notCallable name => "`" ++ name ++ "` is a symbol and cannot be called"
  | arity function expected found =>
    "function `" ++ function ++ "` takes " ++ toString expected ++ " argument(s), found " ++
      toString found
  | unboundSymbol name => "symbol `" ++ name ++ "` has no value"
  | nonFinite value => "expression contains the non-finite value `" ++ value ++ "`"

end EquationCompiler
