import EquationCompiler.Expr.Fault

/-!
# Evaluation

The value of an expression when every symbol has one. Sums and products are
computed from left to right, and the first symbol without a value ends the
evaluation.
-/
namespace EquationCompiler

/-- Scalars with the constants and functions that formulas may use. -/
class Transcendental (α : Type) extends Scalar α where
  constant : Constant → α
  power : α → α → α
  /-- The value of a function at as many arguments as it takes. -/
  function : Elementary → List α → α

/-- Values of symbols. A later entry for a name wins. -/
abbrev Bindings (α : Type) := List (String × α)

def Bindings.value? {α : Type} (bindings : Bindings α) (name : String) : Option α :=
  bindings.foldl (fun found entry => if entry.1 = name then some entry.2 else found) none

namespace Expr
variable {α : Type} [Transcendental α]

mutual
def evaluate (bindings : Bindings α) : Expr α → Except ExprFault α
  | number x => .ok x
  | constant c => .ok (Transcendental.constant c)
  | symbol s =>
    match bindings.value? s with
    | some x => .ok x
    | none => .error (.unboundSymbol s)
  | sum ts => sumFrom bindings Scalar.zero ts
  | product fs => productFrom bindings Scalar.one fs
  | power b e => do
    let b ← evaluate bindings b
    let e ← evaluate bindings e
    return Transcendental.power b e
  | call f args => do
    let values ← evaluateAll bindings args
    if values.length = f.arity then return Transcendental.function f values
    else throw (.arity f.name f.arity values.length)
/-- The total with the terms added to `total` one after the other. -/
def sumFrom (bindings : Bindings α) (total : α) : List (Expr α) → Except ExprFault α
  | [] => .ok total
  | t :: ts => do
    let x ← evaluate bindings t
    sumFrom bindings (total + x) ts
def productFrom (bindings : Bindings α) (total : α) : List (Expr α) → Except ExprFault α
  | [] => .ok total
  | f :: fs => do
    let x ← evaluate bindings f
    productFrom bindings (total * x) fs
def evaluateAll (bindings : Bindings α) : List (Expr α) → Except ExprFault (List α)
  | [] => .ok []
  | e :: es => do
    let x ← evaluate bindings e
    let xs ← evaluateAll bindings es
    return x :: xs
end

end Expr

end EquationCompiler
