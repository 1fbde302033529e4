import EquationCompiler.Expr.Basic

/-!
# Equality up to order

Two expressions are equivalent if one becomes the other by reordering the terms
of sums and the factors of products at any depth. The simplifier uses this to
recognise like terms and equal bases.
-/
namespace EquationCompiler

/-- The list without its first element that satisfies `p`, if there is one. -/
def eraseFirst? {β : Type} (p : β → Bool) : List β → Option (List β)
  | [] => none
  | b :: bs => if p b then some bs else (eraseFirst? p bs).map (b :: ·)

namespace Expr
variable {α : Type} [Scalar α]

mutual
/-- Equality of structure up to the order of terms and factors. -/
def equiv : Expr α → Expr α → Bool
  | sum as, sum bs => matchAll as bs
  | product as, product bs => matchAll as bs
  | power a x, power b y => equiv a b && equiv x y
  | call f as, call g bs => f == g && equivAll as bs
  | number x, number y => Scalar.same x y
  | symbol a, symbol b => a == b
  | constant c, constant d => c == d
  | _, _ => false
/-- Pairs each expression of the first list with the first equivalent one that is still left in
the second, and uses up both. -/
def matchAll : List (Expr α) → List (Expr α) → Bool
  | [], rest => rest.isEmpty
  | a :: as, bs =>
    match eraseFirst? (fun b => equiv a b) bs with
    | some rest => matchAll as rest
    | none => false
/-- Equivalence position by position. -/
def equivAll : List (Expr α) → List (Expr α) → Bool
  | [], [] => true
  | a :: as, b :: bs => equiv a b && equivAll as bs
  | _, _ => false
end

end Expr

end EquationCompiler
