import EquationCompiler.Expr.Print
import EquationCompiler.Proofs.Grammar
import EquationCompiler.Proofs.Spelling

/-!
# The formula in a text

A printed expression is again a formula, also in C++. Which formula it is can be
said without the text: the layout follows the printer and groups the factors of a
term the way they are read, from left to right.
-/
namespace EquationCompiler

/-- A formula as it stands in a text: its first factor and the factors after it, those that divide
marked as true, and how tightly the text binds. Only texts that bind like products have more than
one factor. -/
structure Layout where
  head : Formula
  tail : List (Bool × Formula)
  precedence : Precedence

namespace Layout

def single (f : Formula) (p : Precedence) : Layout := ⟨f, [], p⟩

/-- A term with one factor more. -/
def extend (f : Formula) : Bool × Formula → Formula
  | (true, g) => .quotient f g
  | (false, g) => .product f g

/-- The formula that is read. -/
def formula (l : Layout) : Formula := l.tail.foldl extend l.head

@[simp] lemma formula_single (f : Formula) (p : Precedence) : (single f p).formula = f := rfl

/-- The layout in a place that needs the given precedence. Parentheses make it one factor. -/
def atLeast (l : Layout) (needed : Precedence) : Layout :=
  if l.precedence.rank < needed.rank then single l.formula .atom else l

@[simp] lemma formula_atLeast (l : Layout) (needed : Precedence) :
    (l.atLeast needed).formula = l.formula := by
  unfold atLeast
  split_ifs <;> rfl

lemma rank_atLeast (l : Layout) (needed : Precedence) :
    needed.rank ≤ (l.atLeast needed).precedence.rank := by
  unfold atLeast
  split_ifs with h
  · show needed.rank ≤ Precedence.atom.rank
    cases needed <;> decide
  · exact not_lt.mp h

/-- All factors with whether they divide. -/
def items (l : Layout) : List (Bool × Formula) := (false, l.head) :: l.tail

/-- The factors of several texts joined by stars. -/
def chain : List Layout → Layout
  | [] => single (.name "") .product
  | l :: ls => ⟨l.head, l.tail ++ ls.flatMap items, .product⟩

lemma precedence_chain (ls : List Layout) : (chain ls).precedence = .product := by
  cases ls <;> rfl

/-- A sign before a text belongs to its first factor. -/
def negate (l : Layout) : Layout := single (l.tail.foldl extend (.negation l.head)) .sum

/-- Terms joined by their signs. -/
def joinTerms : List (Bool × Layout) → Formula
  | [] => .name ""
  | (negative, l) :: more =>
    more.foldl (fun f (negative, l) =>
        if negative then .difference f l.formula else .sum f l.formula)
      (if negative then l.negate.formula else l.formula)

end Layout

namespace Dialect

/-- What starts with a digit is a number, anything else a name. -/
def unsignedFormula (cs : List Char) : Formula :=
  if cs.head?.any Char.isDigit then .number (String.ofList cs) else .name (String.ofList cs)

/-- The formula that the text of a number is. -/
def numberFormula : List Char → Formula
  | '-' :: cs => .negation (unsignedFormula cs)
  | cs => unsignedFormula cs

variable {α : Type} [Numeral α]

def numeral (d : Dialect) (x : α) (divides : Bool) : Formula :=
  numberFormula (d.number x divides).toList

end Dialect

namespace Expr
variable {α : Type} [Numeral α] (d : Dialect) (layout : Expr α → Layout)

def layoutSum (ts : List (Expr α)) : Layout :=
  let term (t : Expr α) := ((splitSign t).1, (layout (splitSign t).2).atLeast .product)
  .single (Layout.joinTerms (ts.map term)) .sum

/-- The sum or difference of what was read before and a term. -/
def addTerm (f : Formula) (t : Expr α) : Formula :=
  if (splitSign t).1 then .difference f (layout (splitSign t).2).formula
  else .sum f (layout (splitSign t).2).formula

lemma layoutSum_cons (t : Expr α) (ts : List (Expr α)) :
    layoutSum layout (t :: ts) = .single (ts.foldl (addTerm layout)
      (if (splitSign t).1 then ((layout (splitSign t).2).atLeast .product).negate.formula
        else ((layout (splitSign t).2).atLeast .product).formula)) .sum := by
  simp only [layoutSum, Layout.joinTerms, List.map_cons, List.foldl_map, Layout.formula_atLeast]
  rfl

def layoutDivisor (needed : Precedence) : Expr α → Layout
  | number x => .single (d.numeral x true) .product
  | e => (layout e).atLeast needed

def layoutBelow : List (Expr α) → List (Bool × Formula)
  | [] => []
  | [e] => [(true, (layoutDivisor d layout .power e).formula)]
  | es => [(true, (Layout.chain (es.map (layoutDivisor d layout .product))).formula)]

/-- The number before the factors above the line, if it is written. -/
def layoutLead (f : Fraction α) : List Layout :=
  let size := Scalar.magnitude f.coefficient
  if !Scalar.isOne size || f.above.isEmpty then
    [.single (d.numeral size (f.above.isEmpty && !f.below.isEmpty)) .product]
  else []

/-- A fraction without its sign. -/
def layoutUnsigned (f : Fraction α) : Layout :=
  let above := Layout.chain (layoutLead d f ++ f.above.map fun e => (layout e).atLeast .product)
  ⟨above.head, above.tail ++ layoutBelow d layout f.below, .product⟩

def layoutFraction (f : Fraction α) : Layout :=
  if Scalar.isNegative f.coefficient then (layoutUnsigned d layout f).negate
  else layoutUnsigned d layout f

def layoutPower (b e : Expr α) : Layout :=
  if e.asNumber?.any (Scalar.same · Scalar.half) then
    .single (.call "sqrt" [(layout b).formula]) .atom
  else match d with
    | .cpp => .single (.call "pow" [(layout b).formula, (layout e).formula]) .atom
    | .formula => .single (.power (layout b).formula (layout e).formula) .power

/-- The layout of an expression whose parts are laid out by `layout`. -/
def layoutWith : Expr α → Layout
  | number x => .single (d.numeral x false) (if Scalar.isNegative x then .sum else .atom)
  | symbol s => .single (.name s) .atom
  | constant c => .single (.name (d.constant c)) .atom
  | sum ts => layoutSum layout ts
  | product fs => layoutFraction d layout (Fraction.ofFactors fs)
  | power b e =>
    if e.asNumber?.any Scalar.isNegative then
      layoutFraction d layout (Fraction.ofFactors [power b e])
    else layoutPower d layout b e
  | call f args => .single (.call (d.function f) (args.map fun e => (layout e).formula)) .atom

/-- The layout with at most `rounds` nested parts. -/
def layoutIn : ℕ → Expr α → Layout
  | 0, _ => .single (.name "") .atom
  | rounds + 1, e => layoutWith d (layoutIn rounds) e

/-- The formula that the text of an expression is. -/
def written (e : Expr α) : Formula := (layoutIn d (2 * e.weight + 2) e).formula

end Expr

end EquationCompiler
