import EquationCompiler.Expr.Simplify

/-!
# Substitution

Replacing a symbol rebuilds every expression above an occurrence with the
simplifying constructors and leaves all else as it stands.
-/
namespace EquationCompiler.Expr
variable {α : Type} [Scalar α]

mutual
/-- The expression `e` with `replacement` for every occurrence of the symbol `name`. -/
def substitute (e : Expr α) (name : String) (replacement : Expr α) : Expr α :=
  match e with
  | number x => number x
  | constant c => constant c
  | symbol s => if s == name then replacement else symbol s
  | sum ts =>
    if containsAny name ts then add (substituteAll ts name replacement) else sum ts
  | product fs =>
    if containsAny name fs then mul (substituteAll fs name replacement) else product fs
  | power b e =>
    if b.contains name || e.contains name then
      pow (substitute b name replacement) (substitute e name replacement)
    else power b e
  | call f args =>
    if containsAny name args then apply f (substituteAll args name replacement)
    else call f args
def substituteAll (es : List (Expr α)) (name : String) (replacement : Expr α) : List (Expr α) :=
  match es with
  | [] => []
  | e :: es => substitute e name replacement :: substituteAll es name replacement
end

end EquationCompiler.Expr
