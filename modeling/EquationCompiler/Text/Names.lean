/-!
# Sets of names

A set of names is kept as its ascending list, which is also the order in which
it is reported.
-/
namespace EquationCompiler

/-- Puts a name into an ascending list without repetitions. -/
def insertName (name : String) : List String → List String
  | [] => [name]
  | first :: rest =>
    if name < first then name :: first :: rest
    else if name = first then first :: rest
    else first :: insertName name rest

@[simp] theorem mem_insertName {a b : String} {names : List String} :
    a ∈ insertName b names ↔ a = b ∨ a ∈ names := by
  induction names with
  | nil => simp [insertName]
  | cons c cs ih =>
    simp only [insertName]
    split
    · simp
    · split
      · next h => simp [h]
      · simp [ih, or_left_comm]

/-- The distinct names, ascending. -/
def sortedNames (names : List String) : List String := names.foldr insertName []

@[simp] theorem mem_sortedNames {a : String} {names : List String} :
    a ∈ sortedNames names ↔ a ∈ names := by
  induction names with
  | nil => simp [sortedNames]
  | cons b bs ih =>
    simp only [sortedNames, List.foldr_cons, mem_insertName, List.mem_cons] at ih ⊢
    rw [ih]

end EquationCompiler
