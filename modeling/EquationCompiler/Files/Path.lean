import EquationCompiler.Text.Basic

/-!
# Paths

A path is text whose parts are separated by slashes. Repeated slashes, a slash at
the end and parts that are a single point mean nothing, except at the start.
-/
namespace EquationCompiler.Path

/-- The parts that mean something, which include two points for the folder above. -/
def parts (path : List Char) : List (List Char) :=
  (Text.pieces '/' path).filter fun p => !p.isEmpty && p ≠ ['.']

/-- The last part, unless it is the folder above. -/
def fileName? (path : String) : Option String :=
  match (parts path.toList).getLast? with
  | some ['.', '.'] | none => none
  | some name => some (String.ofList name)

/-- The last part, or the whole path if that is no name. -/
def fileNameOr (path : String) : String := (fileName? path).getD path

/-- A name up to its last point, unless nothing comes before that point. -/
def stem (name : List Char) : List Char :=
  match Text.cut? '.' name.reverse with
  | some (_, before@(_ :: _)) => before.reverse
  | _ => name

def fileStem? (path : String) : Option String :=
  (fileName? path).map fun name => String.ofList (stem name.toList)

/-- A reversed path without what means nothing at its end. -/
def trimReversed : List Char → List Char
  | '/' :: c :: rest => trimReversed (c :: rest)
  | '.' :: '/' :: rest => trimReversed ('/' :: rest)
  | path => path

/-- The folder that a path lies in: the path without its last part. A single part lies in the
folder of the empty path; the root and the empty path lie in none. -/
def parent? (path : String) : Option String :=
  match trimReversed path.toList.reverse with
  | [] | ['/'] => none
  | trimmed => some (String.ofList (trimReversed (trimmed.dropWhile (· ≠ '/'))).reverse)

end EquationCompiler.Path
