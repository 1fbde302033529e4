import EquationCompiler.CommandLine
import EquationCompiler.Number.Machine

/-!
# The program

Reads the arguments and works on the files of the machine.
-/
namespace EquationCompiler

/-- The cause that the operating system gives. -/
def FileFault.ofError (e : IO.Error) : FileFault :=
  match e with
  | .noFileOrDirectory .. => .notFound
  | .noSuchThing .. => .notFound
  | .inappropriateType _ 21 _ => .isFolder
  | .inappropriateType .. => .notFolder
  | e => .other (toString e)

/-- The text of a file, or why it cannot be read. -/
def readText (path : String) : IO (Except FileFault String) := do
  try
    let bytes ← IO.FS.readBinFile path
    match String.fromUTF8? bytes with
    | some text => return .ok text
    | none => return .error .notText
  catch e => return .error (FileFault.ofError e)

instance : FileStore IO where
  read := readText
  write path contents := do
    try
      IO.FS.writeFile path contents
      return .ok ()
    catch e => return .error (FileFault.ofError e)
  isFile path := do
    match ← readText path with
    | .ok _ | .error .notText => return true
    | .error _ => return false
  isFolder path := do
    match ← readText path with
    | .error .isFolder => return true
    | _ => return false

end EquationCompiler

open EquationCompiler in
def main (args : List String) : IO UInt32 := do
  let result ← (Command.ofArguments args).execute Float (m := IO)
  IO.print result.output
  IO.eprint result.errors
  return UInt32.ofNat result.code
