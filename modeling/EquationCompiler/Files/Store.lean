/-!
# Access to files

The operations on files that a run needs, for any kind of computation that can
perform them, and the causes for which the operating system refuses them, in its
wording.
-/
namespace EquationCompiler

inductive FileFault where
  | notFound
  | isFolder
  | notFolder
  /-- A name or a whole path has too many bytes. -/
  | nameTooLong
  /-- The null character ends a path, so none can hold it. -/
  | nullInName
  /-- The bytes are no UTF-8 text. -/
  | notText
  /-- The folder that an output should go to is missing. -/
  | missingOutputFolder
  | other (message : String)
  deriving DecidableEq, Repr

def FileFault.message : FileFault → String
  | notFound => "No such file or directory (os error 2)"
  | isFolder => "Is a directory (os error 21)"
  | notFolder => "Not a directory (os error 20)"
  | nameTooLong => "File name too long (os error 36)"
  | nullInName => "file name contained an unexpected NUL byte"
  | notText => "stream did not contain valid UTF-8"
  | missingOutputFolder => "output directory does not exist"
  | other message => message

/-- Reading and writing whole text files. -/
class FileStore (m : Type → Type) where
  read : (path : String) → m (Except FileFault String)
  /-- Replaces the contents of a file, or creates it. -/
  write : (path contents : String) → m (Except FileFault Unit)
  isFile : (path : String) → m Bool
  isFolder : (path : String) → m Bool

/-- A computation that may fail has the access of the one it extends. -/
instance {ε : Type} {m : Type → Type} [Monad m] [FileStore m] : FileStore (ExceptT ε m) where
  read path := ExceptT.lift (FileStore.read path)
  write path contents := ExceptT.lift (FileStore.write path contents)
  isFile path := ExceptT.lift (FileStore.isFile path)
  isFolder path := ExceptT.lift (FileStore.isFolder path)

end EquationCompiler
