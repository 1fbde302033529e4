import EquationCompiler.Files.Path
import EquationCompiler.Files.Store

/-!
# Trees of files

A file system without links as a value, with a root and a working folder. Paths
that start with a slash are followed from the root, all others from the working
folder. Runs on a tree are pure functions.
-/
namespace EquationCompiler

inductive FileEntry where
  | folder
  | file (contents : ByteArray)

def FileEntry.isFolder : FileEntry → Bool
  | folder => true
  | file _ => false

/-- The names on the way from the root. -/
abbrev Location := List String

/-- Where a part of a path leads from a location. Above the root there is the root. -/
def Location.step (l : Location) (part : String) : Location :=
  if part = "" ∨ part = "." then l
  else if part = ".." then l.dropLast
  else l ++ [part]

/-- The working folder, and the entries that have been made. The working folder and those above it
are there from the start. -/
structure FileTree where
  working : Location := ["work"]
  entries : List (Location × FileEntry) := []

namespace FileTree

/-- Whether a location is the working folder or a folder above it. -/
def isAbove (t : FileTree) (l : Location) : Bool := l.isPrefixOf t.working

def find? (t : FileTree) (l : Location) : Option FileEntry :=
  if t.isAbove l then some .folder else t.entries.lookup l

def hasFolder (t : FileTree) (l : Location) : Bool := (t.find? l).any FileEntry.isFolder

/-- Replaces the entry at a location, or adds it. -/
def put (t : FileTree) (l : Location) (e : FileEntry) : FileTree :=
  { t with entries := (l, e) :: t.entries.filter fun entry => entry.1 ≠ l }

@[simp] theorem isAbove_put (t : FileTree) (l : Location) (e : FileEntry) (k : Location) :
    (t.put l e).isAbove k = t.isAbove k := rfl

@[simp] theorem find?_put_self (t : FileTree) {l : Location} (e : FileEntry)
    (h : t.isAbove l = false) : (t.put l e).find? l = some e := by
  rw [find?, isAbove_put, h]
  simp [put]

/-- Follows the parts of a path. Every part is looked up in a folder, and has at most 255 bytes. -/
def follow (t : FileTree) : Location → List String → Except FileFault Location
  | l, [] => .ok l
  | l, part :: rest =>
    match t.find? l with
    | none => .error .notFound
    | some (.file _) => .error .notFolder
    | some .folder =>
      if 255 < part.utf8ByteSize then .error .nameTooLong else t.follow (l.step part) rest

/-- The parts of a path, including the empty one after a slash at the end. -/
def partsOf (path : String) : List String := (Text.pieces '/' path.toList).map String.ofList

/-- Refuses what is no path to anything: a text with the null character, the empty text, and a text
of more than 4095 bytes. -/
def checkPath (path : String) : Except FileFault Unit :=
  if path.toList.contains '\x00' then .error .nullInName
  else if path = "" then .error .notFound
  else if 4095 < path.utf8ByteSize then .error .nameTooLong
  else .ok ()

/-- Where a path starts: at the root, or in the working folder. -/
def start (t : FileTree) (path : String) : Location :=
  if path.toList.head? = some '/' then [] else t.working

@[simp] theorem start_put (t : FileTree) (l : Location) (e : FileEntry) (path : String) :
    (t.put l e).start path = t.start path := rfl

/-- Where a path leads. -/
def locate (t : FileTree) (path : String) : Except FileFault Location := do
  checkPath path
  t.follow (t.start path) (partsOf path)

/-- The contents of the file at a path. -/
def readBytes (t : FileTree) (path : String) : Except FileFault ByteArray := do
  match t.find? (← t.locate path) with
  | none => throw .notFound
  | some .folder => throw .isFolder
  | some (.file contents) => return contents

def read (t : FileTree) (path : String) : Except FileFault String := do
  match String.fromUTF8? (← t.readBytes path) with
  | some text => return text
  | none => throw .notText

/-- The location of a file that is to be written. A path with a slash at the end can only be a
folder. -/
def locateOutput (t : FileTree) (path : String) : Except FileFault Location := do
  checkPath path
  if path.endsWith "/" then
    let _ ← t.follow (t.start path) (partsOf path).dropLast.dropLast
    throw .isFolder
  let l ← t.locate path
  if t.hasFolder l then throw .isFolder
  return l

def writeBytes (t : FileTree) (path : String) (contents : ByteArray) :
    Except FileFault FileTree := do
  return t.put (← t.locateOutput path) (.file contents)

def write (t : FileTree) (path contents : String) : Except FileFault FileTree :=
  t.writeBytes path contents.toUTF8

def isFile (t : FileTree) (path : String) : Bool :=
  match t.readBytes path with
  | .ok _ => true
  | .error _ => false

def isFolder (t : FileTree) (path : String) : Bool :=
  match t.locate path with
  | .ok l => t.hasFolder l
  | .error _ => false

/-- Creates the folder at a path and those on the way to it. -/
def makeFolder (t : FileTree) (path : String) : FileTree :=
  let grow : FileTree × Location → String → FileTree × Location
    | (t, l), part =>
      let l := l.step part
      (if (t.find? l).isNone then t.put l .folder else t, l)
  ((partsOf path).foldl grow (t, t.start path)).1

/-- The paths from the working folder to all entries below it, ascending, those of folders with a
slash at the end. -/
def listing (t : FileTree) : List String :=
  let path? : Location × FileEntry → Option String
    | (l, e) =>
      if t.working.isPrefixOf l then
        let below := "/".intercalate (l.drop t.working.length)
        some (if e.isFolder then below ++ "/" else below)
      else none
  (t.entries.filterMap path?).mergeSort (· ≤ ·)

end FileTree

instance : FileStore (StateM FileTree) where
  read path := do return (← get).read path
  write path contents := do
    match (← get).write path contents with
    | .ok t => set t; return .ok ()
    | .error cause => return .error cause
  isFile path := do return (← get).isFile path
  isFolder path := do return (← get).isFolder path

end EquationCompiler
