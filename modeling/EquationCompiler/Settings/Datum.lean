/-!
# Data of settings files

A settings file is a table of keys and values. Tables come about in four ways,
and a table is only added to in the way it came about: a header may open a table
once, dotted keys may add to a table that dotted keys made, and a table in braces
is complete.
-/
namespace EquationCompiler

/-- What can go wrong with a settings file. -/
inductive SettingsFault where
  /-- The text is no document of keys and values. -/
  | malformed
  | duplicateKey (key : String)
  | unknownKey (key : String)
  | wrongType (key : String)
  | unknownPolicy (name : String)
  deriving DecidableEq, Repr

def SettingsFault.message : SettingsFault → String
  | malformed => "malformed document"
  | duplicateKey key => "duplicate key: " ++ key
  | unknownKey key => "unknown key: " ++ key
  | wrongType key => "wrong type of value: " ++ key
  | unknownPolicy name => "unknown policy: " ++ name

/-- How a table came about. -/
inductive TableOrigin where
  /-- By a header of its own. -/
  | header
  /-- By a header of a table inside it. -/
  | implied
  /-- By a key with points. -/
  | dotted
  /-- By a value in braces. -/
  | complete
  deriving DecidableEq, Repr

inductive Datum where
  | text (s : String)
  | table (origin : TableOrigin) (entries : List (String × Datum))
  | list (items : List Datum)
  /-- A list that headers in double brackets add tables to. -/
  | tables (items : List (List (String × Datum)))
  /-- A number, a date or a truth value. -/
  | scalar
  deriving Repr, Inhabited

namespace Datum

/-- The entries of a table, in the order of the file. -/
abbrev Entries := List (String × Datum)

/-- Replaces the value of a key, or adds it at the end. -/
def assign (key : String) (value : Datum) : Entries → Entries
  | [] => [(key, value)]
  | (k, v) :: rest => if k = key then (k, value) :: rest else (k, v) :: assign key value rest

/-- Adds a value under a key with points. -/
def addKey (entries : Entries) (value : Datum) : List String → Except SettingsFault Entries
  | [] => .error .malformed
  | [key] =>
    if (entries.lookup key).isSome then .error (.duplicateKey key)
    else .ok (assign key value entries)
  | key :: rest =>
    match entries.lookup key with
    | none => do return assign key (.table .dotted (← addKey [] value rest)) entries
    | some (.table .dotted inner) => do
      return assign key (.table .dotted (← addKey inner value rest)) entries
    | some _ => .error (.duplicateKey key)

/-- Applies `change` to the entries of the table at the end of a path of headers. Tables that are
missing on the way are implied. -/
def changeAt (change : Entries → Except SettingsFault Entries) :
    List String → Entries → Except SettingsFault Entries
  | [], entries => change entries
  | key :: rest, entries =>
    match entries.lookup key with
    | none => do return assign key (.table .implied (← changeAt change rest [])) entries
    | some (.table .complete _) => .error (.duplicateKey key)
    | some (.table origin inner) => do
      return assign key (.table origin (← changeAt change rest inner)) entries
    | some (.tables items) =>
      match items.getLast? with
      | some last => do
        return assign key (.tables (items.dropLast ++ [← changeAt change rest last])) entries
      | none => .error .malformed
    | some _ => .error (.duplicateKey key)

/-- Opens the table with the last key of a header. -/
def openTable (key : String) (entries : Entries) : Except SettingsFault Entries :=
  match entries.lookup key with
  | none => .ok (assign key (.table .header []) entries)
  | some (.table .implied inner) => .ok (assign key (.table .header inner) entries)
  | some _ => .error (.duplicateKey key)

/-- Adds a table to the list with the last key of a header in double brackets. -/
def openNext (key : String) (entries : Entries) : Except SettingsFault Entries :=
  match entries.lookup key with
  | none => .ok (assign key (.tables [[]]) entries)
  | some (.tables items) => .ok (assign key (.tables (items ++ [[]])) entries)
  | some _ => .error (.duplicateKey key)

end Datum

end EquationCompiler
