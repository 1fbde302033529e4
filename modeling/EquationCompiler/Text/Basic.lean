/-!
# Texts

Texts are lists of characters here. They are trimmed of the characters with the
Unicode property `White_Space`, cut at a character, where nothing is lost but the
separating characters themselves, and read as numbers.
-/
namespace EquationCompiler.Text

/-- The characters with the property `White_Space`, as ranges. -/
def blankRanges : List (Nat × Nat) :=
  [(0x09, 0x0d), (0x20, 0x20), (0x85, 0x85), (0xa0, 0xa0), (0x1680, 0x1680), (0x2000, 0x200a),
    (0x2028, 0x2029), (0x202f, 0x202f), (0x205f, 0x205f), (0x3000, 0x3000)]

def isBlank (c : Char) : Bool :=
  blankRanges.any fun (first, last) => first ≤ c.toNat && c.toNat ≤ last

/-- The text without leading blanks. -/
def trimStart (cs : List Char) : List Char := cs.dropWhile isBlank

/-- The text without trailing blanks. -/
def trimEnd (cs : List Char) : List Char := (trimStart cs.reverse).reverse

/-- The text without blanks at either end. -/
def trim (cs : List Char) : List Char := trimEnd (trimStart cs)

/-- The text before and after the first `c`, if there is one. -/
def cut? (c : Char) : List Char → Option (List Char × List Char)
  | [] => none
  | d :: rest =>
    if d = c then some ([], rest)
    else (cut? c rest).map fun (before, after) => (d :: before, after)

theorem cut?_eq_some {c : Char} {text before after : List Char}
    (h : cut? c text = some (before, after)) : text = before ++ c :: after ∧ c ∉ before := by
  induction text generalizing before with
  | nil => simp [cut?] at h
  | cons d rest ih =>
    simp only [cut?] at h
    split at h
    · next hd => cases h; simp [hd]
    · next hd =>
      obtain ⟨⟨b, a⟩, hba, heq⟩ := Option.map_eq_some_iff.1 h
      cases heq
      obtain ⟨rfl, hb⟩ := ih hba
      simp [hb, Ne.symm hd]

@[simp] theorem cut?_append_cons {c : Char} {before : List Char} (after : List Char)
    (h : c ∉ before) : cut? c (before ++ c :: after) = some (before, after) := by
  induction before with
  | nil => simp [cut?]
  | cons d before ih =>
    simp only [List.mem_cons, not_or] at h
    simp [cut?, Ne.symm h.1, ih h.2]

/-- The pieces between the separators, of which there is always one more than separators. -/
def pieces (c : Char) : List Char → List (List Char)
  | [] => [[]]
  | d :: rest =>
    match pieces c rest with
    | first :: more => if d = c then [] :: first :: more else (d :: first) :: more
    | [] => [[d]]

/-- The lines of a text. A line feed ends a line, and a carriage return before it belongs to the
ending; what follows the last line feed is a line unless it is empty. -/
def lines (text : List Char) : List (List Char) :=
  let ls := pieces '\n' text
  let ended := ls.dropLast.map fun l => if l.getLast? = some '\r' then l.dropLast else l
  match ls.getLast? with
  | some (c :: cs) => ended ++ [c :: cs]
  | _ => ended

/-- The number that a row of decimal digits spells. -/
def natOfDigits (cs : List Char) : Nat :=
  cs.foldl (fun n c => 10 * n + (c.toNat - '0'.toNat)) 0

/-- The integer that digits with or without a sign spell. -/
def intOfDigits : List Char → Int
  | '-' :: cs => -natOfDigits cs
  | '+' :: cs => natOfDigits cs
  | cs => natOfDigits cs

/-- The value of a hexadecimal digit. -/
def hexDigit? (c : Char) : Option Nat :=
  if c.isDigit then some (c.toNat - '0'.toNat)
  else if 'a' ≤ c ∧ c ≤ 'f' then some (c.toNat - 'a'.toNat + 10)
  else if 'A' ≤ c ∧ c ≤ 'F' then some (c.toNat - 'A'.toNat + 10)
  else none

end EquationCompiler.Text
