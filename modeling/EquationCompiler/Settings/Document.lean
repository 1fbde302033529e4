import EquationCompiler.Settings.Datum
import EquationCompiler.Settings.Word

/-!
# Reading settings files

A file has lines with a key and a value, headers that say which table the lines
after them belong to, and comments. Values are texts in one of four kinds of
quotes, tables in braces, lists in brackets, and words for everything else. Inside
braces and brackets a line may end anywhere between two parts.
-/
namespace EquationCompiler.Datum

/-- A reader of some part of a text: its result and what follows. -/
abbrev Reader (β : Type) := StateT (List Char) (Except SettingsFault) β

def fail {β : Type} : Reader β := throw .malformed

def isBlank (c : Char) : Bool := c = ' ' || c = '\t'

/-- Control characters other than the tab stand nowhere in a line. -/
def isControl (c : Char) : Bool := (c.toNat < 0x20 && c ≠ '\t') || c.toNat = 0x7f

def isBareKeyChar (c : Char) : Bool := c.isAlphanum || c = '_' || c = '-'

def skipBlanks : Reader Unit := modify (·.dropWhile isBlank)

/-- Passes over the given text if it comes next. -/
def accept (expected : List Char) : Reader Bool := do
  let cs ← get
  if expected.isPrefixOf cs then
    set (cs.drop expected.length)
    return true
  else return false

def expect (expected : List Char) : Reader Unit := do
  if !(← accept expected) then fail

/-- The end of a line, as it is written there, if it comes next. -/
def newline? : Reader (Option (List Char)) := do
  if ← accept ['\r', '\n'] then return some ['\r', '\n']
  if ← accept ['\n'] then return some ['\n']
  return none

/-- Passes over the end of a line if it comes next. -/
def acceptNewline : Reader Bool := return (← newline?).isSome

/-- A comment up to the end of the line, if one comes next. -/
def skipComment : Reader Unit := do
  if ← accept ['#'] then
    let cs ← get
    let atEnd (c : Char) : Bool := c = '\n' || c = '\r'
    if (cs.takeWhile fun c => !atEnd c).any isControl then fail
    set (cs.dropWhile fun c => !atEnd c)

/-- Blanks and ends of lines, of which there are at most as many as `rounds`, and comments if `skip`
passes over them. -/
def skipLines (skip : Reader Unit) : Nat → Reader Unit
  | 0 => pure ()
  | rounds + 1 => do
    skipBlanks
    skip
    if ← acceptNewline then skipLines skip rounds

/-- Whatever may stand between two parts inside brackets or braces. -/
def skipGap : Reader Unit := do skipLines skipComment ((← get).length + 1)

/-- The blanks and ends of lines after the one that a backslash joins to the next. -/
def skipJoint : Reader Unit := do skipLines (pure ()) ((← get).length + 1)

/-- The character with the code in the next `count` hexadecimal digits. -/
def readCode (count : Nat) : Reader Char := do
  let cs ← get
  let some digits := (cs.take count).mapM Text.hexDigit? | fail
  if digits.length < count then fail
  set (cs.drop count)
  let code := digits.foldl (fun n d => 16 * n + d) 0
  if code.isValidChar then return Char.ofNat code else fail

/-- The character that an escape stands for, after the backslash. -/
def readEscape : Reader Char := do
  match ← get with
  | c :: rest =>
    set rest
    match c with
    | 'b' => return '\x08'
    | 'e' => return '\x1b'
    | 't' => return '\t'
    | 'n' => return '\n'
    | 'f' => return '\x0c'
    | 'r' => return '\r'
    | '"' => return '"'
    | '\\' => return '\\'
    | 'x' => readCode 2
    | 'u' => readCode 4
    | 'U' => readCode 8
    | _ => fail
  | [] => fail

/-- The rest of a text on one line, up to the closing quote. Only double quotes allow escapes. -/
def readQuoted (quote : Char) : Nat → Reader (List Char)
  | 0 => fail
  | rounds + 1 => do
    match ← get with
    | c :: rest =>
      set rest
      if c = quote then return []
      if c = '\\' ∧ quote = '"' then return (← readEscape) :: (← readQuoted quote rounds)
      if isControl c then fail
      return c :: (← readQuoted quote rounds)
    | [] => fail

/-- The rest of a text over several lines, up to three closing quotes. Two more quotes before them
belong to the text. Lines end in the text as they do in the file. A backslash at the end of a line
joins it to the next character. -/
def readLong (quote : Char) : Nat → Reader (List Char)
  | 0 => fail
  | rounds + 1 => do
    let quotes := (← get).takeWhile (· = quote)
    if 3 ≤ quotes.length then
      let extra := min (quotes.length - 3) 2
      modify (·.drop (extra + 3))
      return List.replicate extra quote
    if let some ending := ← newline? then return ending ++ (← readLong quote rounds)
    match ← get with
    | c :: rest =>
      set rest
      if c = '\\' ∧ quote = '"' then
        match rest.dropWhile isBlank with
        | '\n' :: _ | '\r' :: '\n' :: _ =>
          skipJoint
          readLong quote rounds
        | _ => return (← readEscape) :: (← readLong quote rounds)
      else
        if isControl c then fail
        return c :: (← readLong quote rounds)
    | [] => fail

/-- A text in quotes of the given kind, after the first quote. -/
def readText (quote : Char) : Reader String := do
  let rounds := (← get).length
  if ← accept [quote, quote] then
    let _ ← acceptNewline
    return String.ofList (← readLong quote rounds)
  else return String.ofList (← readQuoted quote rounds)

/-- A key without points: a word, or a text on one line. -/
def readSimpleKey : Reader String := do
  let rounds := (← get).length
  if ← accept ['"'] then return String.ofList (← readQuoted '"' rounds)
  if ← accept ['\x27'] then return String.ofList (← readQuoted '\x27' rounds)
  let key := (← get).takeWhile isBareKeyChar
  if key.isEmpty then fail
  modify (·.dropWhile isBareKeyChar)
  return String.ofList key

/-- Keys separated by points, with blanks around them. -/
def readKey : Nat → Reader (List String)
  | 0 => fail
  | rounds + 1 => do
    skipBlanks
    let key ← readSimpleKey
    skipBlanks
    if ← accept ['.'] then return key :: (← readKey rounds) else return [key]

/-- A text or a word. A date and a time of day may have a space between them. -/
def readPlain : Reader Datum := do
  match ← get with
  | '"' :: rest => set rest; return .text (← readText '"')
  | '\x27' :: rest => set rest; return .text (← readText '\x27')
  | cs =>
    let word := cs.takeWhile Word.isWordChar
    let rest := cs.dropWhile Word.isWordChar
    let (word, rest) := match rest with
      | ' ' :: c :: more =>
        if Word.isDate word ∧ c.isDigit then
          (word ++ ' ' :: (c :: more).takeWhile Word.isWordChar,
            (c :: more).dropWhile Word.isWordChar)
        else (word, rest)
      | _ => (word, rest)
    if !Word.isWord word then fail
    set rest
    return .scalar

/-- The entries of a table in braces after those read before, up to the closing brace. A comma may
follow the last. -/
def readEntries (value : Reader Datum) : Nat → Entries → Reader Entries
  | 0, _ => fail
  | rounds + 1, entries => do
    skipGap
    if ← accept ['\x7d'] then return entries
    let key ← readKey (← get).length
    skipGap
    expect ['=']
    skipGap
    let entries ← addKey entries (← value) key
    skipGap
    if ← accept [','] then readEntries value rounds entries
    else
      expect ['\x7d']
      return entries

/-- The items of a list, up to the closing bracket. A comma may follow the last. -/
def readItems (value : Reader Datum) : Nat → Reader (List Datum)
  | 0 => fail
  | rounds + 1 => do
    skipGap
    if ← accept [']'] then return []
    let item ← value
    skipGap
    if ← accept [','] then return item :: (← readItems value rounds)
    else
      expect [']']
      return [item]

/-- A value with at most `depth` brackets and braces around any part of it. -/
def readValue : Nat → Reader Datum
  | 0 => readPlain
  | depth + 1 => do
    let rounds := (← get).length
    if ← accept ['\x7b'] then return .table .complete (← readEntries (readValue depth) rounds [])
    if ← accept ['['] then return .list (← readItems (readValue depth) rounds)
    readPlain

/-- How many brackets and braces may stand around a part of a value. -/
def maxDepth : Nat := 80

/-- What has been read: all entries, and the header that the next line belongs to. -/
structure Progress where
  entries : Entries := []
  header : List String := []

/-- A header, after its first bracket. -/
def readHeader (p : Progress) : Reader Progress := do
  let double ← accept ['[']
  let path ← readKey (← get).length
  expect (if double then [']', ']'] else [']'])
  let openLast (key : String) := if double then openNext key else openTable key
  let some key := path.getLast? | fail
  let entries ← changeAt (openLast key) path.dropLast p.entries
  return ⟨entries, path⟩

/-- A line with a key and a value. -/
def readPair (p : Progress) : Reader Progress := do
  let key ← readKey (← get).length
  expect ['=']
  skipBlanks
  let value ← readValue maxDepth
  let entries ← changeAt (fun entries => addKey entries value key) p.header p.entries
  return ⟨entries, p.header⟩

/-- The lines of a file, of which there are at most as many as `rounds`. -/
def readLines : Nat → Progress → Reader Entries
  | 0, p => return p.entries
  | rounds + 1, p => do
    skipGap
    if (← get).isEmpty then return p.entries
    let p ← if ← accept ['['] then readHeader p else readPair p
    skipBlanks
    skipComment
    if (← get).isEmpty then return p.entries
    if !(← acceptNewline) then fail
    readLines rounds p

/-- The table that a text denotes. A byte order mark at the start means nothing. -/
def ofText (text : String) : Except SettingsFault Datum := do
  let cs := match text.toList with
    | '\ufeff' :: cs => cs
    | cs => cs
  let (entries, _) ← (readLines (cs.length + 1) {}).run cs
  return .table .header entries

end EquationCompiler.Datum
