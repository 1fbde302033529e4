import EquationCompiler.Template.Basic
import EquationCompiler.Text.Basic

/-!
# Reading templates

Values stand in double braces, and tags between a brace and a percent sign open,
divide and close blocks. Comments stand between a brace and a number sign. All
else is text, with the blanks around tags; a hyphen at the start or the end of a
tag removes those on its side.
-/
namespace EquationCompiler.Template

inductive TagKind where
  | value
  | block
  | comment
  deriving DecidableEq, Repr

/-- The kind of tag that a brace and the given character open. -/
def TagKind.ofChar? : Char → Option TagKind
  | '{' => some .value
  | '%' => some .block
  | '#' => some .comment
  | _ => none

/-- The character before the closing brace. -/
def TagKind.closing : TagKind → Char
  | value => '}'
  | block => '%'
  | comment => '#'

/-- What stands between braces. -/
structure Tag where
  kind : TagKind
  inside : List Char
  /-- Whether blanks before the tag are removed. -/
  trimsBefore : Bool
  trimsAfter : Bool
  deriving DecidableEq, Repr

/-- A stretch of a template. -/
inductive Item where
  | text (cs : List Char)
  | tag (t : Tag)
  deriving DecidableEq, Repr

/-- The text before and after the first `a` that is followed by `b`. -/
def cutPair? (a b : Char) : List Char → Option (List Char × List Char)
  | [] => none
  | c :: rest =>
    match rest with
    | d :: after =>
      if c = a ∧ d = b then some ([], after)
      else (cutPair? a b rest).map fun (before, after) => (c :: before, after)
    | [] => none

/-- Whether a text starts with a hyphen, and the text without it. -/
def dropHyphen : List Char → Bool × List Char
  | '-' :: cs => (true, cs)
  | cs => (false, cs)

/-- The tag of a kind whose opening characters come before a text, and what follows it. A comment
has at least one character. -/
def takeTag (kind : TagKind) (cs : List Char) : Except TemplateFault (Tag × List Char) :=
  let (trimsBefore, cs) := dropHyphen cs
  match cutPair? kind.closing '}' cs with
  | none => .error .unclosedTag
  | some (inside, rest) =>
    let (trimsAfter, reversed) := dropHyphen inside.reverse
    if kind = .comment ∧ reversed = [] then .error .unclosedTag
    else .ok (⟨kind, reversed.reverse, trimsBefore, trimsAfter⟩, rest)

/-- Puts a character in front of the items. -/
def consChar (c : Char) : List Item → List Item
  | .text cs :: items => .text (c :: cs) :: items
  | items => .text [c] :: items

/-- The items of a template, of which there are at most as many as `rounds`. -/
def scanIn : Nat → List Char → Except TemplateFault (List Item)
  | 0, _ => .ok []
  | _ + 1, [] => .ok []
  | rounds + 1, '{' :: c :: rest =>
    match TagKind.ofChar? c with
    | some kind => do
      let (tag, rest) ← takeTag kind rest
      return .tag tag :: (← scanIn rounds rest)
    | none => do return consChar '{' (← scanIn rounds (c :: rest))
  | rounds + 1, c :: rest => do return consChar c (← scanIn rounds rest)

/-- Removes the blanks of texts on the sides of tags with a hyphen. -/
def trimTexts (afterTrimming : Bool) : List Item → List Item
  | [] => []
  | .tag t :: items => .tag t :: trimTexts t.trimsAfter items
  | .text cs :: items =>
    let cs := if afterTrimming then Text.trimStart cs else cs
    let cs := match items with
      | .tag t :: _ => if t.trimsBefore then Text.trimEnd cs else cs
      | _ => cs
    .text cs :: trimTexts false items

def scan (cs : List Char) : Except TemplateFault (List Item) := do
  return trimTexts false (← scanIn cs.length cs)

/-- What separates the words of a tag. -/
def isBlank (c : Char) : Bool := c = ' ' || c = '\t' || c = '\n' || c = '\r'

/-- The words of a tag. A bar is a word of its own. -/
def wordsOf (cs : List Char) : List String :=
  let spaced := cs.flatMap fun c =>
    if c = '|' then [' ', '|', ' '] else if isBlank c then [' '] else [c]
  ((Text.pieces ' ' spaced).filter fun w => !w.isEmpty).map String.ofList

/-- What follows the given word and a blank, if a tag starts with them. -/
def afterWord? (word : String) (cs : List Char) : Option (List Char) :=
  let cs := cs.dropWhile isBlank
  if word.toList.isPrefixOf cs then
    match cs.drop word.length with
    | c :: rest => if isBlank c then some rest else none
    | [] => none
  else none

def isNameChar (c : Char) : Bool := c.isAlphanum || c = '_'

/-- Whether a word is a name: letters, digits and underscores, with no digit at the start. -/
def isName (cs : List Char) : Bool :=
  match cs with
  | c :: _ => !c.isDigit && cs.all isNameChar
  | [] => false

/-- A word as a name and fields, which are separated by points. -/
def toPath? (word : String) : Option ValuePath :=
  match Text.pieces '.' word.toList with
  | name :: fields =>
    if isName name && fields.all (fun f => !f.isEmpty && f.all isNameChar) then
      some ((name :: fields).map String.ofList)
    else none
  | [] => none

/-- The spellings of truth values. -/
def flagNames : List (String × Bool) :=
  [("true", true), ("True", true), ("false", false), ("False", false)]

/-- A word as a truth value or a path. No path starts with the letters of a truth value. -/
def toOperand? (word : String) : Option Operand :=
  match flagNames.find? fun (name, _) => name.toList.isPrefixOf word.toList with
  | some (name, b) => if word = name then some (.flag b) else none
  | none => (toPath? word).map .path

/-- The filters that words name, each after a bar. -/
def toFilters? : List String → Option (List String)
  | [] => some []
  | "|" :: name :: rest => if isName name.toList then (toFilters? rest).map (name :: ·) else none
  | _ => none

/-- An operand with its filters. -/
def toQuery? : List String → Option Query
  | [] => none
  | word :: rest => do return { operand := ← toOperand? word, filters := ← toFilters? rest }

/-- The query inside a tag. It is negated if it starts with `not` and a blank; elsewhere `not` is a
name. -/
def readQuery (cs : List Char) : Except TemplateFault Query :=
  let query? := match afterWord? "not" cs with
    | some rest => (toQuery? (wordsOf rest)).map fun q => { q with negated := true }
    | none => toQuery? (wordsOf cs)
  match query? with
  | some q => .ok q
  | none => .error (.malformedTag (String.ofList cs))

/-- The name of the items and the container of a loop, from the words of its tag. -/
def toLoop? : List String → Option (String × Query)
  | "for" :: name :: "in" :: container =>
    if isName name.toList then (toQuery? container).map (name, ·) else none
  | _ => none

mutual
/-- The pieces up to a tag that opens no block, or up to the end. -/
def readPieces : Nat → List Item → Except TemplateFault (List Piece × List Item)
  | 0, items => .ok ([], items)
  | _ + 1, [] => .ok ([], [])
  | depth + 1, .text cs :: items => do
    let (pieces, rest) ← readPieces depth items
    return (.text (String.ofList cs) :: pieces, rest)
  | depth + 1, .tag t :: items =>
    match t.kind with
    | .comment => readPieces depth items
    | .value => do
      let query ← readQuery t.inside
      let (pieces, rest) ← readPieces depth items
      return (.value query :: pieces, rest)
    | .block =>
      match toLoop? (wordsOf t.inside), afterWord? "if" t.inside with
      | some (name, container), _ => do
        let (body, rest) ← readPieces depth items
        let (otherwise, rest) ← readOtherwise depth [] rest
        let (pieces, rest) ← readPieces depth rest
        return (.forEach name container body otherwise :: pieces, rest)
      | none, some condition => do
        let condition ← readQuery condition
        let (yes, rest) ← readPieces depth items
        let (no, rest) ← readBranches depth rest
        let (pieces, rest) ← readPieces depth rest
        return (.branch condition yes no :: pieces, rest)
      | none, none => return ([], .tag t :: items)
/-- The part of a loop for no items and its closing tag. Of several such parts the last counts. -/
def readOtherwise : Nat → List Piece → List Item → Except TemplateFault (List Piece × List Item)
  | depth + 1, otherwise, .tag t :: items =>
    match wordsOf t.inside with
    | ["endfor"] => return (otherwise, items)
    | ["else"] => do
      let (otherwise, rest) ← readPieces depth items
      readOtherwise depth otherwise rest
    | _ => throw .unbalanced
  | _, _, _ => .error .unbalanced
/-- The alternatives of a condition and its closing tag. -/
def readBranches : Nat → List Item → Except TemplateFault (List Piece × List Item)
  | depth + 1, .tag t :: items =>
    match afterWord? "elif" t.inside, wordsOf t.inside with
    | some condition, _ => do
      let condition ← readQuery condition
      let (yes, rest) ← readPieces depth items
      let (no, rest) ← readBranches depth rest
      return ([.branch condition yes no], rest)
    | none, ["endif"] => return ([], items)
    | none, ["else"] => do
      let (no, rest) ← readPieces depth items
      match rest with
      | .tag t :: rest =>
        if wordsOf t.inside = ["endif"] then return (no, rest) else throw .unbalanced
      | _ => throw .unbalanced
    | _, _ => throw .unbalanced
  | _, _ => .error .unbalanced
end

/-- A text as a template. Every item is read once, which bounds the nesting. -/
def ofText (text : String) : Except TemplateFault Template := do
  let items ← scan text.toList
  let (pieces, rest) ← readPieces (2 * items.length + 2) items
  if rest.isEmpty then return pieces else throw .unbalanced

end EquationCompiler.Template
