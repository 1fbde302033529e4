import EquationCompiler.Record.Basic
import EquationCompiler.Record.Shape

/-!
# Lines of a document

A number sign starts a comment that lasts to the end of the line; a backslash
before it makes it an ordinary character. Without its comment, a line is blank, or
it has the shape of a record, or it is skipped. Nothing about a line is an error
at this stage.
-/
namespace EquationCompiler

namespace Comment

/-- The line without its comment and with the escaped number signs as such. -/
def strip : List Char → List Char
  | '\\' :: '#' :: rest => '#' :: strip rest
  | '#' :: _ => []
  | c :: rest => c :: strip rest
  | [] => []

@[simp] theorem strip_nil : strip [] = [] := rfl

@[simp] theorem strip_escaped (rest : List Char) :
    strip ('\\' :: '#' :: rest) = '#' :: strip rest := rfl

@[simp] theorem strip_comment (rest : List Char) : strip ('#' :: rest) = [] := rfl

end Comment

/-- A line without its comment and trimmed. -/
inductive Line where
  | blank
  | record (text : List Char)
  | skipped (text : List Char)
  deriving DecidableEq, Repr

def Line.classify (raw : List Char) : Line :=
  let text := Text.trim (Comment.strip raw)
  if text.isEmpty then .blank
  else if (Shape.ofText? text).isSome then .record text
  else .skipped text

end EquationCompiler
