import EquationCompiler.Proofs.RecordText

/-!
# Commented lines

Escaping is undone whatever the text, and also where it has backslashes before its
number signs already. A comment after a text leaves no trace, unless a backslash at
the end of the text takes the number sign for itself.
-/
namespace EquationCompiler.Comment

theorem strip_escape (text : List Char) : strip (escape text) = text := by
  simpa using strip_escape_append text (show ([] : List Char).head? ≠ some '#' by simp)

lemma getLast?_ne_of_cons {c d : Char} {cs : List Char} (h : (d :: cs).getLast? ≠ some c) :
    cs.getLast? ≠ some c := by
  cases cs with
  | nil => simp
  | cons e cs => simpa using h

/-- The scanner passes over every text that does not end in a backslash before it meets the mark
after it, or stops at a mark within. The induction is on what it has left to read. -/
theorem strip_append_comment {text : List Char} (h : text.getLast? ≠ some '\\')
    (comment : List Char) : strip (text ++ '#' :: comment) = strip text := by
  fun_induction strip text with
  | case1 rest ih => simp [ih (getLast?_ne_of_cons (getLast?_ne_of_cons h))]
  | case2 rest => simp
  | case3 c rest hescaped hmark ih =>
    have hplain : ∀ more, c = '\\' → rest ++ '#' :: comment = '#' :: more → False := by
      rintro more rfl hmore
      cases rest with
      | nil => exact h rfl
      | cons d cs => exact hescaped cs rfl (by rw [(List.cons.inj hmore).1])
    rw [List.cons_append, strip.eq_3 _ _ hplain hmark, ih (getLast?_ne_of_cons h)]
  | case4 => rfl

/-- Stripping undoes escaping, and neither it nor the class of a line depends on a comment. -/
theorem strip_escaped_and_commented :
    (∀ text, strip (escape text) = text) ∧
      ∀ text : List Char, text.getLast? ≠ some '\\' → ∀ comment,
        strip (text ++ '#' :: comment) = strip text ∧
          Line.classify (text ++ '#' :: comment) = Line.classify text := by
  refine ⟨strip_escape, fun text htext comment => ?_⟩
  have hstrip := strip_append_comment htext comment
  exact ⟨hstrip, by rw [Line.classify, hstrip, Line.classify]⟩

/-- A backslash that is not at the end, and a mark right after the text. -/
theorem strip_escaped_and_commented_backslashes :
    "f(a) = a\\\\# b".toList.getLast? ≠ some '\\' ∧
      strip "f(a) = a\\\\# b#\\# c".toList = "f(a) = a\\# b".toList ∧
      Line.classify "f(a) = a\\\\# b#\\# c".toList = .record "f(a) = a\\# b".toList := by
  have hend : "f(a) = a\\\\# b".toList.getLast? ≠ some '\\' := by decide
  obtain ⟨hstrip, hclassify⟩ := strip_escaped_and_commented.2 _ hend "\\# c".toList
  exact ⟨hend, hstrip.trans (by decide), hclassify.trans (by decide)⟩

end EquationCompiler.Comment
