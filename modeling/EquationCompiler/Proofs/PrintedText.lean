import EquationCompiler.Proofs.Lexeme
import EquationCompiler.Proofs.PrintRead
import EquationCompiler.Proofs.RecordText

/-!
# Printed texts have tight ends

No blank stands at either end of a printed text, though blanks stand around signs and
after commas. So a record that a printed text is put into has the text as it is.
-/
namespace EquationCompiler

namespace Text

/-- The text is not empty, and no blank stands at either end of it. -/
structure Tight (cs : List Char) : Prop where
  ne_nil : cs ≠ []
  starts : ∀ c ∈ cs.head?, isBlank c = false
  ends : ∀ c ∈ cs.getLast?, isBlank c = false

namespace Tight
variable {cs ds : List Char}

theorem trim_eq (h : Tight cs) : trim cs = cs := trim_eq_self h.starts h.ends

lemma of_forall (hne : cs ≠ []) (h : ∀ c ∈ cs, isBlank c = false) : Tight cs :=
  ⟨hne, fun c hc => h c (List.mem_of_mem_head? hc), fun c hc => h c (List.mem_of_mem_getLast? hc)⟩

lemma singleton {c : Char} (hc : isBlank c = false) : Tight [c] :=
  .of_forall (List.cons_ne_nil _ _) (List.forall_mem_singleton.mpr hc)

lemma cons {c : Char} (hc : isBlank c = false) (h : Tight cs) : Tight (c :: cs) where
  ne_nil := List.cons_ne_nil c cs
  starts := by simpa using hc
  ends := by
    rw [← List.singleton_append, List.getLast?_append_of_ne_nil _ h.ne_nil]
    exact h.ends

lemma append (h : Tight cs) (hends : ∀ c ∈ ds.getLast?, isBlank c = false) :
    Tight (cs ++ ds) where
  ne_nil := List.append_ne_nil_of_left_ne_nil h.ne_nil ds
  starts := by
    rw [List.head?_append_of_ne_nil cs h.ne_nil]
    exact h.starts
  ends := by
    intro c hc
    rw [List.getLast?_append, Option.mem_def, Option.or_eq_some_iff] at hc
    rcases hc with hc | ⟨-, hc⟩
    · exact hends c hc
    · exact h.ends c hc

/-- Whatever stands before a tight text, the ends are those of the text. -/
lemma ends_append (h : Tight ds) (cs : List Char) :
    ∀ c ∈ (cs ++ ds).getLast?, isBlank c = false := by
  rw [List.getLast?_append_of_ne_nil _ h.ne_nil]
  exact h.ends

end Tight

end Text

open Text (Tight)

lemma Token.IsName.tight {cs : List Char} (h : Token.IsName cs) : Tight cs := by
  refine .of_forall (fun hempty => ?_) fun c hc => Shape.isNameChar_spec ?_
  · rw [hempty] at h
    exact h
  · cases cs with
    | nil => cases hc
    | cons first rest =>
      rcases List.mem_cons.mp hc with rfl | hc
      · exact Token.isNameChar_of_isNameStart h.1
      · exact h.2 c hc

lemma not_blank_of_isDigit {c : Char} (h : c.isDigit = true) : Text.isBlank c = false :=
  Shape.isNameChar_spec (Token.isNameChar_of_isDigit h)

lemma Token.IsDigits.tight {cs : List Char} (h : Token.IsDigits cs) : Tight cs :=
  .of_forall h.1 fun c hc => not_blank_of_isDigit (h.2 c hc)

lemma IsDecimal.tight {cs : List Char} (h : IsDecimal cs) : Tight cs := by
  rcases h with h | ⟨hliteral, ⟨first, hfirst, hdigit⟩, -⟩
  · exact h.tight
  · have htake := hliteral [] nofun
    rw [List.append_nil] at htake
    obtain ⟨-, hshape, -⟩ := Token.takeNumber?_eq_some_iff.mp htake
    refine ⟨(Token.takeNumber?_eq_some htake).2, fun c hc => ?_, fun c hc => ?_⟩
    · rw [Option.mem_unique hc hfirst]
      exact not_blank_of_isDigit hdigit
    · rcases hshape.getLast? c hc with hc | rfl
      · exact not_blank_of_isDigit hc
      · decide

namespace Expr
variable {α : Type} [Numeral α] {d : Dialect} {print : Expr α → Printed}

lemma tight_number [Legible α] (x : α) (divides : Bool) : Tight (d.number x divides).toList := by
  obtain ⟨cs, htext, hcs⟩ := d.number_spec x divides
  have htight : Tight cs := by
    rcases hcs with ⟨-, -, h⟩ | ⟨-, h⟩
    · exact h.tight
    · exact h.tight
  rcases htext with h | h
  · rwa [h]
  · rw [h]
    exact htight.cons (by decide)

lemma tight_closing : Tight ")".toList := .singleton (by decide)

lemma tight_group {text : String} : Tight ("(" ++ text ++ ")").toList := by
  rw [String.append_assoc, String.toList_append, String.toList_append]
  exact Tight.append (.singleton (by decide)) (tight_closing.ends_append _)

lemma tight_atLeast {p : Printed} (h : Tight p.text.toList) (needed : Precedence) :
    Tight (p.atLeast needed).toList := by
  unfold Printed.atLeast
  split_ifs
  · exact tight_group
  · exact h

lemma tight_minus {text : String} (h : Tight text.toList) : Tight ("-" ++ text).toList := by
  rw [String.toList_append]
  exact h.cons (by decide)

lemma tight_intercalate (separator : String) {texts : List String} (hne : texts ≠ [])
    (h : ∀ t ∈ texts, Tight t.toList) : Tight (separator.intercalate texts).toList := by
  induction texts with
  | nil => exact absurd rfl hne
  | cons first more ih =>
    rw [List.forall_mem_cons] at h
    cases more with
    | nil => simpa using h.1
    | cons second more =>
      rw [String.intercalate_cons_cons, String.append_assoc, String.toList_append,
        String.toList_append]
      exact h.1.append ((ih (List.cons_ne_nil _ _) h.2).ends_append _)

lemma tight_application (name : String) (hname : Token.IsName name.toList) (arguments : String) :
    Tight (name ++ "(" ++ arguments ++ ")").toList := by
  rw [String.append_assoc, String.append_assoc, String.toList_append, ← String.append_assoc,
    String.toList_append]
  exact hname.tight.append (tight_closing.ends_append _)

/-- The last term of a sum ends it. -/
lemma ends_laterTerms {ts : List (Expr α)}
    (h : ∀ t ∈ ts, Tight (print (splitSign t).2).text.toList) :
    ∀ c ∈ (String.join (ts.map (laterText print))).toList.getLast?, Text.isBlank c = false := by
  induction ts with
  | nil => simp
  | cons t ts ih =>
    rw [List.forall_mem_cons] at h
    have hterm := (tight_atLeast h.1 .product).ends_append
      (if (splitSign t).1 then " - " else " + ").toList
    rw [← String.toList_append] at hterm
    intro c hc
    rw [List.map_cons, String.join_cons, String.toList_append, List.getLast?_append,
      Option.mem_def, Option.or_eq_some_iff] at hc
    rcases hc with hc | ⟨-, hc⟩
    · exact ih h.2 c hc
    · exact hterm c hc

lemma tight_printSum {ts : List (Expr α)} (hne : ts ≠ [])
    (h : ∀ t ∈ ts, Tight (print (splitSign t).2).text.toList) :
    Tight (printSum print ts).text.toList := by
  obtain ⟨t, ts, rfl⟩ := List.exists_cons_of_ne_nil hne
  rw [List.forall_mem_cons] at h
  have hfirst := tight_atLeast h.1 .product
  have htext : (printSum print (t :: ts)).text = (if (splitSign t).1 then "-" else "") ++
      (print (splitSign t).2).atLeast .product ++ String.join (ts.map (laterText print)) := by
    simp only [printSum, joinTerms, List.map_cons, List.map_map]
    rfl
  rw [htext, String.toList_append]
  refine Tight.append ?_ (ends_laterTerms h.2)
  split_ifs
  · exact tight_minus hfirst
  · simpa using hfirst

variable [Legible α]

lemma tight_printDivisor {e : Expr α} (h : Tight (print e).text.toList) (needed : Precedence) :
    Tight (printDivisor d print needed e).toList := by
  unfold printDivisor
  split
  · exact tight_number _ _
  · exact tight_atLeast h needed

/-- The divisors end a fraction that has any. -/
lemma ends_printBelow {es : List (Expr α)} (h : ∀ e ∈ es, Tight (print e).text.toList) :
    ∀ c ∈ (printBelow d print es).toList.getLast?, Text.isBlank c = false := by
  unfold printBelow
  split
  · simp
  · rw [String.toList_append]
    exact (tight_printDivisor (h _ List.mem_cons_self) .power).ends_append _
  · rw [String.toList_append]
    exact tight_closing.ends_append _

lemma tight_printProduct {fs : List (Expr α)}
    (h : ∀ e ∈ (Fraction.ofFactors fs).above ++ (Fraction.ofFactors fs).below,
      Tight (print e).text.toList) :
    Tight (printProduct d print fs).text.toList := by
  obtain ⟨habove, hbelow⟩ := List.forall_mem_append.mp h
  have hlead : ∀ t ∈ leadText d (Fraction.ofFactors fs), Tight t.toList := by
    unfold leadText
    dsimp only
    split_ifs
    · simpa using tight_number _ _
    · simp
  have hne : leadText d (Fraction.ofFactors fs) ++
      (Fraction.ofFactors fs).above.map (fun e => (print e).atLeast .product) ≠ [] := by
    unfold leadText
    dsimp only
    cases (Fraction.ofFactors fs).above <;> simp
  have hunsigned := (tight_intercalate "*" hne (List.forall_mem_append.mpr ⟨hlead,
    List.forall_mem_map.mpr fun e he => tight_atLeast (habove e he) .product⟩)).append
      (ends_printBelow (d := d) hbelow)
  rw [← String.toList_append] at hunsigned
  unfold printProduct
  by_cases hnegative : Scalar.isNegative (Fraction.ofFactors fs).coefficient = true
  · simp only [if_pos hnegative]
    exact tight_minus hunsigned
  · simp only [if_neg hnegative]
    exact hunsigned

omit [Legible α] in
lemma tight_printPower {b e : Expr α} (hb : Tight (print b).text.toList)
    (he : Tight (print e).text.toList) : Tight (printPower d print b e).text.toList := by
  unfold printPower
  split_ifs
  · exact tight_application "sqrt" (by decide) _
  · cases d with
    | cpp =>
      have hpow := tight_application "pow" (by decide) ((print b).text ++ ", " ++ (print e).text)
      simpa [String.append_assoc] using hpow
    | formula =>
      rw [String.toList_append, String.toList_append, List.append_assoc]
      exact (tight_atLeast hb .atom).append ((tight_atLeast he .atom).ends_append _)

/-- The text of an expression is tight if the texts of its parts are. -/
lemma tight_printWith {e : Expr α} (he : Writable e)
    (h : ∀ p ∈ e.parts, Tight (print p).text.toList) :
    Tight (printWith d print e).text.toList := by
  cases he with
  | number x => exact tight_number x false
  | symbol hs => exact hs.tight
  | constant c => exact (isName_constant d c).tight
  | sum hne _ => exact tight_printSum hne fun t ht => h _ (List.mem_map.mpr ⟨t, ht, rfl⟩)
  | product _ => exact tight_printProduct h
  | @power b e _ _ =>
    rw [parts] at h
    rw [printWith]
    split_ifs at h ⊢
    · exact tight_printProduct h
    · exact tight_printPower (h b (by simp)) (h e (by simp))
  | call _ _ => exact tight_application _ (isName_function d _) _

/-- No blank stands at an end of a printed text. -/
theorem tight_print (d : Dialect) {e : Expr α} (he : Writable e) :
    Tight (e.print d).text.toList :=
  rounds_induction (R := fun rounds e => Tight (printIn d rounds e).text.toList)
    hereditary_writable.of_mem_parts tight_printWith he e.bulk_lt_rounds

end Expr

end EquationCompiler
