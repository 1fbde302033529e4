import EquationCompiler.CommandLine
import EquationCompiler.Proofs.LineByLine
import EquationCompiler.Proofs.NamedExpression
import EquationCompiler.Proofs.PrintedText
import EquationCompiler.Proofs.Reread

/-!
# Listings are documents

A dry run lists the equations as records without substitutions. Such a line is always a
record, and it gives what its text is read as under the parameters. So a listing is a
document without diagnostics, unless a number overflows when a text is read again.
-/
namespace EquationCompiler

open Text (Padded)

variable {α : Type}

namespace Record

lemma name_of_toName {role : NameRole} {cs : List Char} {name : String}
    (h : toName role cs = .ok name) : isName name.toList = true := by
  unfold toName at h
  dsimp only at h
  split_ifs at h with hname
  cases h
  rwa [String.toList_ofList]

/-- The names in a record that is taken from a line can be written again. -/
theorem names_of_split {n : ℕ} {line : List Char} {r : Record} (h : split n line = .ok r) :
    isName r.name.toList = true ∧ r.parameters ≠ [] ∧
      (∀ p ∈ r.parameters, isName p.toList = true) ∧ r.parameters.Nodup := by
  obtain ⟨_, inside, hname, hparameters, hduplicate, -⟩ := split_inv h
  have hpieces := mapM_eq_ok_iff.mp hparameters
  refine ⟨name_of_toName hname, fun hempty => ?_, ?_, (firstDuplicate?_eq_none_iff.mp hduplicate).1⟩
  · rw [hempty, List.forall₂_nil_right_iff] at hpieces
    exact Text.pieces_ne_nil ',' inside hpieces
  · exact forall_mem_of_forall₂ hpieces fun _ _ _ => name_of_toName

/-- A comma and a blank stand between any two parameters. -/
lemma toList_intercalate_parameters (first : String) (more : List String) :
    (", ".intercalate (first :: more)).toList =
      [','].intercalate (first.toList :: more.map fun p => ' ' :: p.toList) := by
  have hblank (text : List Char) (texts : List (List Char)) :
      [','].intercalate ((' ' :: text) :: texts) = ' ' :: [','].intercalate (text :: texts) := by
    cases texts <;> simp [List.intercalate]
  induction more generalizing first with
  | nil => simp [List.intercalate]
  | cons second more ih =>
    rw [String.intercalate_cons_cons, String.toList_append, ih, List.map_cons,
      Text.intercalate_cons_cons, hblank]
    simp

lemma writesHead_signature {r : Record} (hne : r.parameters ≠ []) :
    WritesHead r.name r.parameters r.signature.toList := by
  obtain ⟨first, more, hparameters⟩ := List.exists_cons_of_ne_nil hne
  refine ⟨r.name.toList, first.toList :: more.map (fun p => ' ' :: p.toList), .refl _ _, ?_, ?_⟩
  · rw [hparameters]
    refine .cons (.refl _ _) (List.forall₂_map_right_iff.mpr (List.forall₂_same.mpr ?_))
    exact fun p _ => (Padded.refl _ _).append_left Shape.isBlank_space
  · rw [signature, hparameters, String.toList_append, String.toList_append, String.toList_append,
      toList_intercalate_parameters]
    simp

/-- A record without substitutions on a line with single blanks. -/
def line (r : Record) : List Char := plain r.signature.toList r.expression.toList

section
variable {r : Record} (hr : r.Writable)
include hr

/-- The line of a record is read as this record. -/
theorem split_classify_line (hsubs : r.substitutions = []) (hcomment : '#' ∉ r.line) :
    ∃ text, Line.classify r.line = .record text ∧ split r.lineNumber text = .ok r := by
  have hwrites : r.Writes r.line := by
    refine ⟨r.signature.toList, [' '], ' ' :: r.expression.toList,
      writesHead_signature hr.parameters_ne_nil, ?_, ?_, by simp [line, plain]⟩
    · rw [hsubs]
      exact .missing Shape.isBlank_space
    · exact (Padded.refl _ _).append_left fun c hc => Shape.isBlank_text (Shape.isBlank_space c hc)
  obtain ⟨text, hclassify, hsplit⟩ := split_classify_of_writes hr hwrites (.inl rfl)
  rw [List.append_nil, Comment.escape_of_not_mem hcomment] at hclassify
  exact ⟨text, hclassify, hsplit⟩

lemma not_mem_line {c : Char} (hc : Shape.isNameChar c = false) (hblank : Shape.isBlank c = false)
    (hseparator : c ∉ ['(', ',', ')', '=']) (hexpression : c ∉ r.expression.toList) :
    c ∉ r.line := by
  simp only [List.mem_cons, List.not_mem_nil, or_false, not_or] at hseparator
  have hhead : c ∉ r.signature.toList :=
    not_mem_of_writesHead hr.name hr.parameters (writesHead_signature hr.parameters_ne_nil) hc
      hblank (by simp [hseparator])
  have hspace : c ≠ ' ' := by
    rintro rfl
    cases hblank
  simp [line, plain, hhead, hexpression, hspace, hseparator]

end

end Record

namespace Equation

/-- The equation as a record without substitutions. -/
def toRecord [Numeral α] (n : ℕ) (e : Equation α) : Record :=
  ⟨n, e.name, e.parameters, [], e.expression.toFormula⟩

/-- The equation on a line of its own, whatever the number of the line. -/
def line [Numeral α] (e : Equation α) : List Char := (e.toRecord 0).line

variable [Numeral α]

lemma line_toRecord (n : ℕ) (e : Equation α) : (e.toRecord n).line = e.line := rfl

lemma exists_resolve_of_record {m : ℕ} {text : List Char} {e : Equation α}
    (h : Entry.ofRecord m text = .ok e) :
    ∃ r : Record, Record.split m text = .ok r ∧ resolve r = .ok e := by
  rw [Entry.ofRecord] at h
  split at h
  · next r hsplit => exact ⟨r, hsplit, h⟩
  · cases h

/-- The failure of an equation whose text is not read again, or not as an expression of finite
numbers. -/
def refusal? (e : Equation α) : Option Failure :=
  match e.reread with
  | .ok again => again.nonFinite?.map fun x =>
    .uncompilable e.name e.expression.toFormula (.nonFinite (Numeral.text x))
  | .error fault => some (.uncompilable e.name e.expression.toFormula fault)

/-- What the record of an equation gives. -/
theorem resolve_toRecord (e : Equation α) (n : ℕ) :
    (∃ again, e.reread = .ok again ∧ e.refusal? = none ∧
      resolve (e.toRecord n) = .ok ⟨n, e.name, e.parameters, [], again⟩) ∨
    ∃ cause, e.refusal? = some cause ∧
      (resolve (e.toRecord n) : Except Failure (Equation α)) = .error cause := by
  rw [refusal?]
  cases h : e.reread with
  | error fault =>
    rw [reread] at h
    refine .inr ⟨_, rfl, ?_⟩
    simp [resolve, toRecord, compile, h, bind, Except.bind]
  | ok again =>
    rw [reread] at h
    simp only [resolve, toRecord, compile, List.map_nil, List.append_nil, h, bind, Except.bind,
      List.reverse_nil, List.foldlM_nil, pure, Except.pure]
    cases again.nonFinite? with
    | none => exact .inl ⟨again, rfl, rfl, rfl⟩
    | some x => exact .inr ⟨_, rfl, rfl⟩

section
variable [Legible α] {m : ℕ} {text : List Char} {e : Equation α}
  (h : Entry.ofRecord m text = .ok e)
include h

theorem writable_toRecord (n : ℕ) : (e.toRecord n).Writable := by
  obtain ⟨r, hsplit, hresolve⟩ := exists_resolve_of_record h
  have htight := Expr.tight_print .formula (writable_resolve hresolve)
  obtain ⟨_, _, -, -, -, rfl⟩ := resolve_inv hresolve
  obtain ⟨hname, hne, hparameters, hnodup⟩ := Record.names_of_split hsplit
  exact ⟨hname, hne, hparameters, hnodup, nofun, htight.ne_nil, htight.trim_eq⟩

/-- Nothing in the line starts a comment or ends the line. -/
lemma not_mem_line : '#' ∉ e.line ∧ '\n' ∉ e.line := by
  have hwritable := writable_toRecord h 0
  obtain ⟨r, -, hresolve⟩ := exists_resolve_of_record h
  obtain ⟨ts, hcuts, -⟩ := Formula.read_eq_ok_iff.mp
    (Expr.read_print .formula (writable_resolve hresolve))
  have hexpression {c : Char} (hc : ¬Token.IsFormulaChar c) :
      c ∉ (e.toRecord 0).expression.toList := fun hmem => hc (hcuts.isFormulaChar c hmem)
  constructor
  all_goals
    exact Record.not_mem_line hwritable (by decide) (by decide) (by decide)
      (hexpression (by decide))

/-- The expression ends the line, and no blank ends the expression. -/
lemma getLast?_line : e.line.getLast? ≠ some '\r' := by
  obtain ⟨r, -, hresolve⟩ := exists_resolve_of_record h
  have htight := Expr.tight_print .formula (writable_resolve hresolve)
  intro hlast
  have hblank : Text.isBlank '\r' = false := htight.ends_append _ _ hlast
  exact absurd hblank (by decide)

/-- The line is read as the record of the equation. -/
theorem ofLine?_line (n : ℕ) :
    Entry.ofLine? n e.line =
      some (match (resolve (e.toRecord n) : Except Failure (Equation α)) with
        | .ok f => .equation f
        | .error cause => .failed n cause) := by
  have hcomment := (not_mem_line h).1
  rw [← line_toRecord n] at hcomment ⊢
  obtain ⟨text, hclassify, hsplit⟩ :=
    Record.split_classify_line (writable_toRecord h n) rfl hcomment
  have hrecord : (Entry.ofRecord n text : Except Failure (Equation α)) =
      resolve (e.toRecord n) := by
    have hsplit : Record.split n text = .ok (e.toRecord n) := hsplit
    rw [Entry.ofRecord, hsplit]
  rw [Entry.ofLine?, hclassify]
  dsimp only
  rw [hrecord]
  cases (resolve (e.toRecord n) : Except Failure (Equation α)) <;> rfl

end

end Equation

/-- What a dry run writes about the equations. -/
def Report.listing [Numeral α] (report : Report α) : String :=
  String.join (report.equations.map Result.listingLine)

theorem Result.output_dryRun [Numeral α] (outcome : Outcome α) :
    (ofOutcome true outcome).output = outcome.report.listing := rfl

/-- The second equation is what the text of the first one says on a line of its own. The only free
symbols in it that are new are names that the text has for numbers that are not finite. -/
structure Equation.ReadsAs [Numeral α] (e f : Equation α) : Prop where
  name : f.name = e.name
  parameters : f.parameters = e.parameters
  substitutions : f.substitutions = []
  expression : e.reread = .ok f.expression
  freeSymbols : ∀ s ∈ f.expression.freeSymbols, s ∈ e.expression.freeSymbols ∨
    s ∈ nonFiniteNames ∧ .name s ∈ Token.tokens e.expression.toFormula.toList

/-- What the line of an equation in a listing gives: the equation as it is read again, or the
failure. -/
inductive Equation.Relists [Numeral α] (e : Equation α) : Entry α → Prop
  | equation {f : Equation α} (hrefusal : e.refusal? = none) (h : e.ReadsAs f) :
    Relists e (.equation f)
  | failed {n : ℕ} {cause : Failure} (hrefusal : e.refusal? = some cause) :
    Relists e (.failed n cause)

section
variable [Numeral α] [Legible α] {es : List (Equation α)}
  (hes : ∀ e ∈ es, ∃ m text, Entry.ofRecord m text = .ok e)
include hes

/-- The lines of a listing are those of the equations. -/
lemma Text.lines_listing :
    lines (String.join (es.map Result.listingLine)).toList = es.map Equation.line := by
  induction es with
  | nil => rfl
  | cons e es ih =>
    rw [List.forall_mem_cons] at hes
    obtain ⟨⟨m, text, he⟩, hes⟩ := hes
    have hline : (Result.listingLine e).toList = e.line ++ ['\n'] := by
      simp [Result.listingLine, Equation.line, Equation.toRecord, Record.line, Record.plain,
        Record.signature]
    rw [List.map_cons, String.join_cons, String.toList_append, hline, List.append_assoc,
      List.singleton_append, lines_cons (Equation.not_mem_line he).2 (Equation.getLast?_line he),
      ih hes, List.map_cons]

/-- Every line of a listing is that of a record. -/
theorem Entry.ofLines_listing (hread : ∀ e ∈ es, ∀ again, e.reread = .ok again →
      ∀ s ∈ again.symbols, s ∈ e.expression.symbols ∨ s ∈ nonFiniteNames) (n : ℕ) :
    List.Forall₂ Equation.Relists es (ofLines n (es.map Equation.line)) := by
  induction es generalizing n with
  | nil => exact .nil
  | cons e es ih =>
    rw [List.forall_mem_cons] at hes hread
    obtain ⟨⟨m, text, he⟩, hes⟩ := hes
    have hline := Equation.ofLine?_line he n
    rw [List.map_cons, ofLines, hline]
    obtain ⟨again, hagain, hrefusal, hresolve⟩ | ⟨cause, hrefusal, hresolve⟩ :=
      e.resolve_toRecord n
    · rw [hresolve]
      refine .cons (.equation hrefusal ⟨rfl, rfl, rfl, hagain, fun s hs => ?_⟩)
        (ih hes hread.2 (n + 1))
      rw [Expr.mem_freeSymbols] at hs ⊢
      exact (hread.1 again hagain s hs).imp_right fun hname =>
        ⟨hname, name_mem_tokens_of_parse hagain s hs⟩
    · rw [hresolve]
      exact .cons (.failed hrefusal) (ih hes hread.2 (n + 1))

end

namespace Report
section
variable [Numeral α] {es : List (Equation α)} {entries : List (Entry α)}
  (h : List.Forall₂ Equation.Relists es entries)
include h

lemma findSome?_relists : entries.findSome? Entry.failure? = es.findSome? Equation.refusal? := by
  induction h with
  | nil => rfl
  | cons hentry _ ih =>
    rw [List.findSome?_cons, List.findSome?_cons, ih]
    cases hentry with
    | equation hrefusal _ =>
      rw [hrefusal]
      rfl
    | failed hrefusal =>
      rw [hrefusal]
      rfl

lemma equations_relists :
    List.Forall₂ Equation.ReadsAs (es.filter fun e => e.refusal?.isNone)
      (ofEntries entries).equations := by
  induction h with
  | nil => exact .nil
  | cons hentry _ ih =>
    cases hentry with
    | equation hrefusal hreads =>
      rw [List.filter_cons_of_pos (by simp [hrefusal])]
      exact .cons hreads ih
    | failed hrefusal =>
      rw [List.filter_cons_of_neg (by simp [hrefusal])]
      exact ih

lemma diagnostics_relists :
    (ofEntries entries).diagnostics.map Diagnostic.cause? =
      (es.filterMap Equation.refusal?).map some := by
  induction h with
  | nil => rfl
  | cons hentry _ ih =>
    cases hentry with
    | equation hrefusal _ =>
      rw [List.filterMap_cons_none hrefusal]
      exact ih
    | failed hrefusal =>
      rw [List.filterMap_cons_some hrefusal, List.map_cons, ← ih]
      rfl

end

section
variable {policy : Policy} {document : String} {e : Equation Float}

/-- Every equation of a report is the one of a record. -/
lemma exists_ofRecord [Numeral α] {report : Report α} {e : Equation α}
    (h : process policy document = .ok report) (he : e ∈ report.equations) :
    ∃ m text, Entry.ofRecord m text = .ok e := by
  rw [← (process_eq_ok.mp h).1, mem_equations, Entry.mem_ofLines] at he
  obtain ⟨i, raw, -, hline⟩ := he
  obtain ⟨text, -, hrecord⟩ := Entry.ofLine?_eq_equation.mp hline
  exact ⟨1 + i, text, hrecord⟩

variable {report : Report Float} (h : process policy document = .ok report)
  (he : e ∈ report.equations)
include h he

lemma reread_of_mem :
    (¬e.ShadowsRoot → ∃ again, e.reread = .ok again ∧
      ∀ s ∈ again.symbols, s ∈ e.expression.symbols ∨ s ∈ nonFiniteNames) ∧
    (e.ShadowsRoot → e.reread = .error (.notCallable "sqrt")) := by
  obtain ⟨m, text, hrecord⟩ := exists_ofRecord h he
  obtain ⟨r, -, hresolve⟩ := Equation.exists_resolve_of_record hrecord
  exact Equation.reread_resolve hresolve

lemma symbols_reread {again : Expr Float} (hagain : e.reread = .ok again) :
    ∀ s ∈ again.symbols, s ∈ e.expression.symbols ∨ s ∈ nonFiniteNames := by
  by_cases hroot : e.ShadowsRoot
  · rw [(reread_of_mem h he).2 hroot] at hagain
    cases hagain
  · obtain ⟨_, hok, hsymbols⟩ := (reread_of_mem h he).1 hroot
    obtain rfl := Except.ok.inj (hok.symm.trans hagain)
    exact hsymbols

end

/-- The listing of a report is a document with one record for every equation. With best effort it
gives the equations that are not refused with their names and parameters, in order, and with no new
free symbols but the names of numbers that are not finite, and its diagnostics are the refusals.
Without a refusal it is processed under either policy; otherwise the first refusal ends a run that
aborts. An equation is refused if it calls a square root that one of its parameters shadows, and
otherwise if and only if a number overflows when its text is read again. -/
theorem listing_rereads {policy : Policy} {document : String} {report : Report Float}
    (h : process policy document = .ok report) :
    (∃ relisted, process .bestEffort report.listing = .ok relisted ∧
      List.Forall₂ Equation.ReadsAs (report.equations.filter fun e => e.refusal?.isNone)
        relisted.equations ∧
      relisted.diagnostics.map Diagnostic.cause? =
        (report.equations.filterMap Equation.refusal?).map some ∧
      ((∀ e ∈ report.equations, e.refusal? = none) →
        process .abort report.listing = .ok relisted ∧ relisted.diagnostics = [] ∧
          List.Forall₂ Equation.ReadsAs report.equations relisted.equations)) ∧
    (∀ cause, report.equations.findSome? Equation.refusal? = some cause →
      (process .abort report.listing : Except Failure (Report Float)) = .error cause) ∧
    ∀ e ∈ report.equations,
      (e.ShadowsRoot → e.refusal? =
        some (.uncompilable e.name e.expression.toFormula (.notCallable "sqrt"))) ∧
      (¬e.ShadowsRoot → ∃ again, e.reread = .ok again ∧ e.refusal? = again.nonFinite?.map fun x =>
        .uncompilable e.name e.expression.toFormula (.nonFinite (Numeral.text x))) := by
  have hrecords : ∀ e ∈ report.equations, ∃ m text, Entry.ofRecord m text = .ok e :=
    fun e he => exists_ofRecord h he
  have hsymbols : ∀ e ∈ report.equations, ∀ again, e.reread = .ok again →
      ∀ s ∈ again.symbols, s ∈ e.expression.symbols ∨ s ∈ nonFiniteNames :=
    fun e he again => symbols_reread h he
  have hrelists := Entry.ofLines_listing hrecords hsymbols 1
  rw [process_bestEffort, process_abort, listing, Text.lines_listing hrecords,
    findSome?_relists hrelists]
  have hequations := equations_relists hrelists
  have hdiagnostics := diagnostics_relists hrelists
  refine ⟨⟨_, rfl, hequations, hdiagnostics, fun hnone => ?_⟩, fun cause hcause => ?_,
    fun e he => ⟨fun hroot => ?_, fun hroot => ?_⟩⟩
  · rw [List.filter_eq_self.mpr fun e he => by rw [hnone e he]; rfl] at hequations
    rw [List.filterMap_eq_nil_iff.mpr hnone, List.map_nil, List.map_eq_nil_iff] at hdiagnostics
    rw [List.findSome?_eq_none_iff.mpr hnone]
    exact ⟨rfl, hdiagnostics, hequations⟩
  · rw [hcause]
  · rw [Equation.refusal?, (reread_of_mem h he).2 hroot]
  · obtain ⟨again, hagain, -⟩ := (reread_of_mem h he).1 hroot
    exact ⟨again, hagain, by rw [Equation.refusal?, hagain]⟩

/-- A parameter with the name of the square root, in an equation that calls no root, next to a root
that is called where no parameter has its name; and an equation that calls the root it shadows. -/
theorem listing_rereads_root :
    (∃ report relisted : Report Float,
      process .abort "f(x, sqrt) = 2*x + sqrt\ng(y) [z = y**0.5] = a/z - b\n" = .ok report ∧
      report.listing = "f(x, sqrt) = 2*x + sqrt\ng(y) = a/sqrt(y) - b\n" ∧
      process .abort report.listing = .ok relisted ∧ relisted.diagnostics = [] ∧
      List.Forall₂ Equation.ReadsAs report.equations relisted.equations) ∧
    ∃ report : Report Float,
      process .abort "f(sqrt, x) = sqrt + x**0.5\n" = .ok report ∧ report.diagnostics = [] ∧
      report.listing = "f(sqrt, x) = sqrt + sqrt(x)\n" ∧
      (process .abort report.listing : Except Failure (Report Float)) =
        .error (.uncompilable "f" "sqrt + sqrt(x)" (.notCallable "sqrt")) := by
  constructor
  · let report : Report Float := ofEntries (Entry.ofLines 1 (Text.lines
      "f(x, sqrt) = 2*x + sqrt\ng(y) [z = y**0.5] = a/z - b\n".toList))
    have hprocess : process .abort "f(x, sqrt) = 2*x + sqrt\ng(y) [z = y**0.5] = a/z - b\n" =
        .ok report := process_eq_ok.mpr ⟨rfl, fun _ => by decide +kernel⟩
    have hkept : ∀ e ∈ report.equations, e.refusal? = none := by decide +kernel
    obtain ⟨⟨relisted, -, -, -, hrelisted⟩, -⟩ := listing_rereads hprocess
    exact ⟨report, relisted, hprocess, by decide +kernel, hrelisted hkept⟩
  · let report : Report Float :=
      ofEntries (Entry.ofLines 1 (Text.lines "f(sqrt, x) = sqrt + x**0.5\n".toList))
    have hprocess : process .abort "f(sqrt, x) = sqrt + x**0.5\n" = .ok report :=
      process_eq_ok.mpr ⟨rfl, fun _ => by decide +kernel⟩
    have hrefused : report.equations.findSome? Equation.refusal? =
        some (.uncompilable "f" "sqrt + sqrt(x)" (.notCallable "sqrt")) := by decide +kernel
    obtain ⟨-, hfails, -⟩ := listing_rereads hprocess
    exact ⟨report, hprocess, by decide +kernel, by decide +kernel, hfails _ hrefused⟩

end Report

end EquationCompiler
