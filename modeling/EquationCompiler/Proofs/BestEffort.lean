import EquationCompiler.Number.Machine
import EquationCompiler.Proofs.BuiltinTemplates
import EquationCompiler.Proofs.Entries
import EquationCompiler.Proofs.ResolveValue

/-!
# Best-effort runs

A best-effort report accounts for every line of its document, and what its
equations say is finite. Their derivatives need not be: they are taken only for
the artifacts, which is too late for a diagnostic.
-/
namespace EquationCompiler

variable {α : Type} [Numeral α]

/-- What the names in a record come from. -/
theorem Record.split_inv {n : Nat} {line : List Char} {r : Record} (h : split n line = .ok r) :
    ∃ name parameters, toName .function name = .ok r.name ∧
      (Text.pieces ',' parameters).mapM (toName .parameter) = .ok r.parameters ∧
      firstDuplicate? [] r.parameters = none ∧ r.lineNumber = n := by
  obtain ⟨⟨line, block⟩, -, h⟩ := Formula.bind_eq_ok.mp h
  dsimp only at h
  -- Every fault ends the computation, so one branch is left at each test.
  split at h
  case h_2 => cases h
  split at h
  case h_2 => cases h
  obtain ⟨name, hname, h⟩ := Formula.bind_eq_ok.mp h
  split at h
  case h_2 => cases h
  obtain ⟨parameters, hparameters, h⟩ := Formula.bind_eq_ok.mp h
  split at h
  case h_1 => cases h
  next hduplicate =>
    split at h
    case isTrue => cases h
    split at h
    all_goals
      obtain ⟨substitutions, -, h⟩ := Formula.bind_eq_ok.mp h
      cases h
      exact ⟨_, _, hname, hparameters, Option.eq_none_iff_forall_ne_some.mpr hduplicate, rfl⟩

theorem Record.lineNumber_of_split {n : Nat} {line : List Char} {r : Record}
    (h : split n line = .ok r) : r.lineNumber = n := by
  obtain ⟨_, _, -, -, -, hnumber⟩ := split_inv h
  exact hnumber

/-- An equation keeps the number of its line, and its expression is finite. -/
theorem Equation.of_resolve {r : Record} {e : Equation α} (h : resolve r = .ok e) :
    e.lineNumber = r.lineNumber ∧ e.expression.nonFinite? = none := by
  obtain ⟨_, done, -, -, hfinite, rfl⟩ := resolve_inv h
  exact ⟨rfl, hfinite⟩

theorem Equation.of_record {n : Nat} {text : List Char} {e : Equation α}
    (h : Entry.ofRecord n text = .ok e) :
    e.lineNumber = n ∧ e.expression.nonFinite? = none := by
  rw [Entry.ofRecord] at h
  split at h
  · next r hsplit =>
    obtain ⟨hnumber, hfinite⟩ := Equation.of_resolve h
    exact ⟨hnumber.trans (Record.lineNumber_of_split hsplit), hfinite⟩
  · cases h

namespace Entry

theorem lineNumber_of_ofLine? {n : Nat} {raw : List Char} {entry : Entry α}
    (h : ofLine? n raw = some entry) : entry.lineNumber = n := by
  cases entry with
  | equation e =>
    obtain ⟨text, -, hrecord⟩ := ofLine?_eq_equation.mp h
    exact (Equation.of_record hrecord).1
  | skipped m text => exact (ofLine?_eq_skipped.mp h).1.symm
  | failed m cause => exact (ofLine?_eq_failed.mp h).1.symm

/-- The entries have the numbers of different lines, in order. -/
theorem ofLines_ascend (n : Nat) (lines : List (List Char)) :
    (ofLines n lines : List (Entry α)).Pairwise fun a b => a.lineNumber < b.lineNumber := by
  induction lines generalizing n with
  | nil => exact .nil
  | cons first rest ih =>
    rw [ofLines, List.pairwise_append]
    refine ⟨?_, ih (n + 1), fun a ha b hb => ?_⟩
    · cases (ofLine? n first : Option (Entry α)) <;> simp
    · obtain ⟨i, raw, -, h⟩ := mem_ofLines.mp hb
      rw [lineNumber_of_ofLine? (Option.mem_toList.mp ha), lineNumber_of_ofLine? h]
      omega

end Entry

/-- The line of a document with the given number, counted from one. -/
def Line.At (document : String) (n : Nat) (line : Line) : Prop :=
  ∃ i raw, (Text.lines document.toList)[i]? = some raw ∧ 1 + i = n ∧ Line.classify raw = line

/-- The report has the equation of every record that gives one, a diagnostic for every other record
and for every line that is skipped, and nothing else, all in the order of lines. -/
structure Report.Covers (report : Report α) (document : String) : Prop where
  equation_iff (e : Equation α) : e ∈ report.equations ↔
    ∃ n text, Line.At document n (.record text) ∧ Entry.ofRecord n text = .ok e
  rejected_iff (n : Nat) (cause : Failure) : .rejected n cause ∈ report.diagnostics ↔
    ∃ text, Line.At document n (.record text) ∧
      (Entry.ofRecord n text : Except Failure (Equation α)) = .error cause
  skipped_iff (n : Nat) (text : String) : .skipped n text ∈ report.diagnostics ↔
    ∃ cs, Line.At document n (.skipped cs) ∧ text = String.ofList cs
  rejected_isRecordLevel (n : Nat) (cause : Failure) :
    .rejected n cause ∈ report.diagnostics → cause.isRecordLevel = true
  equations_ascend : report.equations.Pairwise fun d e => d.lineNumber < e.lineNumber
  diagnostics_ascend : report.diagnostics.Pairwise fun d e => d.lineNumber < e.lineNumber

theorem Report.covers_ofEntries (document : String) :
    (ofEntries (Entry.ofLines 1 (Text.lines document.toList)) : Report α).Covers document := by
  have hascend := Entry.ofLines_ascend (α := α) 1 (Text.lines document.toList)
  have hrejected (n : Nat) (cause : Failure) :
      .rejected n cause ∈ (ofEntries (Entry.ofLines 1 (Text.lines document.toList)) :
        Report α).diagnostics ↔
      ∃ text, Line.At document n (.record text) ∧
        (Entry.ofRecord n text : Except Failure (Equation α)) = .error cause := by
    rw [mem_diagnostics_rejected, Entry.mem_ofLines]
    simp only [Entry.ofLine?_eq_failed, Line.At]
    constructor
    · rintro ⟨i, raw, hraw, rfl, text, htext, h⟩
      exact ⟨text, ⟨i, raw, hraw, rfl, htext⟩, h⟩
    · rintro ⟨text, ⟨i, raw, hraw, rfl, htext⟩, h⟩
      exact ⟨i, raw, hraw, rfl, text, htext, h⟩
  refine ⟨fun e => ?_, hrejected, fun n text => ?_, fun n cause h => ?_, ?_, ?_⟩
  · rw [mem_equations, Entry.mem_ofLines]
    simp only [Entry.ofLine?_eq_equation, Line.At]
    constructor
    · rintro ⟨i, raw, hraw, text, htext, h⟩
      exact ⟨1 + i, text, ⟨i, raw, hraw, rfl, htext⟩, h⟩
    · rintro ⟨_, text, ⟨i, raw, hraw, rfl, htext⟩, h⟩
      exact ⟨i, raw, hraw, text, htext, h⟩
  · rw [mem_diagnostics_skipped, Entry.mem_ofLines]
    simp only [Entry.ofLine?_eq_skipped, Line.At]
    constructor
    · rintro ⟨i, raw, hraw, rfl, cs, hcs, rfl⟩
      exact ⟨cs, ⟨i, raw, hraw, rfl, hcs⟩, rfl⟩
    · rintro ⟨cs, ⟨i, raw, hraw, rfl, hcs⟩, rfl⟩
      exact ⟨i, raw, hraw, rfl, cs, hcs, rfl⟩
  · obtain ⟨text, -, hrecord⟩ := (hrejected n cause).mp h
    exact Entry.confined_ofRecord n text cause hrecord
  · refine hascend.filterMap _ fun a b hab d hd e he => ?_
    rw [Entry.equation?_eq_some.mp hd, Entry.equation?_eq_some.mp he] at hab
    exact hab
  · refine hascend.filterMap _ fun a b hab d hd e he => ?_
    rwa [Entry.lineNumber_of_diagnostic? hd, Entry.lineNumber_of_diagnostic? he] at hab

/-- An equation with the C++ texts of its expression and of its derivatives. -/
def Equation.view (index : Nat) (e : Equation α) : EquationView where
  index := index
  name := e.name
  parameters := e.parameters
  expression := (e.expression.print .cpp).text
  gradient := e.gradient.map fun d => (d.print .cpp).text

/-- The failure of an expression that cannot be written, for a number that is not finite. -/
def Unwritable (function : String) (e : Expr α) (cause : Failure) : Prop :=
  ∃ x, e.nonFinite? = some x ∧
    cause = .uncompilable function e.toFormula (.nonFinite (Numeral.text x))

namespace EquationView

theorem cppText_of_finite {function : String} {e : Expr α} (h : e.nonFinite? = none) :
    cppText function e = .ok (e.print .cpp).text := by
  rw [cppText, Expr.toCpp, h]

theorem cppText_of_nonFinite {function : String} {e : Expr α} {x : α}
    (h : e.nonFinite? = some x) :
    ∃ cause, Unwritable function e cause ∧ cppText function e = .error cause :=
  ⟨_, ⟨x, h, rfl⟩, by rw [cppText, Expr.toCpp, h]⟩

/-- Either all expressions are written, or the first that cannot be is the failure. -/
theorem mapM_cppText (function : String) (es : List (Expr α)) :
    (∀ e ∈ es, e.nonFinite? = none) ∧
        es.mapM (cppText function) = .ok (es.map fun e => (e.print .cpp).text) ∨
      ∃ e ∈ es, ∃ cause, Unwritable function e cause ∧
        es.mapM (cppText function) = .error cause := by
  induction es with
  | nil => exact .inl ⟨nofun, rfl⟩
  | cons e es ih =>
    rw [List.mapM_cons]
    cases hfinite : e.nonFinite? with
    | some x =>
      obtain ⟨cause, hcause, htext⟩ := cppText_of_nonFinite hfinite
      exact .inr ⟨e, List.mem_cons_self, cause, hcause, by rw [htext]; rfl⟩
    | none =>
      rw [cppText_of_finite hfinite]
      obtain ⟨hes, htexts⟩ | ⟨d, hd, cause, hcause, htexts⟩ := ih
      · exact .inl ⟨List.forall_mem_cons.mpr ⟨hfinite, hes⟩, by rw [htexts]; rfl⟩
      · exact .inr ⟨d, List.mem_cons_of_mem _ hd, cause, hcause, by rw [htexts]; rfl⟩

theorem ofEquation_of_finite (index : Nat) {e : Equation α} (h : e.expression.nonFinite? = none) :
    (∀ d ∈ e.gradient, d.nonFinite? = none) ∧ ofEquation index e = .ok (e.view index) ∨
      ∃ d ∈ e.gradient, ∃ cause, Unwritable e.name d cause ∧
        ofEquation index e = .error cause := by
  rw [ofEquation, cppText_of_finite h]
  obtain ⟨hgradient, htexts⟩ | ⟨d, hd, cause, hcause, htexts⟩ := mapM_cppText e.name e.gradient
  · exact .inl ⟨hgradient, by rw [htexts]; rfl⟩
  · exact .inr ⟨d, hd, cause, hcause, by rw [htexts]; rfl⟩

theorem ofEquations_of_finite (index : Nat) {es : List (Equation α)}
    (h : ∀ e ∈ es, e.expression.nonFinite? = none) :
    (∀ e ∈ es, ∀ d ∈ e.gradient, d.nonFinite? = none) ∧
        ofEquations index es = .ok (es.mapIdx fun i e => e.view (index + i)) ∨
      ∃ e ∈ es, ∃ d ∈ e.gradient, ∃ cause, Unwritable e.name d cause ∧
        ofEquations index es = .error cause := by
  induction es generalizing index with
  | nil => exact .inl ⟨nofun, rfl⟩
  | cons e es ih =>
    obtain ⟨he, hes⟩ := List.forall_mem_cons.mp h
    rw [ofEquations]
    obtain ⟨hgradient, hview⟩ | ⟨d, hd, cause, hcause, hview⟩ := ofEquation_of_finite index he
    · rw [hview]
      obtain ⟨hgradients, hviews⟩ | ⟨f, hf, d, hd, cause, hcause, hviews⟩ := ih (index + 1) hes
      · refine .inl ⟨List.forall_mem_cons.mpr ⟨hgradient, hgradients⟩, ?_⟩
        rw [hviews, List.mapIdx_cons]
        simp only [Nat.add_zero, Nat.add_assoc, Nat.add_comm 1]
        rfl
      · exact .inr ⟨f, List.mem_cons_of_mem _ hf, d, hd, cause, hcause, by rw [hviews]; rfl⟩
    · exact .inr ⟨e, List.mem_cons_self, d, hd, cause, hcause, by rw [hview]; rfl⟩

end EquationView

/-- With the built-in templates nothing but a derivative that is not finite can keep equations
with finite expressions from being rendered. -/
theorem Artifacts.render_of_finite (options : RenderOptions) {es : List (Equation α)}
    (h : ∀ e ∈ es, e.expression.nonFinite? = none) :
    (∀ e ∈ es, ∀ d ∈ e.gradient, d.nonFinite? = none) ∧
        (∃ artifacts, render {} options es = .ok artifacts ∧
          artifacts.Emits (es.mapIdx Equation.view)) ∨
      ∃ e ∈ es, ∃ d ∈ e.gradient, ∃ cause, Unwritable e.name d cause ∧
        render {} options es = .error cause := by
  rw [render]
  obtain ⟨hgradients, hviews⟩ | ⟨e, he, d, hd, cause, hcause, hviews⟩ :=
    EquationView.ofEquations_of_finite 0 h
  · simp only [Nat.zero_add] at hviews
    have hindex : ∀ i (hi : i < (es.mapIdx Equation.view).length),
        (es.mapIdx Equation.view)[i].index = i := by
      simp [Equation.view]
    obtain ⟨artifacts, hemits, hdeclarations, hdefinitions⟩ :=
      exists_render_builtin options hindex
    refine .inl ⟨hgradients, artifacts, ?_, hemits⟩
    rw [hviews]
    simp only [bind, Except.bind, hdeclarations, hdefinitions]
    rfl
  · exact .inr ⟨e, he, d, hd, cause, hcause, by rw [hviews]; rfl⟩

/-- A best-effort report covers its document, whatever is wrong in it. Its artifacts are rendered,
with all of its equations, if every derivative is finite. If some derivative is not, rendering
fails, and with a failure that belongs to one of the records. -/
theorem Report.bestEffort_renders (document : String) (options : RenderOptions) :
    ∃ report : Report α, process .bestEffort document = .ok report ∧ report.Covers document ∧
      ((∀ e ∈ report.equations, ∀ d ∈ e.gradient, d.nonFinite? = none) →
        ∃ artifacts, Artifacts.render {} options report.equations = .ok artifacts ∧
          artifacts.Emits (report.equations.mapIdx Equation.view)) ∧
      ((∃ e ∈ report.equations, ∃ d ∈ e.gradient, d.nonFinite? ≠ none) →
        ∃ e ∈ report.equations, ∃ d ∈ e.gradient, ∃ x, d.nonFinite? = some x ∧
          Artifacts.render {} options report.equations =
            .error (.uncompilable e.name d.toFormula (.nonFinite (Numeral.text x)))) := by
  have hcovers := covers_ofEntries (α := α) document
  have hexpressions : ∀ e ∈ (ofEntries (Entry.ofLines 1 (Text.lines document.toList))).equations,
      (e : Equation α).expression.nonFinite? = none := by
    intro e he
    obtain ⟨n, text, -, hrecord⟩ := (hcovers.equation_iff e).mp he
    exact (Equation.of_record hrecord).2
  refine ⟨_, process_bestEffort document, hcovers, ?_⟩
  obtain ⟨hgradients, hrender⟩ | ⟨e, he, d, hd, _, ⟨x, hx, rfl⟩, hrender⟩ :=
    Artifacts.render_of_finite options hexpressions
  · refine ⟨fun _ => hrender, ?_⟩
    rintro ⟨e, he, d, hd, hinfinite⟩
    exact absurd (hgradients e he d hd) hinfinite
  · refine ⟨fun h => ?_, fun _ => ⟨e, he, d, hd, x, hx, hrender⟩⟩
    rw [h e he d hd] at hx
    cases hx

/-- A finite expression whose derivative overflows: no record is rejected, and no record is emitted,
not even the one without a fault. -/
theorem Report.bestEffort_renders_overflow :
    ∃ report : Report Float,
      process .bestEffort "f(x) = 1e308*x**2\ng(a) = a\n" = .ok report ∧
      report.equations.map (·.name) = ["f", "g"] ∧ report.diagnostics = [] ∧
      ∀ options, ∃ function text value, Artifacts.render {} options report.equations =
        .error (.uncompilable function text (.nonFinite value)) := by
  let report : Report Float :=
    ofEntries (Entry.ofLines 1 (Text.lines "f(x) = 1e308*x**2\ng(a) = a\n".toList))
  have hprocess : process .bestEffort "f(x) = 1e308*x**2\ng(a) = a\n" = .ok report :=
    process_bestEffort _
  have hoverflow : (report.equations.any fun e =>
      e.gradient.any fun d => d.nonFinite?.isSome) = true := by decide +kernel
  refine ⟨report, hprocess, by decide +kernel, by decide +kernel, fun options => ?_⟩
  obtain ⟨report', hreport, -, -, hfails⟩ := bestEffort_renders (α := Float)
    "f(x) = 1e308*x**2\ng(a) = a\n" options
  obtain rfl : report = report' := Except.ok.inj (hprocess.symm.trans hreport)
  simp only [List.any_eq_true] at hoverflow
  obtain ⟨e, he, d, hd, hinfinite⟩ := hoverflow
  obtain ⟨e, -, d, -, x, -, hrender⟩ :=
    hfails ⟨e, he, d, hd, Option.isSome_iff_ne_none.mp hinfinite⟩
  exact ⟨_, _, _, hrender⟩

end EquationCompiler
