import EquationCompiler.Artifacts
import EquationCompiler.Number.Machine
import EquationCompiler.Proofs.PaddedText
import EquationCompiler.Proofs.Policies

/-!
# Lines stand by themselves

What a line gives depends on its text alone, and its place shows in nothing but the
number of the line. So documents can be put one after the other, and a line that
gives no equation can be put anywhere without a change of the artifacts.
-/
namespace EquationCompiler

namespace Text

theorem pieces_append_separator (c : Char) (before after : List Char) :
    pieces c (before ++ c :: after) = pieces c before ++ pieces c after := by
  simp only [pieces_eq_splitOn, List.splitOn_append_cons_self]

/-- Every line of the text is ended. -/
def Ended (text : List Char) : Prop := text = [] ∨ text.getLast? = some '\n'

instance (text : List Char) : Decidable (Ended text) :=
  inferInstanceAs (Decidable (_ ∨ _))

theorem lines_append {first : List Char} (h : Ended first) (second : List Char) :
    lines (first ++ second) = lines first ++ lines second := by
  rcases h with rfl | h
  · rfl
  · obtain ⟨before, rfl⟩ := List.getLast?_eq_some_iff.mp h
    have hlast : (pieces '\n' before ++ pieces '\n' second).getLast? =
        (pieces '\n' second).getLast? := List.getLast?_append_of_ne_nil _ (pieces_ne_nil _ _)
    have hempty : pieces '\n' [] = [[]] := rfl
    rw [List.append_assoc, List.singleton_append]
    simp only [lines, pieces_append_separator, hempty, hlast, List.dropLast_concat,
      List.getLast?_concat, List.dropLast_append_of_ne_nil (pieces_ne_nil _ _), List.map_append]
    cases (pieces '\n' second).getLast? with
    | none => rfl
    | some last => cases last <;> simp

/-- A line feed ends the first line. -/
theorem lines_cons {raw : List Char} (hfeed : '\n' ∉ raw) (hreturn : raw.getLast? ≠ some '\r')
    (rest : List Char) : lines (raw ++ '\n' :: rest) = raw :: lines rest := by
  have hempty : pieces '\n' [] = [[]] := rfl
  have hline : lines (raw ++ ['\n']) = [raw] := by
    simp [lines, pieces_append_cons hfeed, hempty, hreturn]
  have hended : Ended (raw ++ ['\n']) := .inr List.getLast?_concat
  rw [List.append_cons, lines_append hended, hline, List.singleton_append]

/-- The second text has one line more than the first, `raw`, with `k` lines before it. -/
def InsertsLine (k : ℕ) (raw text more : List Char) : Prop :=
  k ≤ (lines text).length ∧ lines more = (lines text).take k ++ raw :: (lines text).drop k

/-- A line that is put between ended lines and the rest of a text is inserted there. -/
theorem insertsLine_of_ended {first raw : List Char} (h : Ended first) (hfeed : '\n' ∉ raw)
    (hreturn : raw.getLast? ≠ some '\r') (second : List Char) :
    InsertsLine (lines first).length raw (first ++ second) (first ++ (raw ++ '\n' :: second)) := by
  rw [InsertsLine, lines_append h, lines_append h, lines_cons hfeed hreturn, List.take_left,
    List.drop_left, List.length_append]
  exact ⟨Nat.le_add_right _ _, rfl⟩

end Text

def Failure.shift (k : ℕ) : Failure → Failure
  | malformed n line cause => malformed (n + k) line cause
  | cause => cause

def Diagnostic.shift (k : ℕ) : Diagnostic → Diagnostic
  | skipped n text => skipped (n + k) text
  | rejected n cause => rejected (n + k) (cause.shift k)

def Record.shift (k : ℕ) (r : Record) : Record := { r with lineNumber := r.lineNumber + k }

section
variable {α : Type}

def Equation.shift (k : ℕ) (e : Equation α) : Equation α :=
  { e with lineNumber := e.lineNumber + k }

def Entry.shift (k : ℕ) : Entry α → Entry α
  | equation e => equation (e.shift k)
  | skipped n text => skipped (n + k) text
  | failed n cause => failed (n + k) (cause.shift k)

namespace Report

/-- The report with all lines `k` further down. -/
def shift (k : ℕ) (report : Report α) : Report α :=
  ⟨report.equations.map (Equation.shift k), report.diagnostics.map (Diagnostic.shift k)⟩

/-- One report followed by another one. -/
def followedBy (first second : Report α) : Report α :=
  ⟨first.equations ++ second.equations, first.diagnostics ++ second.diagnostics⟩

theorem ofEntries_append (entries more : List (Entry α)) :
    ofEntries (entries ++ more) = (ofEntries entries).followedBy (ofEntries more) := by
  simp [ofEntries, followedBy]

theorem ofEntries_map_shift (k : ℕ) (entries : List (Entry α)) :
    ofEntries (entries.map (Entry.shift k)) = (ofEntries entries).shift k := by
  have hequation (entry : Entry α) :
      (entry.shift k).equation? = entry.equation?.map (Equation.shift k) := by
    cases entry <;> rfl
  have hdiagnostic (entry : Entry α) :
      (entry.shift k).diagnostic? = entry.diagnostic?.map (Diagnostic.shift k) := by
    cases entry <;> rfl
  simp only [ofEntries, shift, List.filterMap_map, List.map_filterMap, Function.comp_def,
    hequation, hdiagnostic]

end Report

theorem Diagnostic.findSome?_cause?_map_shift (k : ℕ) (diagnostics : List Diagnostic) :
    (diagnostics.map (shift k)).findSome? cause? =
      (diagnostics.findSome? cause?).map (Failure.shift k) := by
  induction diagnostics with
  | nil => rfl
  | cons diagnostic diagnostics ih =>
    rw [List.map_cons, List.findSome?_cons, List.findSome?_cons, ih]
    cases diagnostic <;> rfl

end

variable {α : Type} [Numeral α]

/-- The number of the line is kept, and nothing depends on it. -/
theorem Record.split_add (n k : ℕ) (line : List Char) :
    split (n + k) line = (split n line).map (shift k) := by
  unfold split
  cases extractBlock line with
  | error cause => rfl
  | ok extracted =>
    dsimp only [bind, Except.bind]
    -- Each test has one branch that ends with a fault and one that goes on.
    split
    case h_2 => rfl
    split
    case h_2 => rfl
    cases toName .function _ with
    | error cause => rfl
    | ok name =>
      dsimp only
      split
      case h_2 => rfl
      cases List.mapM (toName .parameter) _ with
      | error cause => rfl
      | ok parameters =>
        dsimp only
        split
        case h_1 => rfl
        split_ifs
        case pos => rfl
        split
        · cases List.mapM toSubstitution _ <;> rfl
        · rfl

theorem Equation.resolve_shift (k : ℕ) (r : Record) :
    (resolve (r.shift k) : Except Failure (Equation α)) = (resolve r).map (shift k) := by
  unfold resolve
  dsimp only [Record.shift, bind, Except.bind]
  split
  · rfl
  · split
    · rfl
    · split <;> rfl

/-- The failure names the function. -/
theorem Equation.compile_error {function text : String} {v : Vocabulary} {cause : Failure}
    (h : (compile function v text : Except Failure (Expr α)) = .error cause) :
    ∃ fault, cause = .uncompilable function text fault := by
  rw [compile] at h
  split at h
  · cases h
  · next fault _ => exact ⟨fault, (Except.error.inj h).symm⟩

theorem Equation.step_error {function : String} {p : Progress α} {subs : List Substitution}
    {cause : Failure} (h : subs.foldlM (Progress.step function) p = .error cause) :
    ∃ text fault, cause = .uncompilable function text fault := by
  induction subs generalizing p with
  | nil => cases h
  | cons s subs ih =>
    rw [List.foldlM_cons] at h
    cases hstep : p.step function s with
    | ok next =>
      rw [hstep] at h
      exact ih h
    | error other =>
      rw [hstep] at h
      cases h
      cases hvalue : (compile function p.vocabulary s.text : Except Failure (Expr α)) with
      | ok value => simp [Progress.step, hvalue, bind, Except.bind, pure, Except.pure] at hstep
      | error other =>
        obtain ⟨fault, rfl⟩ := compile_error hvalue
        rw [Progress.step, hvalue] at hstep
        exact ⟨s.text, fault, (Except.error.inj hstep).symm⟩

/-- A failure of resolving names the function, and no line. -/
theorem Equation.resolve_error {r : Record} {cause : Failure}
    (h : (resolve r : Except Failure (Equation α)) = .error cause) :
    ∃ text fault, cause = .uncompilable r.name text fault := by
  simp only [resolve, bind, Except.bind] at h
  split at h
  · next other hvalue =>
    cases h
    obtain ⟨fault, hcause⟩ := compile_error hvalue
    exact ⟨_, fault, hcause⟩
  · split at h
    · next other hrun =>
      cases h
      exact step_error hrun
    · split at h
      · cases h
        exact ⟨_, _, rfl⟩
      · cases h

namespace Entry

theorem ofRecord_add (n k : ℕ) (text : List Char) :
    (ofRecord (n + k) text : Except Failure (Equation α)) =
      match (ofRecord n text : Except Failure (Equation α)) with
      | .ok e => .ok (e.shift k)
      | .error cause => .error (cause.shift k) := by
  rw [ofRecord, ofRecord, Record.split_add]
  cases Record.split n text with
  | error cause => rfl
  | ok r =>
    dsimp only [Except.map]
    rw [Equation.resolve_shift]
    cases hresolve : (Equation.resolve r : Except Failure (Equation α)) with
    | ok e => rfl
    | error cause =>
      obtain ⟨_, _, rfl⟩ := Equation.resolve_error hresolve
      rfl

theorem ofLine?_add (n k : ℕ) (raw : List Char) :
    (ofLine? (n + k) raw : Option (Entry α)) = (ofLine? n raw).map (shift k) := by
  rw [ofLine?, ofLine?]
  cases Line.classify raw with
  | blank => rfl
  | skipped text => rfl
  | record text =>
    dsimp only
    rw [ofRecord_add]
    cases (ofRecord n text : Except Failure (Equation α)) <;> rfl

theorem ofLines_add (n k : ℕ) (lines : List (List Char)) :
    (ofLines (n + k) lines : List (Entry α)) = (ofLines n lines).map (shift k) := by
  induction lines generalizing n with
  | nil => rfl
  | cons raw rest ih =>
    rw [ofLines, ofLines, ofLine?_add, Nat.add_right_comm, ih, List.map_append]
    cases (ofLine? n raw : Option (Entry α)) <;> rfl

theorem ofLines_append (n : ℕ) (before after : List (List Char)) :
    (ofLines n (before ++ after) : List (Entry α)) =
      ofLines n before ++ ofLines (n + before.length) after := by
  induction before generalizing n with
  | nil => rfl
  | cons raw before ih =>
    rw [List.cons_append, ofLines, ofLines, ih, List.append_assoc, List.length_cons,
      Nat.add_assoc, Nat.add_comm 1]

end Entry

/-- The equation without its place. -/
def Equation.unplaced (e : Equation α) : Equation α := { e with lineNumber := 0 }

theorem EquationView.ofEquations_unplaced (index : ℕ) (es : List (Equation α)) :
    ofEquations index (es.map Equation.unplaced) = ofEquations index es := by
  induction es generalizing index with
  | nil => rfl
  | cons e es ih =>
    rw [List.map_cons, ofEquations, ofEquations, ih]
    rfl

/-- The artifacts do not show on which lines the equations stand. -/
theorem Artifacts.render_eq_of_unplaced (templates : Templates) (options : RenderOptions)
    {es fs : List (Equation α)} (h : es.map Equation.unplaced = fs.map Equation.unplaced) :
    render templates options es = render templates options fs := by
  rw [render, render, ← EquationView.ofEquations_unplaced 0 es, h,
    EquationView.ofEquations_unplaced]

namespace Report

theorem process_eq_ok {policy : Policy} {document : String} {report : Report α} :
    process policy document = .ok report ↔
      ofEntries (Entry.ofLines 1 (Text.lines document.toList)) = report ∧
        (policy = .abort → report.diagnostics.findSome? Diagnostic.cause? = none) := by
  cases policy with
  | bestEffort => simp [process_bestEffort]
  | abort =>
    rw [process_abort, findSome?_failure?]
    cases hcause : (ofEntries (Entry.ofLines 1 (Text.lines document.toList)) :
        Report α).diagnostics.findSome? Diagnostic.cause? with
    | none =>
      dsimp only
      rw [Except.ok.injEq]
      refine ⟨?_, And.left⟩
      rintro rfl
      exact ⟨rfl, fun _ => hcause⟩
    | some cause =>
      refine ⟨by rintro ⟨⟩, ?_⟩
      rintro ⟨rfl, hnone⟩
      rw [hnone rfl] at hcause
      cases hcause

/-- The report of two documents in a row, the first of which ends its last line. -/
theorem process_append {first : String} (h : Text.Ended first.toList) (second : String) :
    ∃ a b : Report α, process .bestEffort first = .ok a ∧ process .bestEffort second = .ok b ∧
      process .bestEffort (first ++ second) =
        .ok (a.followedBy (b.shift (Text.lines first.toList).length)) := by
  refine ⟨_, _, process_bestEffort first, process_bestEffort second,
    process_eq_ok.mpr ⟨?_, nofun⟩⟩
  rw [String.toList_append, Text.lines_append h, Entry.ofLines_append, Entry.ofLines_add,
    ofEntries_append, ofEntries_map_shift]

/-- What a line that is inserted adds to a report. -/
theorem ofEntries_insert {k : ℕ} {raw text more : List Char}
    (h : Text.InsertsLine k raw text more) :
    ∃ a b : Report α, ofEntries (Entry.ofLines 1 (Text.lines text)) = a.followedBy b ∧
      ofEntries (Entry.ofLines 1 (Text.lines more)) = a.followedBy
        ((ofEntries (Entry.ofLine? (k + 1) raw).toList).followedBy (b.shift 1)) := by
  obtain ⟨hk, hmore⟩ := h
  have hlength : ((Text.lines text).take k).length = k := List.length_take_of_le hk
  refine ⟨ofEntries (Entry.ofLines 1 ((Text.lines text).take k)),
    ofEntries (Entry.ofLines (1 + k) ((Text.lines text).drop k)), ?_, ?_⟩
  · have happend := Entry.ofLines_append (α := α) 1 ((Text.lines text).take k)
      ((Text.lines text).drop k)
    rw [List.take_append_drop, hlength] at happend
    rw [happend, ofEntries_append]
  · rw [hmore, Entry.ofLines_append, hlength, Entry.ofLines, Entry.ofLines_add, ofEntries_append,
      ofEntries_append, ofEntries_map_shift, Nat.add_comm 1 k]

/-- A line does not depend on the others. The report of two documents in a row, the first of which
ends its last line, is that of the first followed by that of the second with shifted numbers. Where
a line that gives no equation is inserted, the equations keep their artifacts, and the only
diagnostic that is added is that of a skipped line. -/
theorem lines_independent :
    (∀ first second : String, Text.Ended first.toList →
      ∃ a b : Report α, process .bestEffort first = .ok a ∧ process .bestEffort second = .ok b ∧
        process .bestEffort (first ++ second) =
          .ok (a.followedBy (b.shift (Text.lines first.toList).length))) ∧
    ∀ (policy : Policy) (templates : Templates) (options : RenderOptions) (k : ℕ)
      (raw : List Char) (document inserted : String) (report : Report α) (artifacts : Artifacts),
      Text.InsertsLine k raw document.toList inserted.toList →
      (∀ text, Line.classify raw ≠ .record text) →
      process policy document = .ok report →
      Artifacts.render templates options report.equations = .ok artifacts →
      ∃ more : Report α, process policy inserted = .ok more ∧
        Artifacts.render templates options more.equations = .ok artifacts ∧
        ∃ before after, report.diagnostics = before ++ after ∧
          (Line.classify raw = .blank →
            more.diagnostics = before ++ after.map (Diagnostic.shift 1)) ∧
          ∀ text, Line.classify raw = .skipped text →
            more.diagnostics = before ++
              .skipped (k + 1) (String.ofList text) :: after.map (Diagnostic.shift 1) := by
  refine ⟨fun first second h => process_append h second, ?_⟩
  intro policy templates options k raw document inserted report artifacts hinserts hraw hprocess
    hrender
  obtain ⟨rfl, hfails⟩ := process_eq_ok.mp hprocess
  obtain ⟨a, b, hreport, hmore⟩ := ofEntries_insert (α := α) hinserts
  rw [hreport] at hfails hrender ⊢
  -- The line itself gives no equation and no failure.
  have hline : ∃ added : List Diagnostic,
      ofEntries (Entry.ofLine? (k + 1) raw : Option (Entry α)).toList = ⟨[], added⟩ ∧
      added.findSome? Diagnostic.cause? = none ∧
      (Line.classify raw = .blank → added = []) ∧
      ∀ text, Line.classify raw = .skipped text →
        added = [.skipped (k + 1) (String.ofList text)] := by
    cases hclass : Line.classify raw with
    | blank => exact ⟨[], by simp [Entry.ofLine?, hclass, ofEntries], rfl, fun _ => rfl, nofun⟩
    | skipped text =>
      refine ⟨[.skipped (k + 1) (String.ofList text)], ?_, rfl, by rintro ⟨⟩, ?_⟩
      · simp [Entry.ofLine?, hclass, ofEntries, Entry.equation?, Entry.diagnostic?]
      · rintro _ ⟨⟩
        rfl
    | record text => exact absurd hclass (hraw text)
  obtain ⟨added, hadded, hnofailure, hblank, hskipped⟩ := hline
  rw [hadded] at hmore
  refine ⟨_, process_eq_ok.mpr ⟨hmore, fun habort => ?_⟩, ?_, a.diagnostics, b.diagnostics, rfl,
    fun hclass => ?_, fun text hclass => ?_⟩
  · have hnone := hfails habort
    simp only [followedBy, List.findSome?_append, Option.or_eq_none_iff] at hnone ⊢
    simp only [shift, Diagnostic.findSome?_cause?_map_shift, hnone, hnofailure, Option.map_none,
      and_self]
  · rw [← hrender]
    refine Artifacts.render_eq_of_unplaced templates options ?_
    simp [followedBy, shift, Equation.shift, Equation.unplaced]
  · simp [followedBy, shift, hblank hclass]
  · simp [followedBy, shift, hskipped text hclass]

/-- A line that is skipped, between two records. -/
theorem lines_independent_note :
    (∃ a b : Report Float, process .bestEffort "f(x) = x\n" = .ok a ∧
      process .bestEffort "g(y) = 2*y" = .ok b ∧
      process .bestEffort "f(x) = x\ng(y) = 2*y" = .ok (a.followedBy (b.shift 1))) ∧
    ∃ report more : Report Float, ∃ artifacts,
      process .abort "f(x) = x\ng(y) = 2*y" = .ok report ∧ report.diagnostics = [] ∧
      Artifacts.render {} ⟨"in", "out.h", "H"⟩ report.equations = .ok artifacts ∧
      process .abort "f(x) = x\nnote\ng(y) = 2*y" = .ok more ∧
      Artifacts.render {} ⟨"in", "out.h", "H"⟩ more.equations = .ok artifacts ∧
      more.diagnostics = [.skipped 2 "note"] := by
  obtain ⟨happend, hinsert⟩ := lines_independent (α := Float)
  refine ⟨happend "f(x) = x\n" "g(y) = 2*y" (by decide), ?_⟩
  let report : Report Float :=
    ofEntries (Entry.ofLines 1 (Text.lines "f(x) = x\ng(y) = 2*y".toList))
  have hprocess : process .abort "f(x) = x\ng(y) = 2*y" = .ok report :=
    process_eq_ok.mpr ⟨rfl, fun _ => by decide +kernel⟩
  obtain ⟨artifacts, hrender⟩ : ∃ artifacts,
      Artifacts.render {} ⟨"in", "out.h", "H"⟩ report.equations = .ok artifacts := by
    have hfinite : ∀ e ∈ report.equations, e.expression.nonFinite? = none := by decide +kernel
    have hgradients : (report.equations.all fun e =>
        e.gradient.all fun d => d.nonFinite?.isNone) = true := by decide +kernel
    obtain ⟨-, artifacts, hrender, -⟩ | ⟨e, he, d, hd, cause, ⟨x, hx, -⟩, -⟩ :=
      Artifacts.render_of_finite ⟨"in", "out.h", "H"⟩ hfinite
    · exact ⟨artifacts, hrender⟩
    · have hnone := List.all_eq_true.mp (List.all_eq_true.mp hgradients e he) d hd
      rw [hx] at hnone
      cases hnone
  have hinserts : Text.InsertsLine 1 "note".toList "f(x) = x\ng(y) = 2*y".toList
      "f(x) = x\nnote\ng(y) = 2*y".toList :=
    Text.insertsLine_of_ended (by decide : Text.Ended "f(x) = x\n".toList) (by decide) (by decide)
      "g(y) = 2*y".toList
  have hclass : Line.classify "note".toList = .skipped "note".toList := by decide +kernel
  obtain ⟨more, hmore, hartifacts, before, after, hdiagnostics, -, hskipped⟩ :=
    hinsert .abort {} ⟨"in", "out.h", "H"⟩ 1 "note".toList "f(x) = x\ng(y) = 2*y"
      "f(x) = x\nnote\ng(y) = 2*y" report artifacts
      hinserts (fun text htext => nomatch hclass.symm.trans htext) hprocess hrender
  have hnone : report.diagnostics = [] := by decide +kernel
  rw [hnone] at hdiagnostics
  obtain ⟨rfl, rfl⟩ := List.append_eq_nil_iff.mp hdiagnostics.symm
  exact ⟨report, more, artifacts, hprocess, hnone, hrender, hmore, hartifacts, hskipped _ hclass⟩

end Report

end EquationCompiler
