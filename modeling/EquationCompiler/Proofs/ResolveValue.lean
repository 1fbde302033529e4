import EquationCompiler.Proofs.FlatDescent
import EquationCompiler.Proofs.ResolveSteps
import EquationCompiler.Proofs.SubstituteValue

/-!
# Resolving means evaluating in the extended assignment

The values of the substitutions are computed from right to left, each from its
text under the parameters and the values computed before. The expression of the
equation has under the parameters alone the value that the text of the record has
under the parameters and all these values.
-/
namespace EquationCompiler

/-- Exact scalars on which literals are exact too. -/
class ExactNumeral (α : Type) extends ExactScalar α, Numeral α where
  toReal_ofDecimal {digits : ℕ} {exponent : ℤ} {x : α} (h : ofDecimal? digits exponent = some x) :
    toReal x = digits * 10 ^ exponent

namespace RealScalar

/-- Real numbers are read exactly. How they are written is left open. -/
@[reducible]
noncomputable def numeral (text : ℝ → String) (limit : ℕ) : Numeral ℝ where
  toScalar := limited limit
  ofDecimal? digits exponent := some (digits * 10 ^ exponent)
  text := text

@[reducible]
noncomputable def exactNumeral (text : ℝ → String) {limit : ℕ} (h : 10 ^ 15 ≤ limit) :
    ExactNumeral ℝ where
  toExactScalar := exact h
  ofDecimal? := (numeral text limit).ofDecimal?
  text := text
  toReal_ofDecimal h := (Option.some.inj h).symm

end RealScalar

namespace Equation
open EquationCompiler.Expr

section
variable {α : Type} [ExactNumeral α] (ρ : String → Option ℝ)

/-- The assignment with the values of expressions for their names. The first of several entries
for a name counts. -/
noncomputable def assignAll : List (String × Expr α) → String → Option ℝ
  | [] => ρ
  | (name, r) :: known => Function.update (assignAll known) name (some (r.value ρ))

variable {ρ}

lemma assignAll_of_not_mem {known : List (String × Expr α)} {s : String}
    (h : s ∉ known.map Prod.fst) : assignAll ρ known s = ρ s := by
  induction known with
  | nil => rfl
  | cons entry known ih =>
    rw [List.map_cons, List.mem_cons, not_or] at h
    rw [assignAll, Function.update_of_ne h.1, ih h.2]

/-- An entry for a new name may as well come last. -/
lemma assignAll_append {known : List (String × Expr α)} {name : String} {r : Expr α}
    (h : name ∉ known.map Prod.fst) :
    assignAll ρ (known ++ [(name, r)]) =
      Function.update (assignAll ρ known) name (some (r.value ρ)) := by
  induction known with
  | nil => rfl
  | cons entry known ih =>
    rw [List.map_cons, List.mem_cons, not_or] at h
    rw [List.cons_append, assignAll, ih h.2, assignAll, Function.update_comm h.1]

/-- The substituted expressions are defined, and none of the names is assigned already. -/
def Ready (ρ : String → Option ℝ) (known : List (String × Expr α)) : Prop :=
  ∀ entry ∈ known, entry.2.Defined ρ ∧ ρ entry.1 = none

/-- Substituting one after the other assigns all. -/
theorem substituteAll_spec {known : List (String × Expr α)} (h : Ready ρ known) {e : Expr α}
    (hd : e.Defined (assignAll ρ known)) :
    (substituteAll known e).Defined ρ ∧
      (substituteAll known e).value ρ = e.value (assignAll ρ known) := by
  induction known generalizing e with
  | nil => exact ⟨hd, rfl⟩
  | cons entry known ih =>
    obtain ⟨name, r⟩ := entry
    rw [Ready, List.forall_mem_cons] at h
    obtain ⟨⟨hr, -⟩, hknown⟩ := h
    have hextends (s : String) (v : ℝ) (hs : ρ s = some v) : assignAll ρ known s = some v := by
      rw [assignAll_of_not_mem, hs]
      intro hmem
      obtain ⟨other, hother, rfl⟩ := List.mem_map.mp hmem
      simp [(hknown other hother).2] at hs
    obtain ⟨hrσ, hrv⟩ := agree_of_extends hextends hr
    have hassign : assign (assignAll ρ known) name r = assignAll ρ ((name, r) :: known) := by
      rw [assign, hrv, assignAll]
    rw [← hassign] at hd ⊢
    obtain ⟨hs, hsv⟩ := substitute_spec hrσ e hd
    obtain ⟨hall, hallv⟩ := ih hknown hs
    exact ⟨hall, hallv.trans hsv⟩

end

section
variable {α : Type} [ExactNumeral α]

/-- The names known so far have been replaced in the expression, and the values of what they stand
for are the assignment `σ` that extends the one to the parameters. -/
structure Progress.Sound (e : Expr α) (ρ σ : String → Option ℝ) (p : Progress α) : Prop where
  expression : p.expression = substituteAll p.known e
  ready : Ready ρ p.known
  assigned : σ = assignAll ρ p.known

/-- One step assigns one name more. -/
lemma Progress.Sound.step {e value : Expr α} {ρ σ : String → Option ℝ} {p : Progress α}
    (h : p.Sound e ρ σ) {name : String} (hnew : name ∉ p.known.map Prod.fst)
    (hfresh : ρ name = none) (hd : value.Defined σ) (v : Vocabulary) :
    Progress.Sound e ρ (Function.update σ name (some (value.value σ)))
      ⟨p.expression.substitute name (substituteAll p.known value), v,
        p.known ++ [(name, substituteAll p.known value)]⟩ := by
  obtain ⟨hexpression, hready, rfl⟩ := h
  obtain ⟨hs, hsv⟩ := substituteAll_spec hready hd
  refine ⟨?_, ?_, ?_⟩
  · simp [hexpression, substituteAll]
  · intro entry hentry
    rcases List.mem_append.mp hentry with hold | hlast
    · exact hready entry hold
    · rw [List.mem_singleton.mp hlast]
      exact ⟨hs, hfresh⟩
  · rw [assignAll_append hnew, hsv]

end

section
variable (text : ℝ → String)

/-- The text reads as the expression, whatever the limit on exponents. -/
def Reads (v : Vocabulary) (t : String) (e : Expr ℝ) : Prop :=
  ∀ limit, machineExponentLimit ≤ limit → @Expr.parse ℝ (RealScalar.numeral text limit) v t = .ok e

/-- Evaluates substitutions one after the other, each under the bindings so far, and binds their
names to the values. -/
inductive Computes : Vocabulary → Bindings ℝ → List Substitution → Bindings ℝ → Prop
  | nil (v : Vocabulary) (bindings : Bindings ℝ) : Computes v bindings [] bindings
  | cons {v : Vocabulary} {bindings extended : Bindings ℝ} {s : Substitution}
      {subs : List Substitution} {e : Expr ℝ} {x : ℝ} (hreads : Reads text v s.text e)
      (hvalue : HasValue bindings e x)
      (hsubs : Computes (v.insert s.name) (bindings ++ [(s.name, x)]) subs extended) :
      Computes v bindings (s :: subs) extended

variable {text}

/-- By induction on the substitutions, since each step assigns one name. -/
theorem sound_of_run {function : String} {e : Expr ℝ} {ρ : String → Option ℝ}
    {subs : List Substitution} {v : Vocabulary} {bindings extended : Bindings ℝ}
    (hcomputes : Computes text v bindings subs extended) :
    let _ := RealScalar.exactNumeral text (le_refl (10 ^ 15))
    ∀ {p done : Progress ℝ}, p.vocabulary = v → p.Sound e ρ bindings.value? →
      (p.known.map Prod.fst ++ subs.map Substitution.name).Nodup →
      (∀ s ∈ subs, ρ s.name = none) → subs.foldlM (Progress.step function) p = .ok done →
      done.Sound e ρ extended.value? := by
  intro _
  induction hcomputes with
  | nil v bindings =>
    intro p done _ hp _ _ hrun
    rwa [← Except.ok.inj hrun]
  | @cons v bindings extended s subs value x hreads hvalue _ ih =>
    intro p done hv hp hnames hfresh hrun
    rw [List.forall_mem_cons] at hfresh
    rw [List.map_cons] at hnames
    rw [List.foldlM_cons] at hrun
    cases hstep : p.step function s with
    | error failure =>
      rw [hstep] at hrun
      cases hrun
    | ok next =>
      rw [hstep] at hrun
      obtain ⟨value', hparse, rfl⟩ := step_eq_ok hstep
      obtain rfl : value' = value :=
        Except.ok.inj ((hv ▸ hparse).symm.trans (hreads _ (by norm_num [machineExponentLimit])))
      obtain ⟨hd, rfl⟩ := hasValue_iff.mp hvalue
      have hnew : s.name ∉ p.known.map Prod.fst := fun h =>
        List.disjoint_of_nodup_append hnames h (by simp)
      refine ih (hv ▸ rfl) ?_ ?_ hfresh.2 hrun
      · rw [value?_append]
        exact hp.step hnew hfresh.1 hd _
      · simpa using hnames

/-- Resolving a record gives an expression that has under the parameters the value of the text
under the parameters and the values of the names. -/
theorem hasValue_resolve {r : Record} {equation : Equation ℝ} {given extended : Bindings ℝ}
    {e : Expr ℝ} {y : ℝ}
    (hresolve : ∀ limit, machineExponentLimit ≤ limit →
      @resolve ℝ (RealScalar.numeral text limit) r = .ok equation)
    (hdistinct : (r.substitutions.map Substitution.name).Nodup)
    (hfresh : ∀ s ∈ r.substitutions, s.name ∉ r.parameters)
    (hgiven : ∀ entry ∈ given, entry.1 ∈ r.parameters)
    (hcomputes :
      Computes text (Vocabulary.ofList r.parameters) given r.substitutions.reverse extended)
    (hreads : Reads text (Vocabulary.ofList (r.parameters ++ r.substitutions.map Substitution.name))
      r.expression e)
    (hvalue : HasValue extended e y) : HasValue given equation.expression y := by
  have hlimit : machineExponentLimit ≤ 10 ^ 15 := by norm_num [machineExponentLimit]
  let _ := RealScalar.exactNumeral text (le_refl (10 ^ 15))
  obtain ⟨e', done, hparse, hrun, hexpression⟩ := resolve_eq_ok (hresolve _ hlimit)
  obtain rfl : e' = e := Except.ok.inj (hparse.symm.trans (hreads _ hlimit))
  have hunassigned : ∀ s ∈ r.substitutions.reverse, given.value? s.name = none := by
    intro s hs
    refine value?_eq_none fun entry hentry hname => ?_
    exact hfresh s (List.mem_reverse.mp hs) (hname ▸ hgiven entry hentry)
  have hsound : done.Sound e' given.value? extended.value? :=
    sound_of_run hcomputes rfl ⟨rfl, by simp [Ready], rfl⟩
      (by simpa using hdistinct) hunassigned hrun
  obtain ⟨hd, rfl⟩ := hasValue_iff.mp hvalue
  rw [hsound.assigned] at hd ⊢
  obtain ⟨hs, hsv⟩ := substituteAll_spec hsound.ready hd
  rw [hexpression, hsound.expression, hasValue_iff]
  exact ⟨hs, hsv⟩

end

/-- `f(x) = [a = b^2, b = x] a`. -/
def chain : Record where
  lineNumber := 1
  name := "f"
  parameters := ["x"]
  substitutions := [⟨"a", "b^2"⟩, ⟨"b", "x"⟩]
  expression := "a"

lemma read_a : Formula.read "a" = .ok (.name "a") := by
  rw [Formula.read_eq_descend]
  rfl

lemma read_x : Formula.read "x" = .ok (.name "x") := by
  rw [Formula.read_eq_descend]
  rfl

section
variable {α : Type} [Numeral α] {v : Vocabulary} {name : String} (hname : v.contains name = true)
include hname

lemma parse_name (hread : Formula.read name = .ok (.name name)) :
    Expr.parse v name = .ok (symbol name : Expr α) := by
  simp [Expr.parse, hread, bind, Except.bind, Formula.compile, Formula.identifier, hname]

lemma parse_power {t literal : String} {x : α}
    (hread : Formula.read t = .ok (.power (.name name) (.number literal)))
    (hliteral : Formula.literalValue? literal = some x) :
    Expr.parse v t = .ok (pow (symbol name) (number x)) := by
  simp [Expr.parse, hread, bind, Except.bind, Formula.compile, Formula.identifier, hname, hliteral,
    pure, Except.pure]

end

section
variable (limit : ℕ)

lemma pow_two (s : String) : @pow ℝ (RealScalar.limited limit) (symbol s) (number 2) =
    power (symbol s) (number 2) := by
  simp [pow, powWith, isZero, isOne, Scalar.isZero, Scalar.isOne]

lemma parse_square {v : Vocabulary} (h : v.contains "b" = true) :
    @Expr.parse ℝ (RealScalar.numeral (fun _ => "") limit) v "b^2" =
      .ok (power (symbol "b") (number 2)) := by
  let _ := RealScalar.numeral (fun _ => "") limit
  have hliteral : Formula.literalValue? "2" = some (2 : ℝ) := by
    have hdecimal : decimalOfLiteral "2".toList = (2, 0) := by decide
    rw [Formula.literalValue?, hdecimal]
    change some _ = _
    norm_num
  have hread : Formula.read "b^2" = .ok (.power (.name "b") (.number "2")) := by
    rw [Formula.read_eq_descend]
    rfl
  rw [parse_power h hread hliteral, pow_two]

lemma resolve_chain : @resolve ℝ (RealScalar.numeral (fun _ => "") limit) chain =
    .ok ⟨1, "f", ["x"], chain.substitutions, power (symbol "x") (number 2)⟩ := by
  let _ := RealScalar.numeral (fun _ => "") limit
  have ha : Expr.parse (Vocabulary.ofList ["x", "a", "b"]) "a" = .ok (symbol "a" : Expr ℝ) :=
    parse_name (by simp) read_a
  have hx : Expr.parse (Vocabulary.ofList ["x"]) "x" = .ok (symbol "x" : Expr ℝ) :=
    parse_name (by simp) read_x
  have hsquare := parse_square limit (v := (Vocabulary.ofList ["x"]).insert "b") (by simp)
  simp [resolve, chain, compile, Progress.step, ha, hx, hsquare, bind, Except.bind, pure,
    Except.pure, substituteAll, substitute, contains, pow_two, nonFinite?]

end

theorem hasValue_resolve_chain :
    ∃ equation : Equation ℝ,
      @resolve ℝ (RealScalar.numeral (fun _ => "") machineExponentLimit) chain = .ok equation ∧
      HasValue [("x", 3)] equation.expression 9 := by
  refine ⟨_, resolve_chain _, ?_⟩
  have hx : HasValue [("x", 3)] (symbol "x") 3 := hasValue_iff.mpr (by simp [Bindings.value?])
  have hsquare : HasValue [("x", 3), ("b", 3)] (power (symbol "b") (number 2)) 9 := by
    have hb : Bindings.value? [("x", (3 : ℝ)), ("b", 3)] "b" = some 3 := by simp [Bindings.value?]
    rw [hasValue_iff, defined_power, value_power, value_symbol, value_number, hb]
    exact ⟨⟨by simp [hb], by simp, .of_pos three_pos _⟩, by norm_num⟩
  have ha : HasValue [("x", 3), ("b", 3), ("a", 9)] (symbol "a") 9 :=
    hasValue_iff.mpr (by simp [Bindings.value?])
  have hparse (limit : ℕ) {v : Vocabulary} {name : String} (h : v.contains name = true)
      (hread : Formula.read name = .ok (.name name)) :
      @Expr.parse ℝ (RealScalar.numeral (fun _ => "") limit) v name = .ok (symbol name) :=
    @parse_name ℝ (RealScalar.numeral (fun _ => "") limit) v name h hread
  have hcomputes : Computes (fun _ => "") (Vocabulary.ofList ["x"]) [("x", 3)]
      [⟨"b", "x"⟩, ⟨"a", "b^2"⟩] [("x", 3), ("b", 3), ("a", 9)] :=
    .cons (fun limit _ => hparse limit (by simp) read_x) hx
      (.cons (fun limit _ => parse_square limit (by simp)) hsquare (.nil _ _))
  exact hasValue_resolve (fun limit _ => resolve_chain limit) (by simp [chain]) (by simp [chain])
    (by simp [chain]) hcomputes (fun limit _ => hparse limit (by simp [chain]) read_a) ha

end Equation

end EquationCompiler
