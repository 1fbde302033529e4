import EquationCompiler.Equation
import EquationCompiler.Proofs.Grammar

/-!
# The steps of resolving

Resolving reads the expression of a record and then, from right to left, the texts of
its substitutions. What is known of a run that succeeds is collected here.
-/
namespace EquationCompiler

/-- The texts of the expressions in a record. -/
def Record.texts (r : Record) : List String := r.expression :: r.substitutions.map (·.text)

namespace Equation
variable {α : Type} [Numeral α]

/-- What a step does, if it succeeds. -/
lemma step_eq_ok {function : String} {p done : Progress α}
    {s : Substitution} (h : p.step function s = .ok done) :
    ∃ e, Expr.parse p.vocabulary s.text = .ok e ∧
      done = ⟨p.expression.substitute s.name (substituteAll p.known e),
        p.vocabulary.insert s.name, p.known ++ [(s.name, substituteAll p.known e)]⟩ := by
  unfold Progress.step compile at h
  split at h
  · next e he => exact ⟨e, he, (Except.ok.inj h).symm⟩
  · cases h

/-- What resolving does, if it succeeds. -/
lemma resolve_inv {r : Record} {equation : Equation α}
    (h : resolve r = .ok equation) :
    ∃ e done,
      Expr.parse (Vocabulary.ofList (r.parameters ++ r.substitutions.map (·.name)))
        r.expression = .ok e ∧
      r.substitutions.reverse.foldlM (Progress.step r.name)
        ⟨e, Vocabulary.ofList r.parameters, []⟩ = .ok done ∧
      done.expression.nonFinite? = none ∧
      equation = ⟨r.lineNumber, r.name, r.parameters, r.substitutions, done.expression⟩ := by
  simp only [resolve, compile, bind, Except.bind] at h
  cases hparse : (Expr.parse (Vocabulary.ofList (r.parameters ++ r.substitutions.map (·.name)))
      r.expression : Except ExprFault (Expr α)) with
  | error cause => simp [hparse] at h
  | ok e =>
    cases hrun : r.substitutions.reverse.foldlM (Progress.step r.name)
        ⟨e, Vocabulary.ofList r.parameters, []⟩ with
    | error failure => simp [hparse, hrun] at h
    | ok done =>
      simp only [hparse, hrun] at h
      split at h
      · cases h
      · next hfinite => exact ⟨e, done, rfl, hrun, hfinite, (Except.ok.inj h).symm⟩

lemma parameters_resolve {r : Record} {equation : Equation α} (h : resolve r = .ok equation) :
    equation.parameters = r.parameters := by
  obtain ⟨_, _, -, -, -, rfl⟩ := resolve_inv h
  rfl

/-- What the expression of a resolved equation comes from. -/
lemma resolve_eq_ok {r : Record} {equation : Equation α}
    (h : resolve r = .ok equation) :
    ∃ e done,
      Expr.parse (Vocabulary.ofList (r.parameters ++ r.substitutions.map (·.name)))
        r.expression = .ok e ∧
      r.substitutions.reverse.foldlM (Progress.step r.name)
        ⟨e, Vocabulary.ofList r.parameters, []⟩ = .ok done ∧
      equation.expression = done.expression := by
  obtain ⟨e, done, hparse, hrun, -, rfl⟩ := resolve_inv h
  exact ⟨e, done, hparse, hrun, rfl⟩

/-- What holds of all that is read under the parameters, and is kept by substitution, holds of the
expression of a resolved equation. -/
theorem resolve_induction {P : Expr α → Prop} {r : Record} {equation : Equation α}
    (hparse : ∀ {v text e}, text ∈ r.texts → (∀ s ∈ r.parameters, v.contains s = true) →
      Expr.parse v text = .ok e → P e)
    (hsubstitute : ∀ {e name value}, P e → P value → P (e.substitute name value))
    (h : resolve r = .ok equation) : P equation.expression := by
  have hall (known : List (String × Expr α)) (e : Expr α) (hknown : ∀ entry ∈ known, P entry.2)
      (he : P e) : P (substituteAll known e) := by
    induction known generalizing e with
    | nil => exact he
    | cons entry known ih =>
      rw [List.forall_mem_cons] at hknown
      exact ih _ hknown.2 (hsubstitute he hknown.1)
  have hrun (subs : List Substitution) (p done : Progress α) (hsubs : ∀ s ∈ subs, s.text ∈ r.texts)
      (hv : ∀ s ∈ r.parameters, p.vocabulary.contains s = true) (hp : P p.expression)
      (hknown : ∀ entry ∈ p.known, P entry.2)
      (hdone : subs.foldlM (Progress.step r.name) p = .ok done) : P done.expression := by
    induction subs generalizing p with
    | nil =>
      cases hdone
      exact hp
    | cons s subs ih =>
      rw [List.forall_mem_cons] at hsubs
      rw [List.foldlM_cons] at hdone
      obtain ⟨next, hstep, hrest⟩ := Formula.bind_eq_ok.mp hdone
      obtain ⟨e, he, rfl⟩ := step_eq_ok hstep
      have hvalue := hall p.known e hknown (hparse hsubs.1 hv he)
      refine ih _ hsubs.2 (fun t ht => ?_) (hsubstitute hp hvalue) ?_ hrest
      · simp [hv t ht]
      · simpa [or_imp, forall_and] using ⟨fun a b hab => hknown (a, b) hab, hvalue⟩
  obtain ⟨e, done, he, hdone, hexpression⟩ := resolve_eq_ok h
  rw [hexpression]
  refine hrun _ _ done ?_ (by simp) (hparse List.mem_cons_self (fun s hs => ?_) he) (by simp) hdone
  · exact fun s hs => List.mem_cons_of_mem _ (List.mem_map_of_mem (List.mem_reverse.mp hs))
  · simp [hs]

/-- All texts of a record that is resolved have been read. -/
theorem parsed_of_resolve {r : Record} {equation : Equation α} (h : resolve r = .ok equation) :
    ∀ text ∈ r.texts, ∃ v, ∃ e : Expr α, Expr.parse v text = .ok e := by
  have hrun (subs : List Substitution) (p done : Progress α)
      (hdone : subs.foldlM (Progress.step r.name) p = .ok done) :
      ∀ s ∈ subs, ∃ v, ∃ e : Expr α, Expr.parse v s.text = .ok e := by
    induction subs generalizing p with
    | nil => simp
    | cons s subs ih =>
      rw [List.foldlM_cons] at hdone
      obtain ⟨next, hstep, hrest⟩ := Formula.bind_eq_ok.mp hdone
      obtain ⟨e, he, -⟩ := step_eq_ok hstep
      exact List.forall_mem_cons.mpr ⟨⟨_, e, he⟩, ih next hrest⟩
  obtain ⟨e, done, he, hdone, -⟩ := resolve_eq_ok h
  refine List.forall_mem_cons.mpr ⟨⟨_, e, he⟩, List.forall_mem_map.mpr fun s hs => ?_⟩
  exact hrun _ _ done hdone s (List.mem_reverse.mpr hs)

end Equation

end EquationCompiler
