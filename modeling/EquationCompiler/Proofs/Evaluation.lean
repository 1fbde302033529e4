import EquationCompiler.Proofs.Construction
import EquationCompiler.Proofs.FreeSymbols

/-!
# Evaluation fails only for symbols without a value

Evaluating an expression visits its symbols from left to right. The first one that has
no value ends the evaluation and is reported, and if all of them have one there is a
result: a function that is applied to as many arguments as it takes has a value for all
values of these.
-/
namespace EquationCompiler

namespace Bindings
variable {α β γ : Type}

/-- The result depends on the symbols alone: there is one if they all have values, and otherwise the
first symbol without a value is reported. -/
def Reports (bindings : Bindings α) (symbols : List String) (result : Except ExprFault β) : Prop :=
  match symbols.find? fun s => (bindings.value? s).isNone with
  | none => ∃ x, result = .ok x
  | some s => result = .error (.unboundSymbol s)

variable {bindings : Bindings α} {symbols later : List String}

lemma reports_nil (x : β) : bindings.Reports [] (.ok x) := ⟨x, rfl⟩

/-- What is computed first reports first. -/
lemma Reports.bind {result : Except ExprFault β} {next : β → Except ExprFault γ}
    (h : bindings.Reports symbols result)
    (hnext : ∀ x, result = .ok x → bindings.Reports later (next x)) :
    bindings.Reports (symbols ++ later) (result >>= next) := by
  unfold Reports at h
  cases hfind : symbols.find? fun s => (bindings.value? s).isNone with
  | none =>
    simp only [hfind] at h
    obtain ⟨x, rfl⟩ := h
    unfold Reports
    rw [List.find?_append, hfind, Option.none_or]
    exact hnext x rfl
  | some s =>
    simp only [hfind] at h
    subst h
    unfold Reports
    rw [List.find?_append, hfind, Option.some_or]
    rfl

/-- A last step that cannot fail reports nothing. -/
lemma Reports.map {result : Except ExprFault β} {f : β → γ} (h : bindings.Reports symbols result) :
    bindings.Reports symbols (do return f (← result)) := by
  have hall := h.bind fun x _ => reports_nil (f x)
  rwa [List.append_nil] at hall

lemma Reports.isOk_iff {result : Except ExprFault β} (h : bindings.Reports symbols result) :
    (∃ x, result = .ok x) ↔ ∀ s ∈ symbols, (bindings.value? s).isSome = true := by
  unfold Reports at h
  cases hfind : symbols.find? fun s => (bindings.value? s).isNone with
  | none =>
    simp only [hfind] at h
    refine ⟨fun _ s hs => ?_, fun _ => h⟩
    simpa [Option.isSome_iff_ne_none] using List.find?_eq_none.mp hfind s hs
  | some s =>
    simp only [hfind] at h
    have hnone : (bindings.value? s).isNone = true := by simpa using List.find?_some hfind
    refine ⟨fun ⟨x, hx⟩ => ?_, fun hall => ?_⟩
    · rw [h] at hx
      cases hx
    · have hsome := hall s (List.mem_of_find?_eq_some hfind)
      rw [Option.isNone_iff_eq_none.mp hnone] at hsome
      cases hsome

lemma Reports.unbound {result : Except ExprFault β} (h : bindings.Reports symbols result)
    {cause : ExprFault} (hcause : result = .error cause) :
    ∃ s ∈ symbols, bindings.value? s = none ∧ cause = .unboundSymbol s := by
  unfold Reports at h
  cases hfind : symbols.find? fun s => (bindings.value? s).isNone with
  | none =>
    simp only [hfind] at h
    obtain ⟨x, rfl⟩ := h
    cases hcause
  | some s =>
    simp only [hfind] at h
    have hnone : (bindings.value? s).isNone = true := by simpa using List.find?_some hfind
    rw [h] at hcause
    exact ⟨s, List.mem_of_find?_eq_some hfind, Option.isNone_iff_eq_none.mp hnone,
      (Except.error.inj hcause).symm⟩

end Bindings

namespace Expr
open Bindings
variable {α : Type} [Transcendental α] {bindings : Bindings α} {Named : String → Prop}

/-- Every argument is evaluated to one value. -/
lemma length_of_evaluateAll {es : List (Expr α)} {xs : List α}
    (h : evaluateAll bindings es = .ok xs) : xs.length = es.length := by
  induction es generalizing xs with
  | nil =>
    cases h
    rfl
  | cons e es ih =>
    obtain ⟨x, -, hrest⟩ := Formula.bind_eq_ok.mp h
    obtain ⟨ys, hys, hresult⟩ := Formula.bind_eq_ok.mp hrest
    cases hresult
    simp [ih hys]

mutual
/-- By recursion on the expression. The arity is what only well-formed expressions guarantee. -/
theorem Formed.reports_evaluate {e : Expr α} (h : Formed Named e) :
    bindings.Reports e.symbols (e.evaluate bindings) := by
  match e with
  | number x | constant c => exact reports_nil _
  | symbol s =>
    unfold Reports
    rw [evaluate]
    cases hvalue : bindings.value? s with
    | none => simp [symbols, hvalue]
    | some x => simp [symbols, hvalue]
  | sum ts =>
    rw [evaluate]
    exact reports_sumFrom (hereditary_formed.of_sum h) _
  | product fs =>
    rw [evaluate]
    exact reports_productFrom (hereditary_formed.of_product h) _
  | power b e =>
    obtain ⟨hb, he⟩ := hereditary_formed.of_power h
    rw [evaluate]
    exact hb.reports_evaluate.bind fun _ _ => he.reports_evaluate.map
  | call f args =>
    have hargs := hereditary_formed.of_call h
    have harity : args.length = f.arity := by
      cases h
      assumption
    have hvalues : bindings.Reports (symbolsAll args) (evaluateAll bindings args) :=
      reports_evaluateAll hargs
    rw [evaluate, symbols, ← List.append_nil (symbolsAll args)]
    refine hvalues.bind fun xs hxs => ?_
    rw [if_pos (by rw [length_of_evaluateAll hxs, harity])]
    exact reports_nil _
theorem reports_sumFrom {ts : List (Expr α)} (h : ∀ t ∈ ts, Formed Named t) (total : α) :
    bindings.Reports (symbolsAll ts) (sumFrom bindings total ts) := by
  match ts with
  | [] => exact reports_nil total
  | t :: ts =>
    rw [List.forall_mem_cons] at h
    rw [sumFrom]
    exact h.1.reports_evaluate.bind fun x _ => reports_sumFrom h.2 (total + x)
theorem reports_productFrom {fs : List (Expr α)} (h : ∀ f ∈ fs, Formed Named f) (total : α) :
    bindings.Reports (symbolsAll fs) (productFrom bindings total fs) := by
  match fs with
  | [] => exact reports_nil total
  | f :: fs =>
    rw [List.forall_mem_cons] at h
    rw [productFrom]
    exact h.1.reports_evaluate.bind fun x _ => reports_productFrom h.2 (total * x)
theorem reports_evaluateAll {es : List (Expr α)} (h : ∀ e ∈ es, Formed Named e) :
    bindings.Reports (symbolsAll es) (evaluateAll bindings es) := by
  match es with
  | [] => exact reports_nil []
  | e :: es =>
    rw [List.forall_mem_cons] at h
    rw [evaluateAll]
    exact h.1.reports_evaluate.bind fun _ _ => (reports_evaluateAll h.2).map
end

/-- An expression that can be built has a value if its free symbols have one. Otherwise one of those
without a value is reported. The same is then true of its derivatives, which have no other
symbols. -/
theorem evaluate_fails_only_for_unbound {e : Expr Float} (he : Obtained e)
    (bindings : Bindings Float) :
    ((∃ x, e.evaluate bindings = .ok x) ↔
        ∀ s ∈ e.freeSymbols, (bindings.value? s).isSome = true) ∧
      (∀ cause, e.evaluate bindings = .error cause →
        ∃ s ∈ e.freeSymbols, bindings.value? s = none ∧ cause = .unboundSymbol s) ∧
      ((∀ s ∈ e.freeSymbols, (bindings.value? s).isSome = true) →
        ∀ names, ∀ d ∈ e.gradient names, ∃ x, d.evaluate bindings = .ok x) := by
  have hreports : bindings.Reports e.symbols (e.evaluate bindings) := he.formed.reports_evaluate
  simp only [mem_freeSymbols]
  refine ⟨hreports.isOk_iff, fun _ => hreports.unbound, fun hbound names d hd => ?_⟩
  obtain ⟨name, -, rfl⟩ := List.mem_map.mp hd
  refine (he.derivative name).formed.reports_evaluate.isOk_iff.mpr fun s hs => hbound s ?_
  exact mem_freeSymbols.mp (freeSymbols_derivative_subset name e (mem_freeSymbols.mpr hs))

/-- With values for `x` and `y` the expression and its derivatives have values, with one for `x` alone
it has none. -/
theorem evaluate_fails_only_for_unbound_angle :
    ∃ e : Expr Float, parse (.ofList ["x", "y"]) "atan2(y, x) + sqrt(x*y)/E" = .ok e ∧
      (∃ x, e.evaluate [("x", 2), ("y", 3)] = .ok x) ∧
      (∀ d ∈ e.gradient ["x", "y"], ∃ x, d.evaluate [("x", 2), ("y", 3)] = .ok x) ∧
      ¬∃ x, e.evaluate [("x", 2)] = .ok x := by
  have hparse : (parse (.ofList ["x", "y"]) "atan2(y, x) + sqrt(x*y)/E" :
      Except ExprFault (Expr Float)).toOption.any (fun e => e.freeSymbols == ["x", "y"]) = true := by
    decide +kernel
  obtain ⟨e, he, hsymbols⟩ := (Option.any_eq_true _ _).mp hparse
  have he := Formula.eq_ok_of_toOption he
  rw [beq_iff_eq] at hsymbols
  obtain ⟨hvalue, -, hgradient⟩ :=
    evaluate_fails_only_for_unbound (.parse he) [("x", 2), ("y", 3)]
  rw [hsymbols] at hvalue hgradient
  have hboth : ∀ s ∈ ["x", "y"],
      (value? [("x", (2 : Float)), ("y", 3)] s).isSome = true := by decide
  have hone := (evaluate_fails_only_for_unbound (.parse he) [("x", 2)]).1
  rw [hsymbols] at hone
  refine ⟨e, he, hvalue.mpr hboth, hgradient hboth _, fun hx => ?_⟩
  exact absurd (hone.mp hx "y" (by simp)) (by decide)

end Expr

end EquationCompiler
