import EquationCompiler.Number.Machine
import EquationCompiler.Proofs.PrintRead
import EquationCompiler.Proofs.ResolveSteps

/-!
# Records that use only known names

A name in the text of a substitution is in scope if it is a parameter or declared to
the right. In a record whose texts keep to the names in scope every name is resolved:
the expression of its equation and the derivatives have no symbols but parameters.
Names may be declared several times and may be those of parameters.
-/
namespace EquationCompiler

namespace Expr
variable {α : Type}

lemma mem_symbolsAll {s : String} {es : List (Expr α)} :
    s ∈ symbolsAll es ↔ ∃ e ∈ es, s ∈ e.symbols := by
  induction es with
  | nil => simp [symbolsAll]
  | cons e es ih => simp [symbolsAll, ih]

mutual
theorem contains_iff_mem_symbols {s : String} {e : Expr α} :
    e.contains s = true ↔ s ∈ e.symbols := by
  cases e with
  | number x | constant c => simp [contains, symbols]
  | symbol t => rw [contains, symbols, beq_iff_eq, List.mem_singleton, eq_comm]
  | sum es | product es | call f es => exact containsAny_iff_mem_symbolsAll
  | power b e => simp [contains, symbols, contains_iff_mem_symbols (e := b),
      contains_iff_mem_symbols (e := e)]
theorem containsAny_iff_mem_symbolsAll {s : String} {es : List (Expr α)} :
    containsAny s es = true ↔ s ∈ symbolsAll es := by
  match es with
  | [] => simp [containsAny, symbolsAll]
  | e :: es =>
    have hhead : e.contains s = true ↔ s ∈ e.symbols := contains_iff_mem_symbols
    have htail : containsAny s es = true ↔ s ∈ symbolsAll es := containsAny_iff_mem_symbolsAll
    simp [containsAny, symbolsAll, hhead, htail]
end

/-- Simplifying invents no symbols. -/
lemma hereditary_symbols (S : String → Prop) :
    Hereditary fun e : Expr α => ∀ s ∈ e.symbols, S s where
  number x := by simp [symbols]
  sum hne h s hs := by
    obtain ⟨t, ht, hst⟩ := mem_symbolsAll.mp hs
    exact h t ht s hst
  of_sum h t ht s hs := h s (mem_symbolsAll.mpr ⟨t, ht, hs⟩)
  product h s hs := by
    obtain ⟨f, hf, hsf⟩ := mem_symbolsAll.mp hs
    exact h f hf s hsf
  of_product h f hf s hs := h s (mem_symbolsAll.mpr ⟨f, hf, hs⟩)
  power hb he s hs := (List.mem_append.mp hs).elim (hb s) (he s)
  of_power h := ⟨fun s hs => h s (List.mem_append_left _ hs),
    fun s hs => h s (List.mem_append_right _ hs)⟩
  call hlength h s hs := by
    obtain ⟨a, ha, hsa⟩ := mem_symbolsAll.mp hs
    exact h a ha s hsa
  of_call h a ha s hs := h s (mem_symbolsAll.mpr ⟨a, ha, hs⟩)

variable [Scalar α]

/-- Substitution removes the name, unless the replacement brings it back. -/
theorem symbols_substitute {S : String → Prop} {name : String} {e r : Expr α}
    (hr : ∀ s ∈ r.symbols, S s) (he : ∀ s ∈ e.symbols, s = name ∨ S s) :
    ∀ s ∈ (e.substitute name r).symbols, S s := by
  have H := hereditary_symbols (α := α) fun s => s = name ∨ S s
  refine (hereditary_symbols S).substitute H.toInherited ?_ ?_ hr he
  · intro f args args' _ _ hargs s hs
    obtain ⟨a, ha, hsa⟩ := mem_symbolsAll.mp hs
    exact hargs a ha s hsa
  · intro e he hname s hs
    refine (he s hs).resolve_left ?_
    rintro rfl
    rw [contains_iff_mem_symbols.mpr hs] at hname
    cases hname

end Expr

/-- The text uses only the given names, the constants and functions that it applies. -/
def KeepsTo (names : List String) (text : String) : Prop :=
  ∀ u ∈ Token.uses (Token.tokens text.toList),
    u.applied = true ∨ u.name ∈ names ∨ u.name = "pi" ∨ u.name = "E"

instance (names : List String) (text : String) : Decidable (KeepsTo names text) :=
  inferInstanceAs (Decidable (∀ u ∈ Token.uses (Token.tokens text.toList), _))

/-- Each text uses the parameters and the names declared to its right. -/
def SubstitutionsKeepTo (parameters : List String) : List Substitution → Prop
  | [] => True
  | s :: later =>
    KeepsTo (parameters ++ later.map (·.name)) s.text ∧ SubstitutionsKeepTo parameters later

instance decidableSubstitutionsKeepTo (parameters : List String) :
    (subs : List Substitution) → Decidable (SubstitutionsKeepTo parameters subs)
  | [] => isTrue trivial
  | _ :: later =>
    have := decidableSubstitutionsKeepTo parameters later
    inferInstanceAs (Decidable (_ ∧ _))

/-- Every name is in scope where it is used. -/
structure Record.WellScoped (r : Record) : Prop where
  expression : KeepsTo (r.parameters ++ r.substitutions.map (·.name)) r.expression
  substitutions : SubstitutionsKeepTo r.parameters r.substitutions

variable {α : Type} [Numeral α]

/-- The symbols of what is read are among the tokens of the text. -/
theorem name_mem_tokens_of_parse {v : Vocabulary} {text : String} {e : Expr α}
    (hparse : Expr.parse v text = .ok e) : ∀ s ∈ e.symbols, .name s ∈ Token.tokens text.toList := by
  obtain ⟨f, hread, hcompile⟩ := Formula.bind_eq_ok.mp hparse
  refine Formula.hereditary_compile (Expr.hereditary_symbols _) (by simp [Expr.symbols]) ?_ hcompile
  intro s hs t ht
  rw [List.mem_singleton.mp ht]
  exact Formula.mem_of_mem_names (Formula.isSum_of_read hread) hs

/-- What is read has only symbols that the text names. -/
theorem symbols_parse {v : Vocabulary} {names : List String} {text : String} {e : Expr α}
    (hparse : Expr.parse v text = .ok e) (htext : KeepsTo names text)
    (hv : ∀ s, v.contains s = true → s ∈ names) : ∀ s ∈ e.symbols, s ∈ names := by
  obtain ⟨f, hread, hcompile⟩ := Formula.bind_eq_ok.mp hparse
  have H := Expr.hereditary_symbols (α := α) (· ∈ names)
  refine Formula.algebraic_compile H.toAlgebraic (Formula.hereditary_application H) ?_ hcompile
  intro s hs t ht
  have huse : ⟨s, false⟩ ∈ Token.uses (Token.tokens text.toList) := by
    rw [Formula.uses_of_isSum (Formula.isSum_of_read hread)]
    exact Formula.mem_uses_of_mem_names hs
  unfold Formula.identifier at ht
  split_ifs at ht with hmem
  · rw [List.mem_singleton.mp ht]
    exact hv s hmem
  · split at ht
    · cases ht
    · next hconstant =>
      -- A name that is neither of the vocabulary nor a constant has to be in scope.
      rw [List.mem_singleton.mp ht]
      rcases htext _ huse with happlied | hname | rfl | rfl
      · cases happlied
      · exact hname
      · cases hconstant
      · cases hconstant

namespace Equation

/-- The substitutions `later` have been applied, from the right, and `remaining` have not. -/
structure Progress.InScope (parameters : List String) (remaining later : List Substitution)
    (p : Progress α) : Prop where
  vocabulary : ∀ s, p.vocabulary.contains s = true → s ∈ parameters ++ later.map (·.name)
  /-- All names to the right have a value. -/
  names : ∀ s ∈ later, s.name ∈ p.known.map Prod.fst
  known : ∀ entry ∈ p.known, ∀ s ∈ entry.2.symbols, s ∈ parameters
  expression : ∀ s ∈ p.expression.symbols, s ∈ parameters ++ remaining.map (·.name)

/-- Values without names to be eliminated eliminate their names. -/
lemma symbols_substituteAll {parameters : List String} {known : List (String × Expr α)}
    (hknown : ∀ entry ∈ known, ∀ s ∈ entry.2.symbols, s ∈ parameters) {e : Expr α}
    (he : ∀ s ∈ e.symbols, s ∈ parameters ∨ s ∈ known.map Prod.fst) :
    ∀ s ∈ (substituteAll known e).symbols, s ∈ parameters := by
  induction known generalizing e with
  | nil => simpa [substituteAll] using he
  | cons entry known ih =>
    obtain ⟨hentry, hknown⟩ := List.forall_mem_cons.mp hknown
    refine ih hknown (Expr.symbols_substitute (fun s hs => .inl (hentry s hs)) fun s hs => ?_)
    rcases he s hs with hparameter | hname
    · exact .inr (.inl hparameter)
    · rcases List.mem_cons.mp hname with rfl | hname
      · exact .inl rfl
      · exact .inr (.inr hname)

/-- One step eliminates one name more. -/
lemma Progress.InScope.step {parameters : List String} {remaining later : List Substitution}
    {s : Substitution} {p done : Progress α} {function : String}
    (h : p.InScope parameters (remaining ++ [s]) later)
    (htext : KeepsTo (parameters ++ later.map (·.name)) s.text)
    (hstep : p.step function s = .ok done) :
    done.InScope parameters remaining (s :: later) := by
  obtain ⟨value, hparse, rfl⟩ := step_eq_ok hstep
  have hvalue : ∀ t ∈ (substituteAll p.known value).symbols, t ∈ parameters := by
    refine symbols_substituteAll h.known fun t ht => ?_
    rcases List.mem_append.mp (symbols_parse hparse htext h.vocabulary t ht) with ht | ht
    · exact .inl ht
    · obtain ⟨other, hother, rfl⟩ := List.mem_map.mp ht
      exact .inr (h.names other hother)
  refine ⟨fun t ht => ?_, ?_, ?_, ?_⟩
  · rw [Vocabulary.contains_insert, Bool.or_eq_true, beq_iff_eq] at ht
    rcases ht with rfl | ht
    · simp
    · have := h.vocabulary t ht
      simp only [List.mem_append, List.map_cons, List.mem_cons] at this ⊢
      tauto
  · rw [List.forall_mem_cons, List.map_append]
    exact ⟨by simp, fun t ht => List.mem_append_left _ (h.names t ht)⟩
  · simpa [or_imp, forall_and] using ⟨fun a b hab t ht => h.known (a, b) hab t ht, hvalue⟩
  · refine Expr.symbols_substitute (fun t ht => List.mem_append_left _ (hvalue t ht)) fun t ht => ?_
    have := h.expression t ht
    simp only [List.map_append, List.map_cons, List.map_nil, List.mem_append, List.mem_singleton]
      at this ⊢
    tauto

/-- By induction on the substitutions, the rightmost of which is applied first. -/
theorem inScope_of_run {parameters : List String} {function : String} {start : Progress α}
    {subs remaining : List Substitution} {done : Progress α}
    (hstart : start.InScope parameters (remaining ++ subs) [])
    (hsubs : SubstitutionsKeepTo parameters subs)
    (hrun : subs.reverse.foldlM (Progress.step function) start = .ok done) :
    done.InScope parameters remaining subs := by
  induction subs generalizing remaining done with
  | nil =>
    cases hrun
    simpa using hstart
  | cons s later ih =>
    rw [List.reverse_cons, List.foldlM_append] at hrun
    obtain ⟨p, hp, hlast⟩ := Formula.bind_eq_ok.mp hrun
    have hscope : p.InScope parameters (remaining ++ [s]) later :=
      ih (by simpa using hstart) hsubs.2 hp
    have hstep : p.step function s = .ok done := by simpa using hlast
    exact hscope.step hsubs.1 hstep

/-- A record all of whose names are in scope is resolved to its parameters. -/
theorem wellScoped_resolve {r : Record} {e : Equation α} (hresolve : resolve r = .ok e)
    (hscope : r.WellScoped) :
    e.unresolved = [] ∧ ∀ d ∈ e.gradient, ∀ s ∈ d.freeSymbols, s ∈ r.parameters := by
  obtain ⟨expression, done, hparse, hrun, -, rfl⟩ := resolve_inv hresolve
  have hstart : Progress.InScope r.parameters ([] ++ r.substitutions) []
      ⟨expression, Vocabulary.ofList r.parameters, []⟩ := by
    refine ⟨by simp, by simp, by simp, symbols_parse hparse hscope.expression ?_⟩
    simp
  have hdone := inScope_of_run hstart hscope.substitutions hrun
  have hsymbols : ∀ s ∈ done.expression.symbols, s ∈ r.parameters := by
    simpa using hdone.expression
  refine ⟨?_, fun d hd => ?_⟩
  · rw [unresolved, List.filter_eq_nil_iff]
    intro s hs
    simpa using hsymbols s (Expr.mem_freeSymbols.mp hs)
  · obtain ⟨name, -, rfl⟩ := List.mem_map.mp hd
    intro s hs
    have H := Expr.hereditary_symbols (α := α) (· ∈ r.parameters)
    exact H.derivative name hsymbols s (Expr.mem_freeSymbols.mp hs)

/-- The name `x` is declared twice, and `a` is a parameter too. -/
theorem wellScoped_resolve_shadowing :
    let r : Record := ⟨3, "f", ["a", "b"],
      [⟨"x", "y + b"⟩, ⟨"y", "a*x"⟩, ⟨"a", "2*b"⟩, ⟨"x", "sin(a)/pi"⟩], "x*y + E"⟩
    ∃ e : Equation Float, resolve r = .ok e ∧ e.unresolved = [] ∧
      ∀ d ∈ e.gradient, ∀ s ∈ d.freeSymbols, s ∈ ["a", "b"] := by
  intro r
  have hscope : r.WellScoped := ⟨by decide +kernel, by decide +kernel⟩
  have hresolved : (resolve r : Except Failure (Equation Float)).isOk = true := by decide +kernel
  rcases he : (resolve r : Except Failure (Equation Float)) with cause | e
  · rw [he] at hresolved
    cases hresolved
  · exact ⟨e, rfl, wellScoped_resolve he hscope⟩

end Equation

end EquationCompiler
