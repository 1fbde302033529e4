import EquationCompiler.Proofs.Scope

/-!
# No operation invents a symbol

The free symbols of what the constructors, substituting, differentiating and parsing
return are known beforehand, for all expressions whether simplified or not: they come
from the operands, or are names in the text. So a symbol is gone once something
without it has been substituted for it.
-/
namespace EquationCompiler.Expr
variable {α : Type}

theorem contains_iff_mem_freeSymbols {e : Expr α} {name : String} :
    e.contains name = true ↔ name ∈ e.freeSymbols := by
  rw [mem_freeSymbols, contains_iff_mem_symbols]

lemma freeSymbols_subset_iff {e : Expr α} {names : List String} :
    e.freeSymbols ⊆ names ↔ ∀ s ∈ e.symbols, s ∈ names := by
  simp only [List.subset_def, mem_freeSymbols]

/-- Each operand contributes its free symbols. -/
lemma mem_flatMap_freeSymbols {e : Expr α} {es : List (Expr α)} (he : e ∈ es) :
    ∀ s ∈ e.symbols, s ∈ es.flatMap freeSymbols := fun _ hs =>
  List.mem_flatMap.mpr ⟨e, he, mem_freeSymbols.mpr hs⟩

section
variable [Scalar α]

theorem freeSymbols_add_subset (ts : List (Expr α)) :
    (add ts).freeSymbols ⊆ ts.flatMap freeSymbols :=
  freeSymbols_subset_iff.mpr <|
    (hereditary_symbols (· ∈ ts.flatMap freeSymbols)).add fun _ => mem_flatMap_freeSymbols

theorem freeSymbols_mul_subset (fs : List (Expr α)) :
    (mul fs).freeSymbols ⊆ fs.flatMap freeSymbols :=
  freeSymbols_subset_iff.mpr <|
    (hereditary_symbols (· ∈ fs.flatMap freeSymbols)).mul fun _ => mem_flatMap_freeSymbols

theorem freeSymbols_pow_subset (b e : Expr α) :
    (pow b e).freeSymbols ⊆ b.freeSymbols ++ e.freeSymbols := by
  have H := hereditary_symbols (α := α) (· ∈ b.freeSymbols ++ e.freeSymbols)
  refine freeSymbols_subset_iff.mpr (H.pow ?_ ?_)
  · exact fun s hs => List.mem_append_left _ (mem_freeSymbols.mpr hs)
  · exact fun s hs => List.mem_append_right _ (mem_freeSymbols.mpr hs)

/-- The number of arguments does not matter. -/
theorem freeSymbols_apply_subset (f : Elementary) (args : List (Expr α)) :
    (apply f args).freeSymbols ⊆ args.flatMap freeSymbols := by
  have H := hereditary_symbols (α := α) (· ∈ args.flatMap freeSymbols)
  refine freeSymbols_subset_iff.mpr (H.apply_of_call fun s hs => ?_)
  obtain ⟨a, ha, hs⟩ := mem_symbolsAll.mp hs
  exact mem_flatMap_freeSymbols ha s hs

theorem freeSymbols_derivative_subset (name : String) (e : Expr α) :
    (derivative name e).freeSymbols ⊆ e.freeSymbols :=
  freeSymbols_subset_iff.mpr <|
    (hereditary_symbols (· ∈ e.freeSymbols)).derivative name fun _ => mem_freeSymbols.mpr

theorem freeSymbols_substitute_subset (e : Expr α) (name : String) (r : Expr α) :
    (e.substitute name r).freeSymbols ⊆ e.freeSymbols.filter (· ≠ name) ++ r.freeSymbols := by
  refine freeSymbols_subset_iff.mpr (symbols_substitute ?_ fun s hs => ?_)
  · exact fun s hs => List.mem_append_right _ (mem_freeSymbols.mpr hs)
  · by_cases hname : s = name
    · exact .inl hname
    · refine .inr (List.mem_append_left _ (List.mem_filter.mpr ⟨mem_freeSymbols.mpr hs, ?_⟩))
      simpa using hname

/-- What does not contain the symbol eliminates it. -/
theorem not_mem_freeSymbols_substitute (e : Expr α) {name : String} {r : Expr α}
    (hr : name ∉ r.freeSymbols) : name ∉ (e.substitute name r).freeSymbols := by
  intro hmem
  rcases List.mem_append.mp (freeSymbols_substitute_subset e name r hmem) with hmem | hmem
  · simp at hmem
  · exact hr hmem

end

/-- Symbols are only taken from the operands, and from the names in a text. -/
theorem no_symbol_is_invented [Numeral α] :
    (∀ (e : Expr α) name, e.contains name = true ↔ name ∈ e.freeSymbols) ∧
      (∀ ts : List (Expr α), (add ts).freeSymbols ⊆ ts.flatMap freeSymbols) ∧
      (∀ fs : List (Expr α), (mul fs).freeSymbols ⊆ fs.flatMap freeSymbols) ∧
      (∀ b e : Expr α, (pow b e).freeSymbols ⊆ b.freeSymbols ++ e.freeSymbols) ∧
      (∀ f (args : List (Expr α)), (apply f args).freeSymbols ⊆ args.flatMap freeSymbols) ∧
      (∀ name (e : Expr α), (derivative name e).freeSymbols ⊆ e.freeSymbols) ∧
      (∀ (e : Expr α) name r,
        (e.substitute name r).freeSymbols ⊆ e.freeSymbols.filter (· ≠ name) ++ r.freeSymbols) ∧
      (∀ (e : Expr α) name r, name ∉ r.freeSymbols → name ∉ (e.substitute name r).freeSymbols) ∧
      ∀ v text (e : Expr α), parse v text = .ok e →
        ∀ s ∈ e.freeSymbols, .name s ∈ Token.tokens text.toList :=
  ⟨fun _ _ => contains_iff_mem_freeSymbols, freeSymbols_add_subset, freeSymbols_mul_subset,
    freeSymbols_pow_subset, freeSymbols_apply_subset, freeSymbols_derivative_subset,
    freeSymbols_substitute_subset, fun e _ _ => not_mem_freeSymbols_substitute e,
    fun _ _ _ hparse s hs => name_mem_tokens_of_parse hparse s (mem_freeSymbols.mp hs)⟩

/-- The symbol `x` is in the text, and is gone after `y` has been substituted for it. -/
theorem no_symbol_is_invented_substituted :
    ∃ e : Expr Float, parse (.ofList ["x", "y"]) "x**y + sin(x)*pi" = .ok e ∧
      (∀ s ∈ e.freeSymbols, .name s ∈ Token.tokens "x**y + sin(x)*pi".toList) ∧
      "x" ∉ (e.substitute "x" (symbol "y")).freeSymbols := by
  have hparse : (parse (.ofList ["x", "y"]) "x**y + sin(x)*pi" :
      Except ExprFault (Expr Float)).toOption.isSome = true := by decide +kernel
  obtain ⟨e, he⟩ := Option.isSome_iff_exists.mp hparse
  have he := Formula.eq_ok_of_toOption he
  obtain ⟨-, -, -, -, -, -, -, helimination, htext⟩ := no_symbol_is_invented (α := Float)
  exact ⟨e, he, htext _ _ e he, helimination e "x" (symbol "y") (by decide)⟩

end EquationCompiler.Expr
