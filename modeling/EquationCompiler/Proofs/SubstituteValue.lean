import EquationCompiler.Expr.Substitute
import EquationCompiler.Proofs.SimplifyValue

/-!
# Substitution means assignment

Substituting an expression for a symbol gives the value that the original has
when the symbol stands for the value of the expression.
-/
namespace EquationCompiler.Expr
variable {α : Type}

section
variable [RealValued α] {ρ σ : String → Option ℝ}

mutual
/-- An expression that is defined under `ρ` has the same value under each `σ` that agrees with `ρ`
on the symbols of the expression. -/
theorem agree (e : Expr α) (h : ∀ s v, e.contains s = true → ρ s = some v → σ s = some v)
    (hd : e.Defined ρ) : e.Defined σ ∧ e.value σ = e.value ρ := by
  cases e with
  | number c => simp
  | constant c => simp
  | symbol s =>
    obtain ⟨v, hv⟩ := Option.isSome_iff_exists.mp ((defined_symbol ρ s).mp hd)
    simp [hv, h s v (by simp [contains]) hv]
  | sum ts =>
    obtain ⟨hts, hvalues⟩ :=
      agree_all ts (fun s v hs => h s v (by simpa [contains] using hs)) ((defined_sum ρ ts).mp hd)
    exact ⟨(defined_sum σ ts).mpr hts, by rw [value_sum, value_sum, hvalues]⟩
  | product fs =>
    obtain ⟨hfs, hvalues⟩ := agree_all fs (fun s v hs => h s v (by simpa [contains] using hs))
      ((defined_product ρ fs).mp hd)
    exact ⟨(defined_product σ fs).mpr hfs, by rw [value_product, value_product, hvalues]⟩
  | power b e =>
    obtain ⟨hb, he, hpower⟩ := (defined_power ρ b e).mp hd
    obtain ⟨hbσ, hbv⟩ := agree b (fun s v hs => h s v (by simp [contains, hs])) hb
    obtain ⟨heσ, hev⟩ := agree e (fun s v hs => h s v (by simp [contains, hs])) he
    exact ⟨(defined_power σ b e).mpr ⟨hbσ, heσ, by rwa [hbv, hev]⟩,
      by rw [value_power, value_power, hbv, hev]⟩
  | call f args =>
    obtain ⟨hargs, hf⟩ := (defined_call ρ f args).mp hd
    obtain ⟨hargsσ, hvalues⟩ :=
      agree_all args (fun s v hs => h s v (by simpa [contains] using hs)) hargs
    exact ⟨(defined_call σ f args).mpr ⟨hargsσ, by rwa [hvalues]⟩,
      by rw [value_call, value_call, hvalues]⟩
theorem agree_all (es : List (Expr α))
    (h : ∀ s v, containsAny s es = true → ρ s = some v → σ s = some v)
    (hd : ∀ e ∈ es, e.Defined ρ) :
    (∀ e ∈ es, e.Defined σ) ∧ es.map (value σ) = es.map (value ρ) := by
  match es with
  | [] => simp
  | e :: es =>
    rw [List.forall_mem_cons] at hd
    obtain ⟨he, hev⟩ := agree e (fun s v hs => h s v (by simp [containsAny, hs])) hd.1
    obtain ⟨hes, hesv⟩ := agree_all es (fun s v hs => h s v (by simp [containsAny, hs])) hd.2
    exact ⟨List.forall_mem_cons.mpr ⟨he, hes⟩, by rw [List.map_cons, List.map_cons, hev, hesv]⟩
end

/-- Assigning further symbols changes nothing where an expression is defined already. -/
lemma agree_of_extends {e : Expr α} (h : ∀ s v, ρ s = some v → σ s = some v)
    (hd : e.Defined ρ) : e.Defined σ ∧ e.value σ = e.value ρ :=
  agree e (fun s v _ => h s v) hd

/-- What a symbol stands for is of no importance to an expression without it. -/
lemma agree_of_not_contains {e : Expr α} {name : String} {v : Option ℝ}
    (h : e.contains name = false) (hd : e.Defined (Function.update ρ name v)) :
    e.Defined ρ ∧ e.value ρ = e.value (Function.update ρ name v) := by
  refine agree e (fun s w hs hw => ?_) hd
  have hne : s ≠ name := by
    rintro rfl
    simp [h] at hs
  rwa [Function.update_of_ne hne] at hw

end

section
variable [ExactScalar α] {ρ : String → Option ℝ} {name : String} {r : Expr α}

/-- The assignment with the value of `r` for the name. -/
noncomputable def assign (ρ : String → Option ℝ) (name : String) (r : Expr α) :
    String → Option ℝ :=
  Function.update ρ name (some (r.value ρ))

mutual
theorem substitute_spec (hr : r.Defined ρ) (e : Expr α) (hd : e.Defined (assign ρ name r)) :
    (e.substitute name r).Defined ρ ∧
      (e.substitute name r).value ρ = e.value (assign ρ name r) := by
  cases e with
  | number c => simp [substitute]
  | constant c => simp [substitute]
  | symbol s =>
    by_cases hs : s = name
    · simpa [substitute, hs, assign] using hr
    · simpa [substitute, hs, assign] using hd
  | sum ts =>
    rw [substitute]
    split_ifs with hx
    · obtain ⟨hts, hvalues⟩ := substituteAll_spec hr ts ((defined_sum _ ts).mp hd)
      exact ⟨defined_add hts, by rw [value_add hts, hvalues, value_sum]⟩
    · exact agree_of_not_contains (by simpa [contains] using hx) hd
  | product fs =>
    rw [substitute]
    split_ifs with hx
    · obtain ⟨hfs, hvalues⟩ := substituteAll_spec hr fs ((defined_product _ fs).mp hd)
      exact ⟨defined_mul hfs, by rw [value_mul hfs, hvalues, value_product]⟩
    · exact agree_of_not_contains (by simpa [contains] using hx) hd
  | power b e =>
    obtain ⟨hb, he, hpower⟩ := (defined_power _ b e).mp hd
    rw [substitute]
    split_ifs with hx
    · obtain ⟨hbs, hbv⟩ := substitute_spec hr b hb
      obtain ⟨hes, hev⟩ := substitute_spec hr e he
      rw [← hbv, ← hev] at hpower
      exact ⟨defined_pow hbs hes hpower,
        by rw [value_pow hbs hes hpower, hbv, hev, value_power]⟩
    · exact agree_of_not_contains (by simpa [contains] using hx) hd
  | call f args =>
    obtain ⟨hargs, hf⟩ := (defined_call _ f args).mp hd
    rw [substitute]
    split_ifs with hx
    · obtain ⟨hs, hvalues⟩ := substituteAll_spec hr args hargs
      rw [← hvalues] at hf
      exact ⟨defined_apply hs hf, by rw [value_apply hs hf, hvalues, value_call]⟩
    · exact agree_of_not_contains (by simpa [contains] using hx) hd
theorem substituteAll_spec (hr : r.Defined ρ) (es : List (Expr α))
    (hd : ∀ e ∈ es, e.Defined (assign ρ name r)) :
    (∀ e ∈ substituteAll es name r, e.Defined ρ) ∧
      (substituteAll es name r).map (value ρ) = es.map (value (assign ρ name r)) := by
  match es with
  | [] => simp [substituteAll]
  | e :: es =>
    rw [List.forall_mem_cons] at hd
    obtain ⟨he, hev⟩ := substitute_spec hr e hd.1
    obtain ⟨hes, hesv⟩ := substituteAll_spec hr es hd.2
    exact ⟨List.forall_mem_cons.mpr ⟨he, hes⟩,
      by rw [substituteAll, List.map_cons, List.map_cons, hev, hesv]⟩
end

end

open RealScalar in
/-- Where the replacement has the value `v`, and the expression has the value `w` once the name is
bound to `v`, the expression with the replacement has the value `w`. The replacement may contain the
name, which then stands for what it stood for before. -/
theorem hasValue_substitute (bindings : Bindings ℝ) (e r : Expr ℝ) (name : String) (v w : ℝ)
    (hr : HasValue bindings r v) (he : HasValue (bindings ++ [(name, v)]) e w)
    (hfree : LimitFree fun limit => @substitute ℝ (limited limit) e name r) :
    HasValue bindings (e.substitute name r) w := by
  let _ := exact (le_refl (10 ^ 15))
  obtain ⟨hrd, rfl⟩ := hasValue_iff.mp hr
  obtain ⟨hed, rfl⟩ := hasValue_iff.mp he
  rw [value?_append] at hed ⊢
  rw [hfree.eq_exact, hasValue_iff]
  exact substitute_spec hrd e hed

open RealScalar in
/-- The bases of both reciprocals are merged. -/
lemma substitute_reciprocal (limit : ℕ) :
    @substitute ℝ (limited limit) (product [symbol "x", symbol "x"]) "x"
      (power (symbol "x") (number (-1))) = power (symbol "x") (number (-2)) := by
  have htotal : (-1 : ℝ) + -1 = -2 := by norm_num
  have hwhole : (-2 : ℝ) ≠ 1 := by norm_num
  simp [substitute, substituteAll, containsAny, contains, mul, mulAt, mulWith, depthAll, depth,
    collectPowers, factorsAll, factors, Powers.insert, splitPower, collectPower, equiv, addWith,
    collect, termsAll, terms, Collected.insert, htotal, Folded.push, foldReciprocal?, powWith,
    isZero, isOne, Scalar.isZero, Scalar.isOne, hwhole, Folded.toExpr, collapse]

theorem hasValue_substitute_reciprocal :
    HasValue [("x", 2)] (substitute (product [symbol "x", symbol "x"]) "x"
      (power (symbol "x") (number (-1)))) (1 / 4) := by
  have hx : HasValue [("x", 2)] (power (symbol "x") (number (-1))) (1 / 2) := by
    have hvalue : Bindings.value? [("x", (2 : ℝ))] "x" = some 2 := by simp [Bindings.value?]
    rw [hasValue_iff, defined_power, value_power, value_symbol, value_number, hvalue]
    exact ⟨⟨by simp [hvalue], by simp, by simpa using powerDefined_neg_one two_ne_zero⟩,
      by norm_num [Real.rpow_neg_one]⟩
  have hsquare : HasValue ([("x", 2)] ++ [("x", 1 / 2)]) (product [symbol "x", symbol "x"])
      (1 / 4) := by
    have hvalue : Bindings.value? [("x", (2 : ℝ)), ("x", 1 / 2)] "x" = some (1 / 2) := by
      simp [Bindings.value?]
    rw [List.singleton_append, hasValue_iff, defined_product, value_product]
    simp only [List.mem_cons, List.not_mem_nil, or_false, or_self, forall_eq, defined_symbol,
      List.map_cons, List.map_nil, List.prod_cons, List.prod_nil, value_symbol, hvalue]
    norm_num
  exact hasValue_substitute _ _ _ _ _ _ hx hsquare
    (.of_eq _ fun limit _ => substitute_reciprocal limit)

end EquationCompiler.Expr
