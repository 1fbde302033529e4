import EquationCompiler.Proofs.FunctionDerivative

/-!
# Derivatives are the infinitesimal parts

Where an expression is defined and all its parts are differentiable, its
derivative by `x` is defined, and its value is the coefficient of `ε` when the
expression is evaluated with `x + ε` in place of `x`. There is one lemma for each
rule of differentiation.
-/
namespace EquationCompiler.Expr
open TrivSqZeroExt
variable {α : Type} [ExactScalar α] {ρ : String → Option ℝ} {x : String}

/-- The derivative by `x` is defined and is the coefficient of `ε`. -/
def IsSlope (ρ : String → Option ℝ) (x : String) (e d : Expr α) : Prop :=
  d.Defined ρ ∧ d.value ρ = (e.dual (nudge ρ x)).snd

/-- The rule for two factors, the second of which is the product of all others. -/
lemma snd_prod_dual_cons (f : Expr α) (fs : List (Expr α)) :
    ((f :: fs).map (dual (nudge ρ x))).prod.snd =
      f.value ρ * (fs.map (dual (nudge ρ x))).prod.snd +
        (fs.map (value ρ)).prod * (f.dual (nudge ρ x)).snd := by
  have hprod : (fs.map (dual (nudge ρ x))).prod.fst = (fs.map (value ρ)).prod := by
    rw [fst_list_prod, List.map_map, map_fst_dual]
  simp only [List.map_cons, List.prod_cons, snd_mul, fst_dual, hprod, smul_eq_mul,
    MulOpposite.smul_eq_mul_unop, MulOpposite.unop_op]
  rw [mul_comm (f.dual _).snd]

/-- The terms of the product rule add up to the product of the factors already passed and the
infinitesimal part of the others. -/
theorem productTerms_spec (before fs : List (Expr α)) (ds : List (Expr α))
    (hbefore : ∀ f ∈ before, f.Defined ρ) (hfs : ∀ f ∈ fs, f.Defined ρ)
    (hds : List.Forall₂ (IsSlope ρ x) fs ds) :
    (∀ t ∈ productTerms before fs ds, t.Defined ρ) ∧
      ((productTerms before fs ds).map (value ρ)).sum =
        (before.map (value ρ)).prod * (fs.map (dual (nudge ρ x))).prod.snd := by
  induction hds generalizing before with
  | nil => simp [productTerms]
  | @cons f d fs ds hd _ ih =>
    obtain ⟨hf, hfs⟩ := List.forall_mem_cons.mp hfs
    obtain ⟨hlater, hsum⟩ := ih (before ++ [f]) (by
      intro g hg
      rcases List.mem_append.mp hg with hg | hg
      · exact hbefore g hg
      · rwa [List.mem_singleton.mp hg]) hfs
    have hrule : (before.map (value ρ)).prod * ((f :: fs).map (dual (nudge ρ x))).prod.snd =
        (before.map (value ρ)).prod * (fs.map (value ρ)).prod * d.value ρ +
          ((productTerms (before ++ [f]) fs ds).map (value ρ)).sum := by
      rw [hsum, hd.2, snd_prod_dual_cons]
      simp only [List.map_append, List.map_cons, List.map_nil, List.prod_append, List.prod_cons,
        List.prod_nil, mul_one]
      ring
    rw [hrule]
    simp only [productTerms]
    split_ifs with hz
    · exact ⟨hlater, by rw [isZero_eq_true hz, mul_zero, zero_add]⟩
    · have hfactors : ∀ g ∈ before ++ fs ++ [d], g.Defined ρ := by
        intro g hg
        simp only [List.mem_append, List.mem_singleton] at hg
        rcases hg with (hg | hg) | rfl
        · exact hbefore g hg
        · exact hfs g hg
        · exact hd.1
      refine ⟨List.forall_mem_cons.mpr ⟨defined_mul hfactors, hlater⟩, ?_⟩
      rw [List.map_cons, List.sum_cons, value_mul hfactors]
      simp [mul_assoc]

lemma isSlope_productRule {fs ds : List (Expr α)} (hfs : ∀ f ∈ fs, f.Defined ρ)
    (hds : List.Forall₂ (IsSlope ρ x) fs ds) :
    IsSlope ρ x (product fs) (add (productTerms [] fs ds)) := by
  obtain ⟨hterms, hsum⟩ := productTerms_spec [] fs ds (by simp) hfs hds
  refine ⟨defined_add hterms, ?_⟩
  rw [value_add hterms, hsum, dual, duals_eq_map]
  simp

/-- A product with the number zero among its coefficients is zero, even where it is not defined. -/
lemma mul_number_zero {c : α} (hc : toReal c = 0) (fs : List (Expr α)) :
    mul (number c :: fs) = number Scalar.zero := by
  have hinsert (add : List (Expr α) → Expr α) (es : List (Expr α)) (p : Powers α)
      (hp : toReal p.coefficient = 0) : toReal (es.foldl (Powers.insert add) p).coefficient = 0 := by
    induction es generalizing p with
    | nil => exact hp
    | cons e es ih =>
      refine ih _ ?_
      unfold Powers.insert
      split
      · simp [hp]
      · exact hp
  have hcollect (add : List (Expr α) → Expr α) :
      Scalar.isZero (collectPowers add (number c :: fs)).coefficient = true := by
    rw [ExactScalar.isZero_iff, collectPowers, factorsAll, factors, List.singleton_append,
      List.foldl_cons]
    exact hinsert _ _ _ (by simp [Powers.insert, hc])
  rw [mul, mulAt, mulWith]
  simp [hcollect]

/-- The exponent lowered by one. -/
lemma lowered_spec {e : Expr α} (he : e.Defined ρ) :
    (add [e, number (-Scalar.one)]).Defined ρ ∧
      (add [e, number (-Scalar.one)]).value ρ = e.value ρ - 1 := by
  have hterms : ∀ t ∈ [e, number (-Scalar.one)], t.Defined ρ := by simpa using he
  refine ⟨defined_add hterms, ?_⟩
  rw [value_add hterms]
  simp [sub_eq_add_neg]

section
variable {b e db de : Expr α} (hb : b.Defined ρ) (he : e.Defined ρ)
include hb he

/-- The power rule where the lowered power is defined. -/
lemma powerRule_spec (hdb : db.Defined ρ) (hpower : PowerDefined (b.value ρ) (e.value ρ - 1)) :
    (powerRule b e db).Defined ρ ∧
      (powerRule b e db).value ρ = e.value ρ * b.value ρ ^ (e.value ρ - 1) * db.value ρ := by
  obtain ⟨hl, hlv⟩ := lowered_spec he
  have hfactors : ∀ f ∈ [e, pow b (add [e, number (-Scalar.one)]), db], f.Defined ρ := by
    simpa using ⟨he, defined_pow hb hl (hlv ▸ hpower), hdb⟩
  refine ⟨defined_mul hfactors, ?_⟩
  rw [powerRule, value_mul hfactors]
  simp [value_pow hb hl (hlv ▸ hpower), hlv, mul_assoc]

lemma exponentialRule_spec (hpos : 0 < b.value ρ) (hdb : db.Defined ρ) (hde : de.Defined ρ) :
    (exponentialRule b e db de).Defined ρ ∧
      (exponentialRule b e db de).value ρ = b.value ρ ^ e.value ρ *
        (de.value ρ * Real.log (b.value ρ) + e.value ρ * db.value ρ * (b.value ρ)⁻¹) := by
  have hpower := PowerDefined.of_pos hpos (e.value ρ)
  have hlog : ∀ f ∈ [de, apply .log [b]], f.Defined ρ := by
    simpa using ⟨hde, defined_apply_one hb hpos⟩
  have hratio : ∀ f ∈ [e, db, pow b (number (-Scalar.one))], f.Defined ρ := by
    simpa using ⟨he, hdb, defined_reciprocal hb hpos.ne'⟩
  have hsum : ∀ t ∈ [mul [de, apply .log [b]], mul [e, db, pow b (number (-Scalar.one))]],
      t.Defined ρ := by
    simpa using ⟨defined_mul hlog, defined_mul hratio⟩
  have hfactors : ∀ f ∈ [pow b e, add [mul [de, apply .log [b]],
      mul [e, db, pow b (number (-Scalar.one))]]], f.Defined ρ := by
    simpa using ⟨defined_pow hb he hpower, defined_add hsum⟩
  refine ⟨defined_mul hfactors, ?_⟩
  rw [exponentialRule, value_mul hfactors]
  simp [value_pow hb he hpower, value_add hsum, value_mul hlog, value_mul hratio,
    value_apply_one (f := .log) hb hpos, value_reciprocal hb hpos.ne', Elementary.real, mul_assoc]

lemma isSlope_exponentialRule (hpos : 0 < b.value ρ) (hdb : IsSlope ρ x b db)
    (hde : IsSlope ρ x e de) : IsSlope ρ x (power b e) (exponentialRule b e db de) := by
  obtain ⟨hrule, hvalue⟩ := exponentialRule_spec hb he hpos hdb.1 hde.1
  refine ⟨hrule, ?_⟩
  rw [hvalue, hdb.2, hde.2]
  simp [dual, dualPower, fst_dual, Real.rpow_sub_one hpos.ne']
  ring

/-- The power rule also where the lowered power is not defined: there the exponent is zero, and it is
a factor of the rule. -/
lemma isSlope_powerRule (hpower : PowerDefined (b.value ρ) (e.value ρ))
    (hbase : 0 < b.value ρ ∨ e.IsIntegerNumber) (hdb : IsSlope ρ x b db)
    (hx : e.contains x = false) : IsSlope ρ x (power b e) (powerRule b e db) := by
  have hslope : ((power b e).dual (nudge ρ x)).snd =
      e.value ρ * b.value ρ ^ (e.value ρ - 1) * (b.dual (nudge ρ x)).snd := by
    simp [dual, dualPower, fst_dual, snd_dual_eq_zero ρ x e hx]
  by_cases hzero : e.IsIntegerNumber ∧ e.value ρ = 0
  · obtain ⟨⟨c, n, rfl, -⟩, hc⟩ := hzero
    rw [value_number] at hc
    refine ⟨?_, ?_⟩
    · simp [powerRule, mul_number_zero hc]
    · simp [powerRule, mul_number_zero hc, hslope, hc]
  · have hlowered : PowerDefined (b.value ρ) (e.value ρ - 1) := by
      rcases hbase with hpos | hinteger
      · exact .of_pos hpos _
      · obtain ⟨c, n, rfl, hc⟩ := hinteger
        have hn : n ≠ 0 := by
          rintro rfl
          exact hzero ⟨⟨c, 0, rfl, hc⟩, by simpa using hc⟩
        rw [value_number, hc] at hpower ⊢
        exact hpower.pred_int hn
    obtain ⟨hrule, hvalue⟩ := powerRule_spec hb he hdb.1 hlowered
    exact ⟨hrule, by rw [hvalue, hdb.2, hslope]⟩

end

/-- The differential of the angle of a point that is not the origin. -/
lemma angleRule_spec {v u dv du : Expr α} (hv : v.Defined ρ) (hu : u.Defined ρ)
    (hdv : dv.Defined ρ) (hdu : du.Defined ρ) (h : ¬(v.value ρ = 0 ∧ u.value ρ = 0)) :
    (angleRule v u dv du).Defined ρ ∧
      (angleRule v u dv du).value ρ =
        (u.value ρ * dv.value ρ - v.value ρ * du.value ρ) / (u.value ρ ^ 2 + v.value ρ ^ 2) := by
  have hleft : ∀ f ∈ [u, dv], f.Defined ρ := by simpa using ⟨hu, hdv⟩
  have hright : ∀ f ∈ [v, du], f.Defined ρ := by simpa using ⟨hv, hdu⟩
  have hsquares : ∀ t ∈ [square u, square v], t.Defined ρ := by
    simpa using ⟨defined_square hu, defined_square hv⟩
  have hnorm : (add [square u, square v]).value ρ = u.value ρ ^ 2 + v.value ρ ^ 2 := by
    rw [value_add hsquares]
    simp [value_square hu, value_square hv]
  have hne : (add [square u, square v]).value ρ ≠ 0 := by
    rw [hnorm]
    intro h0
    exact h ⟨by nlinarith [sq_nonneg (u.value ρ), sq_nonneg (v.value ρ)],
      by nlinarith [sq_nonneg (u.value ρ), sq_nonneg (v.value ρ)]⟩
  have hdiff := defined_sub (defined_mul hleft) (defined_mul hright)
  refine ⟨defined_div hdiff (defined_add hsquares) hne, ?_⟩
  rw [angleRule, value_div hdiff (defined_add hsquares) hne,
    value_sub (defined_mul hleft) (defined_mul hright), value_mul hleft, value_mul hright, hnorm]
  simp

/-- The infinitesimal part of a function of one argument. -/
lemma snd_dual_call_one {f : Elementary} (hf : f ≠ .atan2) (u : Expr α) :
    ((call f [u]).dual (nudge ρ x)).snd =
      deriv (fun t => f.real [t]) (u.value ρ) * (u.dual (nudge ρ x)).snd := by
  have hdual : (call f [u]).dual (nudge ρ x) = inl (f.real [u.value ρ]) +
      inr (deriv (fun t => f.real [t]) (u.value ρ) * (u.dual (nudge ρ x)).snd) := by
    rw [dual, duals_eq_map, ← fst_dual ρ x u]
    cases f <;> trivial
  simp [hdual]

/-- One case for functions of one argument and one for the angle of a point. -/
lemma chainRule_spec {f : Elementary} {args ds : List (Expr α)}
    (hargs : ∀ a ∈ args, a.Defined ρ) (hlength : args.length = f.arity)
    (hs : f.SmoothAt (args.map (value ρ))) (hds : List.Forall₂ (IsSlope ρ x) args ds) :
    IsSlope ρ x (call f args) (chainRule f args ds) := by
  by_cases hf : f = .atan2
  · subst hf
    obtain ⟨v, u, rfl⟩ := List.length_eq_two.mp hlength
    obtain ⟨dv, _, hdv, htail, rfl⟩ := List.forall₂_cons_left_iff.mp hds
    obtain ⟨du, _, hdu, hnil, rfl⟩ := List.forall₂_cons_left_iff.mp htail
    obtain rfl := List.forall₂_nil_left_iff.mp hnil
    have hangle := angleRule_spec (hargs v (by simp)) (hargs u (by simp)) hdv.1 hdu.1 hs
    refine ⟨hangle.1, ?_⟩
    rw [chainRule, hangle.2, hdv.2, hdu.2]
    simp [dual, Elementary.dual, fst_dual]
  · have hone : f.arity = 1 := by cases f <;> first | rfl | exact absurd rfl hf
    obtain ⟨u, rfl⟩ := List.length_eq_one_iff.mp (hlength.trans hone)
    obtain ⟨du, _, hdu, hnil, rfl⟩ := List.forall₂_cons_left_iff.mp hds
    obtain rfl := List.forall₂_nil_left_iff.mp hnil
    have hu := hargs u (by simp)
    obtain ⟨hd, hderiv⟩ := outerDerivative_spec hf hu hs
    have hfactors : ∀ g ∈ [outerDerivative f u, du], g.Defined ρ := by simpa using ⟨hd, hdu.1⟩
    have hrule : chainRule f [u] [du] = mul [outerDerivative f u, du] := by
      cases f <;> first | rfl | exact absurd rfl hf
    refine ⟨hrule ▸ defined_mul hfactors, ?_⟩
    rw [hrule, value_mul hfactors, snd_dual_call_one hf, hderiv.deriv]
    simp [hdu.2]

lemma isSlope_zero {e : Expr α} (h : e.contains x = false) :
    IsSlope ρ x e (number Scalar.zero) := by
  simp [IsSlope, snd_dual_eq_zero ρ x e h]

/-- The sum rule. -/
lemma sumRule_spec {ts ds : List (Expr α)} (hds : List.Forall₂ (IsSlope ρ x) ts ds) :
    IsSlope ρ x (sum ts) (add ds) := by
  have hdefined : ∀ d ∈ ds, d.Defined ρ := by
    induction hds with
    | nil => simp
    | cons hd _ ih => exact List.forall_mem_cons.mpr ⟨hd.1, ih⟩
  refine ⟨defined_add hdefined, ?_⟩
  rw [value_add hdefined, dual, duals_eq_map, snd_list_sum]
  clear hdefined
  induction hds with
  | nil => rfl
  | cons hd _ ih => simp [hd.2, ih]

mutual
/-- Where all parts of an expression are differentiable, its derivative is its slope. -/
theorem isSlope_derivative (e : Expr α) (hd : e.Defined ρ) (hs : e.Smooth ρ) :
    IsSlope ρ x e (e.derivative x) := by
  cases e with
  | number c => simp [IsSlope, derivative, dual]
  | constant c => simp [IsSlope, derivative, dual]
  | symbol s =>
    obtain ⟨v, hv⟩ := Option.isSome_iff_exists.mp ((defined_symbol ρ s).mp hd)
    obtain rfl | hne := eq_or_ne s x
    · simp [IsSlope, derivative, dual, nudge, hv]
    · simp [IsSlope, derivative, dual, nudge, hv, hne]
  | sum ts =>
    rw [derivative]
    split_ifs with hx
    · exact sumRule_spec
        (isSlope_derivativeAll ts ((defined_sum ρ ts).mp hd) ((smooth_sum ρ ts).mp hs))
    · exact isSlope_zero (by simpa [contains] using hx)
  | product fs =>
    rw [derivative]
    split_ifs with hx
    · have hfs := (defined_product ρ fs).mp hd
      exact isSlope_productRule hfs (isSlope_derivativeAll fs hfs ((smooth_product ρ fs).mp hs))
    · exact isSlope_zero (by simpa [contains] using hx)
  | power b e =>
    obtain ⟨hb, he, hpower⟩ := (defined_power ρ b e).mp hd
    obtain ⟨hsb, hse, hbase⟩ := (smooth_power ρ b e).mp hs
    have hdb := isSlope_derivative b hb hsb
    rw [derivative]
    split_ifs with hxe hxb
    · have hpos : 0 < b.value ρ := by
        rcases hbase with hpos | ⟨c, n, rfl, -⟩
        · exact hpos
        · simp [contains] at hxe
      exact isSlope_exponentialRule hb he hpos hdb (isSlope_derivative e he hse)
    · exact isSlope_powerRule hb he hpower hbase hdb (by simpa using hxe)
    · exact isSlope_zero (by simp_all [contains])
  | call f args =>
    obtain ⟨hargs, hf⟩ := (defined_call ρ f args).mp hd
    obtain ⟨hsargs, hsf⟩ := (smooth_call ρ f args).mp hs
    rw [derivative]
    split_ifs with hx
    · exact chainRule_spec hargs (by simpa using hf.length_eq) hsf
        (isSlope_derivativeAll args hargs hsargs)
    · exact isSlope_zero (by simpa [contains] using hx)
theorem isSlope_derivativeAll (es : List (Expr α)) (hd : ∀ e ∈ es, e.Defined ρ)
    (hs : ∀ e ∈ es, e.Smooth ρ) : List.Forall₂ (IsSlope ρ x) es (derivativeAll x es) := by
  match es with
  | [] => exact .nil
  | e :: es =>
    rw [List.forall_mem_cons] at hd hs
    exact .cons (isSlope_derivative e hd.1 hs.1) (isSlope_derivativeAll es hd.2 hs.2)
end

end EquationCompiler.Expr
