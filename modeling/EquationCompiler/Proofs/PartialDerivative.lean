import EquationCompiler.Proofs.DerivativeValue
import Mathlib.Analysis.Calculus.Deriv.ZPow
import Mathlib.Analysis.SpecialFunctions.Complex.LogDeriv

/-!
# Partial derivatives

The infinitesimal part of an expression is the derivative of its value, as a
function of the symbol `x`, wherever no angle lies on the negative half of the
axis. There an angle jumps, and only the rule for its differential is left.
-/
namespace EquationCompiler
open TrivSqZeroExt Filter Topology

/-- An angle is continuous at the point: it is not on the closed negative half of the axis. -/
def Elementary.OffCutAt : Elementary → List ℝ → Prop
  | .atan2, [y, x] => 0 < x ∨ y ≠ 0
  | _, _ => True

namespace Expr

section
variable {α : Type} [RealValued α] (ρ : String → Option ℝ)

mutual
/-- Every angle is continuous where it is taken. -/
def OffCut : Expr α → Prop
  | number _ | constant _ | symbol _ => True
  | sum es | product es => OffCutAll es
  | power b e => OffCut b ∧ OffCut e
  | call f args => OffCutAll args ∧ f.OffCutAt (args.map (value ρ))
def OffCutAll : List (Expr α) → Prop
  | [] => True
  | e :: es => OffCut e ∧ OffCutAll es
end

@[simp] theorem offCutAll_iff (es : List (Expr α)) :
    OffCutAll ρ es ↔ ∀ e ∈ es, e.OffCut ρ := by
  induction es with
  | nil => simp [OffCutAll]
  | cons e es ih => simp [OffCutAll, ih]

@[simp] theorem offCut_sum (ts : List (Expr α)) :
    (sum ts).OffCut ρ ↔ ∀ t ∈ ts, t.OffCut ρ := by simp [OffCut]

@[simp] theorem offCut_product (fs : List (Expr α)) :
    (product fs).OffCut ρ ↔ ∀ f ∈ fs, f.OffCut ρ := by simp [OffCut]

@[simp] theorem offCut_power (b e : Expr α) :
    (power b e).OffCut ρ ↔ b.OffCut ρ ∧ e.OffCut ρ := by simp [OffCut]

@[simp] theorem offCut_call (f : Elementary) (args : List (Expr α)) :
    (call f args).OffCut ρ ↔
      (∀ a ∈ args, a.OffCut ρ) ∧ f.OffCutAt (args.map (value ρ)) := by simp [OffCut]

end

/-- The domain of a function of one argument contains all points near a smooth one. -/
lemma eventually_definedAt {f : Elementary} (hf : f ≠ .atan2) {w : ℝ → ℝ} {a : ℝ}
    (hw : ContinuousAt w a) (hs : f.SmoothAt [w a]) : ∀ᶠ t in 𝓝 a, f.DefinedAt [w t] := by
  cases f with
  | tan => exact (Real.continuous_cos.continuousAt.comp hw).eventually_ne hs
  | asin | acos =>
    filter_upwards [hw.eventually_const_lt hs.1, hw.eventually_lt_const hs.2] with t h1 h2
    exact ⟨h1.le, h2.le⟩
  | log => exact hw.eventually_const_lt hs
  | atan2 => exact absurd rfl hf
  | _ => exact .of_forall fun _ => rfl

/-- The angle of a moving point that is off the cut. -/
lemma hasDerivAt_angle {v u : ℝ → ℝ} {v' u' a : ℝ} (hv : HasDerivAt v v' a)
    (hu : HasDerivAt u u' a) (hcut : 0 < u a ∨ v a ≠ 0) :
    HasDerivAt (fun t => Complex.arg ⟨u t, v t⟩)
      ((u a * v' - v a * u') / (u a ^ 2 + v a ^ 2)) a := by
  have hpoint : HasDerivAt (fun t => (⟨u t, v t⟩ : ℂ)) ⟨u', v'⟩ a := by
    have h := hu.ofReal_comp.add (hv.ofReal_comp.mul_const Complex.I)
    simpa only [Complex.mk_eq_add_mul_I] using! h
  have hlog := hpoint.clog_real (Complex.mem_slitPlane_iff.mpr hcut)
  have him := Complex.imCLM.hasFDerivAt.comp_hasDerivAt a hlog
  have hangle : HasDerivAt (fun t => Complex.arg ⟨u t, v t⟩)
      ((⟨u', v'⟩ : ℂ) / ⟨u a, v a⟩).im a := by
    simpa [Function.comp_def, Complex.log_im] using him
  convert hangle using 1
  rw [Complex.div_im, Complex.normSq_mk]
  ring

/-- The assignment with the value `t` for the symbol `x`. -/
noncomputable def along (ρ : String → Option ℝ) (x : String) (t : ℝ) : String → Option ℝ :=
  Function.update ρ x (some t)

variable {α : Type} {ρ : String → Option ℝ} {x : String} {a : ℝ}

lemma along_self (h : ρ x = some a) : along ρ x a = ρ := by
  rw [along, ← h, Function.update_eq_self]

/-- Near the value `a` of `x` the expression stays defined, and its value has the infinitesimal
part as its derivative. -/
structure Tangent [RealValued α] (ρ : String → Option ℝ) (x : String) (a : ℝ) (e : Expr α) :
    Prop where
  defined : ∀ᶠ t in 𝓝 a, e.Defined (along ρ x t)
  hasDerivAt : HasDerivAt (fun t => e.value (along ρ x t)) (e.dual (nudge ρ x)).snd a

section
variable [RealValued α]

lemma Tangent.all_defined {es : List (Expr α)} (h : ∀ e ∈ es, Tangent ρ x a e) :
    ∀ᶠ t in 𝓝 a, ∀ e ∈ es, e.Defined (along ρ x t) := by
  induction es with
  | nil => simp
  | cons e es ih =>
    rw [List.forall_mem_cons] at h
    filter_upwards [h.1.defined, ih h.2] with t he hes
    exact List.forall_mem_cons.mpr ⟨he, hes⟩

/-- The value at `a` itself. -/
lemma value_along_self (hx : ρ x = some a) (e : Expr α) :
    e.value (along ρ x a) = e.value ρ := by rw [along_self hx]

lemma tangent_sum {ts : List (Expr α)} (h : ∀ t ∈ ts, Tangent ρ x a t) :
    Tangent ρ x a (sum ts) := by
  refine ⟨by simpa using Tangent.all_defined h, ?_⟩
  simp only [value_sum, dual, duals_eq_map, snd_list_sum, List.map_map]
  induction ts with
  | nil => simpa using hasDerivAt_const a (0 : ℝ)
  | cons t ts ih =>
    rw [List.forall_mem_cons] at h
    simpa using! h.1.hasDerivAt.add (ih h.2)

lemma tangent_product (hx : ρ x = some a) {fs : List (Expr α)}
    (h : ∀ f ∈ fs, Tangent ρ x a f) : Tangent ρ x a (product fs) := by
  refine ⟨by simpa using Tangent.all_defined h, ?_⟩
  simp only [value_product, dual, duals_eq_map]
  induction fs with
  | nil => simpa using hasDerivAt_const a (1 : ℝ)
  | cons f fs ih =>
    rw [List.forall_mem_cons] at h
    have hprod : (fs.map (dual (nudge ρ x))).prod.fst = (fs.map (value (along ρ x a))).prod := by
      rw [fst_list_prod, List.map_map, map_fst_dual, along_self hx]
    simp only [List.map_cons, List.prod_cons, snd_mul, fst_dual, hprod, smul_eq_mul,
      MulOpposite.smul_eq_mul_unop, MulOpposite.unop_op]
    refine (h.1.hasDerivAt.fun_mul (ih h.2)).congr_deriv ?_
    rw [value_along_self hx]
    ring

/-- A power with a positive base, and one with a whole exponent. -/
lemma tangent_power (hx : ρ x = some a) {b e : Expr α} (hb : Tangent ρ x a b)
    (he : Tangent ρ x a e) (hpower : PowerDefined (b.value ρ) (e.value ρ))
    (hbase : 0 < b.value ρ ∨ e.IsIntegerNumber) : Tangent ρ x a (power b e) := by
  have hcontinuous := hb.hasDerivAt.continuousAt
  rcases hbase with hpos | ⟨c, n, rfl, hc⟩
  · rw [← value_along_self hx] at hpos
    constructor
    · filter_upwards [hb.defined, he.defined, hcontinuous.eventually_const_lt hpos] with t h1 h2 h3
      exact (defined_power _ b e).mpr ⟨h1, h2, .of_pos h3 _⟩
    · simp only [value_power]
      refine (hb.hasDerivAt.rpow he.hasDerivAt hpos).congr_deriv ?_
      simp [dual, dualPower, fst_dual, value_along_self hx]
      ring
  · rw [value_number, hc] at hpower
    rw [← value_along_self hx] at hpower
    have hsafe : b.value (along ρ x a) ≠ 0 ∨ 0 ≤ n := by
      by_cases h0 : b.value (along ρ x a) = 0
      · exact .inr (by exact_mod_cast hpower.nonneg_of_zero h0)
      · exact .inl h0
    have hnear : ∀ᶠ t in 𝓝 a, b.value (along ρ x t) = 0 → 0 ≤ n := by
      rcases hsafe with hne | hn
      · exact (hcontinuous.eventually_ne hne).mono fun t h h0 => absurd h0 h
      · exact .of_forall fun _ _ => hn
    constructor
    · filter_upwards [hb.defined, hnear] with t h1 h2
      exact (defined_power _ b _).mpr ⟨h1, by simp, by simpa [hc] using .of_int n h2⟩
    · simp only [value_power, value_number, hc, Real.rpow_intCast]
      refine ((hasDerivAt_zpow n _ hsafe).comp a hb.hasDerivAt).congr_deriv ?_
      rw [value_along_self hx]
      simp [dual, dualPower, fst_dual, hc, ← Real.rpow_intCast]

end

/-- A function of one argument by the chain rule, and the angle of a point. -/
lemma tangent_call [ExactScalar α] (hx : ρ x = some a) {f : Elementary} {args : List (Expr α)}
    (h : ∀ u ∈ args, Tangent ρ x a u) (hargs : ∀ u ∈ args, u.Defined ρ)
    (hlength : args.length = f.arity) (hs : f.SmoothAt (args.map (value ρ)))
    (hcut : f.OffCutAt (args.map (value ρ))) : Tangent ρ x a (call f args) := by
  by_cases hf : f = .atan2
  · subst hf
    obtain ⟨v, u, rfl⟩ := List.length_eq_two.mp hlength
    have hv := h v (by simp)
    have hu := h u (by simp)
    constructor
    · filter_upwards [hv.defined, hu.defined] with t h1 h2
      exact (defined_call _ _ _).mpr ⟨by simpa using ⟨h1, h2⟩, rfl⟩
    · have hangle := hasDerivAt_angle hv.hasDerivAt hu.hasDerivAt
        (by simpa [value_along_self hx] using! hcut)
      simp only [value_call]
      refine hangle.congr_deriv ?_
      simp [dual, Elementary.dual, fst_dual, value_along_self hx]
  · have hone : f.arity = 1 := by cases f <;> first | rfl | exact absurd rfl hf
    obtain ⟨u, rfl⟩ := List.length_eq_one_iff.mp (hlength.trans hone)
    have hu := h u (by simp)
    have hsmooth : f.SmoothAt [u.value (along ρ x a)] := by rwa [value_along_self hx]
    have hderiv := (outerDerivative_spec hf (hargs u (by simp)) hs).2.differentiableAt.hasDerivAt
    constructor
    · filter_upwards [hu.defined,
        eventually_definedAt hf hu.hasDerivAt.continuousAt hsmooth] with t h1 h2
      exact (defined_call _ _ _).mpr ⟨by simpa using h1, h2⟩
    · rw [← value_along_self hx] at hderiv
      simp only [value_call]
      refine (hderiv.comp a hu.hasDerivAt).congr_deriv ?_
      rw [value_along_self hx, snd_dual_call_one hf]

variable [ExactScalar α]

mutual
/-- By induction on the expression, with one rule for each constructor. -/
theorem tangent (hx : ρ x = some a) (e : Expr α) (hd : e.Defined ρ) (hs : e.Smooth ρ)
    (hcut : e.OffCut ρ) : Tangent ρ x a e := by
  cases e with
  | number c => exact ⟨by simp, by simpa [dual] using hasDerivAt_const a (toReal c)⟩
  | constant c => exact ⟨by simp, by simpa [dual] using hasDerivAt_const a c.real⟩
  | symbol s =>
    obtain ⟨v, hv⟩ := Option.isSome_iff_exists.mp ((defined_symbol ρ s).mp hd)
    obtain rfl | hne := eq_or_ne s x
    · exact ⟨by simp [along], by simpa [along, dual, nudge, hv] using hasDerivAt_id' a⟩
    · exact ⟨by simp [along, hne, hv],
        by simpa [along, dual, nudge, hv, hne] using hasDerivAt_const a v⟩
  | sum ts =>
    exact tangent_sum (tangents hx ts ((defined_sum ρ ts).mp hd) ((smooth_sum ρ ts).mp hs)
      ((offCut_sum ρ ts).mp hcut))
  | product fs =>
    exact tangent_product hx (tangents hx fs ((defined_product ρ fs).mp hd)
      ((smooth_product ρ fs).mp hs) ((offCut_product ρ fs).mp hcut))
  | power b e =>
    obtain ⟨hb, he, hpower⟩ := (defined_power ρ b e).mp hd
    obtain ⟨hsb, hse, hbase⟩ := (smooth_power ρ b e).mp hs
    obtain ⟨hcb, hce⟩ := (offCut_power ρ b e).mp hcut
    exact tangent_power hx (tangent hx b hb hsb hcb) (tangent hx e he hse hce) hpower hbase
  | call f args =>
    obtain ⟨hargs, hf⟩ := (defined_call ρ f args).mp hd
    obtain ⟨hsargs, hsf⟩ := (smooth_call ρ f args).mp hs
    obtain ⟨hcargs, hcf⟩ := (offCut_call ρ f args).mp hcut
    exact tangent_call hx (tangents hx args hargs hsargs hcargs) hargs
      (by simpa using hf.length_eq) hsf hcf
theorem tangents (hx : ρ x = some a) (es : List (Expr α)) (hd : ∀ e ∈ es, e.Defined ρ)
    (hs : ∀ e ∈ es, e.Smooth ρ) (hcut : ∀ e ∈ es, e.OffCut ρ) :
    ∀ e ∈ es, Tangent ρ x a e := by
  match es with
  | [] => simp
  | e :: es =>
    rw [List.forall_mem_cons] at hd hs hcut
    exact List.forall_mem_cons.mpr
      ⟨tangent hx e hd.1 hs.1 hcut.1, tangents hx es hd.2 hs.2 hcut.2⟩
end

open RealScalar in
/-- Where an expression is defined and all its parts are differentiable, its derivative by `x` is
defined and evaluates to the coefficient of `ε` that the expression has at `x + ε`. If `x` has a
value and no angle is on the cut, then that is the derivative of the value by `x`. -/
theorem hasValue_derivative (bindings : Bindings ℝ) (x : String) (e : Expr ℝ)
    (hd : e.Defined bindings.value?) (hs : e.Smooth bindings.value?)
    (hfree : LimitFree fun limit => @derivative ℝ (limited limit) x e) :
    HasValue bindings (e.derivative x) (e.dual (nudge bindings.value? x)).snd ∧
    ∀ a, bindings.value? x = some a → e.OffCut bindings.value? →
      ∃ v : ℝ → ℝ, (∀ᶠ t in 𝓝 a, HasValue (bindings ++ [(x, t)]) e (v t)) ∧
        HasDerivAt v (e.dual (nudge bindings.value? x)).snd a := by
  let _ := exact (le_refl (10 ^ 15))
  constructor
  · rw [hfree.eq_exact, hasValue_iff]
    exact isSlope_derivative e hd hs
  · intro a hx hcut
    obtain ⟨hnear, hderiv⟩ := tangent hx e hd hs hcut
    refine ⟨_, hnear.mono fun t ht => ?_, hderiv⟩
    rw [hasValue_iff, value?_append, ← along]
    exact ⟨ht, rfl⟩

open RealScalar in
lemma derivative_square (limit : ℕ) :
    @derivative ℝ (limited limit) "x" (power (symbol "x") (number 2)) =
      product [number 2, symbol "x"] := by
  have hlowered : @add ℝ (limited limit) [number 2, number (-1)] = number 1 := by
    have htotal : (2 : ℝ) + -1 = 1 := by norm_num
    simp [add, addWith, collect, termsAll, terms, Collected.insert, Scalar.isZero, collapse, htotal]
  simp [derivative, powerRule, contains, hlowered, pow, powWith, isZero, isOne, Scalar.isZero,
    Scalar.isOne, mul, mulAt, mulWith, collectPowers, factorsAll, factors, depthAll, depth,
    Powers.insert, splitPower, collectPower, Folded.push, foldReciprocal?, Folded.toExpr, collapse]

theorem hasValue_derivative_square :
    HasValue [("x", 3)] (derivative "x" (power (symbol "x") (number 2))) 6 ∧
    ∃ v : ℝ → ℝ, (∀ᶠ t in 𝓝 3, HasValue [("x", 3), ("x", t)] (power (symbol "x") (number 2)) (v t)) ∧
      HasDerivAt v 6 3 := by
  have hx : (Bindings.value? [("x", (3 : ℝ))]) "x" = some 3 := by simp [Bindings.value?]
  have hslope : ((power (symbol "x") (number (2 : ℝ))).dual
      (nudge (Bindings.value? [("x", 3)]) "x")).snd = 6 := by
    simp [dual, dualPower, nudge, hx]
    norm_num
  obtain ⟨hvalue, hderiv⟩ := hasValue_derivative [("x", 3)] "x" (power (symbol "x") (number 2))
    (by simpa [hx] using PowerDefined.of_pos three_pos 2) (by simp [Smooth, hx])
    (.of_eq _ fun limit _ => derivative_square limit)
  rw [hslope] at hvalue hderiv
  exact ⟨hvalue, hderiv 3 hx (by simp [OffCut])⟩

end Expr

end EquationCompiler
