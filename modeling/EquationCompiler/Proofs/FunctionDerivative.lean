import EquationCompiler.Expr.Derivative
import EquationCompiler.Proofs.DualValue
import EquationCompiler.Proofs.SimplifyValue
import Mathlib.Analysis.Calculus.Deriv.Abs
import Mathlib.Analysis.SpecialFunctions.Pow.Deriv
import Mathlib.Analysis.SpecialFunctions.Trigonometric.ArctanDeriv
import Mathlib.Analysis.SpecialFunctions.Trigonometric.DerivHyp
import Mathlib.Analysis.SpecialFunctions.Trigonometric.InverseDeriv

/-!
# Derivatives of the elementary functions

The expression that `outerDerivative` builds is the derivative of the function at
the argument, wherever the function is differentiable.
-/
namespace EquationCompiler.Expr
variable {α : Type} [ExactScalar α] {ρ : String → Option ℝ} {u : Expr α}

lemma defined_apply_one {f : Elementary} (hu : u.Defined ρ) (hf : f.DefinedAt [u.value ρ]) :
    (apply f [u]).Defined ρ :=
  defined_apply (by simpa using hu) (by simpa using hf)

lemma value_apply_one {f : Elementary} (hu : u.Defined ρ) (hf : f.DefinedAt [u.value ρ]) :
    (apply f [u]).value ρ = f.real [u.value ρ] := by
  rw [value_apply (by simpa using hu) (by simpa using hf)]
  rfl

lemma powerDefined_two (w : ℝ) : PowerDefined w 2 := by
  simpa using PowerDefined.of_int (u := w) 2 (by norm_num)

lemma defined_square (hu : u.Defined ρ) : (square u).Defined ρ :=
  defined_pow hu (by simp) (by simpa using powerDefined_two _)

@[simp] lemma value_square (hu : u.Defined ρ) : (square u).value ρ = u.value ρ ^ 2 := by
  rw [square, value_pow hu (by simp) (by simpa using powerDefined_two _)]
  simp

/-- A negative power of two, of an expression that is not zero. -/
lemma pow_neg_two_spec (hu : u.Defined ρ) (h : u.value ρ ≠ 0) :
    (pow u (number (-Scalar.two))).Defined ρ ∧
      (pow u (number (-Scalar.two))).value ρ = 1 / u.value ρ ^ 2 := by
  have hpower : PowerDefined (u.value ρ) ((number (-Scalar.two) : Expr α).value ρ) := by
    simpa using PowerDefined.of_int (u := u.value ρ) (-2) fun h0 => absurd h0 h
  refine ⟨defined_pow hu (by simp) hpower, ?_⟩
  rw [value_pow hu (by simp) hpower, value_number, ExactScalar.toReal_neg, ExactScalar.toReal_two,
    show (-2 : ℝ) = ((-2 : ℤ) : ℝ) by norm_num, Real.rpow_intCast, zpow_neg, one_div]
  rfl

/-- The common part of the derivatives of the tangent and the hyperbolic tangent. -/
lemma reciprocal_square_spec {g : Elementary} (hu : u.Defined ρ) (hg : g.DefinedAt [u.value ρ])
    (h : g.real [u.value ρ] ≠ 0) :
    (pow (apply g [u]) (number (-Scalar.two))).Defined ρ ∧
      (pow (apply g [u]) (number (-Scalar.two))).value ρ = 1 / g.real [u.value ρ] ^ 2 := by
  have hv := value_apply_one hu hg
  have hpow := pow_neg_two_spec (defined_apply_one hu hg) (hv ▸ h)
  rwa [hv] at hpow

/-- The divisor of the derivative of the arc tangent. -/
lemma one_add_square_spec (hu : u.Defined ρ) :
    (add [number Scalar.one, square u]).Defined ρ ∧
      (add [number Scalar.one, square u]).value ρ = 1 + u.value ρ ^ 2 := by
  have hterms : ∀ t ∈ [number Scalar.one, square u], t.Defined ρ := by
    simpa using defined_square hu
  refine ⟨defined_add hterms, ?_⟩
  rw [value_add hterms]
  simp [value_square hu]

/-- The common part of the derivatives of the arc sine and the arc cosine. -/
lemma reciprocal_root_spec (hu : u.Defined ρ) (h : -1 < u.value ρ ∧ u.value ρ < 1) :
    (pow (sub (number Scalar.one) (square u)) (number (-Scalar.half))).Defined ρ ∧
      (pow (sub (number Scalar.one) (square u)) (number (-Scalar.half))).value ρ =
        1 / √(1 - u.value ρ ^ 2) := by
  have hbase : (sub (number Scalar.one) (square u)).value ρ = 1 - u.value ρ ^ 2 := by
    rw [value_sub (by simp) (defined_square hu), value_square hu]
    simp
  have hpos : 0 < 1 - u.value ρ ^ 2 := by nlinarith [h.1, h.2]
  have hd := defined_sub (a := number Scalar.one) (by simp) (defined_square hu)
  have hpower := PowerDefined.of_pos (hbase ▸ hpos) ((number (-Scalar.half) : Expr α).value ρ)
  refine ⟨defined_pow hd (by simp) hpower, ?_⟩
  rw [value_pow hd (by simp) hpower, hbase, value_number, ExactScalar.toReal_neg,
    ExactScalar.toReal_half, Real.rpow_neg hpos.le, Real.sqrt_eq_rpow, one_div, one_div]

lemma hasDerivAt_tanh (t : ℝ) : HasDerivAt Real.tanh (1 / Real.cosh t ^ 2) t := by
  have h := (Real.hasDerivAt_sinh t).div (Real.hasDerivAt_cosh t) (Real.cosh_pos t).ne'
  have hnum : Real.cosh t * Real.cosh t - Real.sinh t * Real.sinh t = 1 := by
    have := Real.cosh_sq t
    nlinarith
  rw [hnum] at h
  exact h.congr_of_eventuallyEq (.of_forall fun s => Real.tanh_eq_sinh_div_cosh s)

/-- One case for each function of one argument. -/
theorem outerDerivative_spec {f : Elementary} (hf : f ≠ .atan2) (hu : u.Defined ρ)
    (hs : f.SmoothAt [u.value ρ]) :
    (outerDerivative f u).Defined ρ ∧
      HasDerivAt (fun t => f.real [t]) ((outerDerivative f u).value ρ) (u.value ρ) := by
  cases f with
  | sin =>
    refine ⟨defined_apply_one hu rfl, ?_⟩
    rw [outerDerivative, value_apply_one (f := .cos) hu rfl]
    exact Real.hasDerivAt_sin _
  | cos =>
    have hd : (apply .sin [u]).Defined ρ := defined_apply_one hu rfl
    refine ⟨defined_neg hd, ?_⟩
    rw [outerDerivative, value_neg hd, value_apply_one (f := .sin) hu rfl]
    exact Real.hasDerivAt_cos _
  | tan =>
    have hpow := reciprocal_square_spec (g := .cos) hu rfl hs
    refine ⟨hpow.1, ?_⟩
    rw [outerDerivative, hpow.2]
    exact Real.hasDerivAt_tan hs
  | asin =>
    have hroot := reciprocal_root_spec hu hs
    refine ⟨hroot.1, ?_⟩
    rw [outerDerivative, hroot.2]
    exact Real.hasDerivAt_arcsin hs.1.ne' hs.2.ne
  | acos =>
    have hroot := reciprocal_root_spec hu hs
    refine ⟨defined_neg hroot.1, ?_⟩
    rw [outerDerivative, value_neg hroot.1, hroot.2]
    exact Real.hasDerivAt_arccos hs.1.ne' hs.2.ne
  | atan =>
    obtain ⟨hd, hv⟩ := one_add_square_spec hu
    have hne : (add [number Scalar.one, square u]).value ρ ≠ 0 := by
      rw [hv]
      positivity
    refine ⟨defined_reciprocal hd hne, ?_⟩
    rw [outerDerivative, value_reciprocal hd hne, hv]
    exact Real.hasDerivAt_arctan' _
  | atan2 => exact absurd rfl hf
  | sinh =>
    refine ⟨defined_apply_one hu rfl, ?_⟩
    rw [outerDerivative, value_apply_one (f := .cosh) hu rfl]
    exact Real.hasDerivAt_sinh _
  | cosh =>
    refine ⟨defined_apply_one hu rfl, ?_⟩
    rw [outerDerivative, value_apply_one (f := .sinh) hu rfl]
    exact Real.hasDerivAt_cosh _
  | tanh =>
    have hpow := reciprocal_square_spec (g := .cosh) hu rfl (Real.cosh_pos _).ne'
    refine ⟨hpow.1, ?_⟩
    rw [outerDerivative, hpow.2]
    exact hasDerivAt_tanh _
  | exp =>
    refine ⟨defined_apply_one hu rfl, ?_⟩
    rw [outerDerivative, value_apply_one (f := .exp) hu rfl]
    exact Real.hasDerivAt_exp _
  | log =>
    have hpos : 0 < u.value ρ := hs
    refine ⟨defined_reciprocal hu hpos.ne', ?_⟩
    rw [outerDerivative, value_reciprocal hu hpos.ne']
    exact Real.hasDerivAt_log hpos.ne'
  | abs =>
    have hne : u.value ρ ≠ 0 := hs
    have hd : (apply .abs [u]).Defined ρ := defined_apply_one hu rfl
    have hv : (apply .abs [u]).value ρ = |u.value ρ| := value_apply_one hu rfl
    have hv0 : (apply .abs [u]).value ρ ≠ 0 := hv ▸ abs_ne_zero.mpr hne
    refine ⟨defined_div hu hd hv0, ?_⟩
    rw [outerDerivative, value_div hu hd hv0, hv]
    rcases lt_or_gt_of_ne hne with hneg | hpos
    · rw [abs_of_neg hneg, div_neg, div_self hne]
      exact hasDerivAt_abs_neg hneg
    · rw [abs_of_pos hpos, div_self hne]
      exact hasDerivAt_abs_pos hpos

end EquationCompiler.Expr
