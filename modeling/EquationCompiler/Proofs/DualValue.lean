import EquationCompiler.Proofs.Value
import Mathlib.Algebra.DualNumber
import Mathlib.Analysis.Calculus.Deriv.Basic

/-!
# Values in dual numbers

Evaluation with `x + ε` in place of the symbol `x`, where `ε` squared is zero. Sums
and products are those of dual numbers, powers and functions follow the power rule
and the chain rule. The real part is the value, and the coefficient of `ε` is the
partial derivative by `x`.
-/
namespace EquationCompiler
open TrivSqZeroExt

/-- The power rule. -/
noncomputable def dualPower (u v : DualNumber ℝ) : DualNumber ℝ :=
  inl (u.fst ^ v.fst) +
    inr (v.fst * u.fst ^ (v.fst - 1) * u.snd + u.fst ^ v.fst * Real.log u.fst * v.snd)

/-- The real part of a sum is the sum of the real parts. -/
lemma fst_list_sum (us : List (DualNumber ℝ)) : us.sum.fst = (us.map fst).sum := by
  induction us with
  | nil => rfl
  | cons u us ih => simp [ih]

lemma snd_list_sum (us : List (DualNumber ℝ)) : us.sum.snd = (us.map snd).sum := by
  induction us with
  | nil => rfl
  | cons u us ih => simp [ih]

lemma snd_prod_eq_zero {us : List (DualNumber ℝ)} (h : ∀ u ∈ us, u.snd = 0) :
    us.prod.snd = 0 := by
  induction us with
  | nil => rfl
  | cons u us ih =>
    rw [List.forall_mem_cons] at h
    simp [h.1, ih h.2]

namespace Elementary

/-- The chain rule. The angle of a point has the differential `(x dy - y dx) / (x^2 + y^2)`. -/
noncomputable def dual : Elementary → List (DualNumber ℝ) → DualNumber ℝ
  | atan2, [y, x] =>
    inl (atan2.real [y.fst, x.fst]) +
      inr ((x.fst * y.snd - y.fst * x.snd) / (x.fst ^ 2 + y.fst ^ 2))
  | f, [u] => inl (f.real [u.fst]) + inr (deriv (fun t => f.real [t]) u.fst * u.snd)
  | _, _ => 0

/-- Where a function is differentiable, given that it is defined. -/
def SmoothAt : Elementary → List ℝ → Prop
  | tan, [x] => Real.cos x ≠ 0
  | asin, [x] | acos, [x] => -1 < x ∧ x < 1
  | log, [x] => 0 < x
  | abs, [x] => x ≠ 0
  | atan2, [y, x] => ¬(y = 0 ∧ x = 0)
  | _, _ => True

@[simp] theorem fst_dual (f : Elementary) (args : List (DualNumber ℝ)) :
    (f.dual args).fst = f.real (args.map fst) := by
  unfold dual
  split
  · simp
  · simp
  · next hone hpair =>
    match args with
    | [] => cases f <;> rfl
    | [u] => exact (hone u rfl).elim
    | [y, x] => cases f <;> first | rfl | exact (hpair y x rfl rfl).elim
    | _ :: _ :: _ :: _ => cases f <;> rfl

lemma snd_dual_eq_zero {f : Elementary} {args : List (DualNumber ℝ)}
    (h : ∀ u ∈ args, u.snd = 0) : (f.dual args).snd = 0 := by
  unfold dual
  split
  · simp_all
  · simp_all
  · rfl

end Elementary

namespace Expr
variable {α : Type} [RealValued α]

/-- The exponent is a number, and an integer. -/
def IsIntegerNumber (e : Expr α) : Prop := ∃ x : α, ∃ n : ℤ, e = number x ∧ toReal x = n

section
variable (ρ : String → Option ℝ)

mutual
/-- Every power and every function is differentiable where it is applied: the base of a power is
positive, unless the exponent is an integral number. -/
def Smooth : Expr α → Prop
  | number _ | constant _ | symbol _ => True
  | sum es | product es => SmoothAll es
  | power b e => Smooth b ∧ Smooth e ∧ (0 < b.value ρ ∨ e.IsIntegerNumber)
  | call f args => SmoothAll args ∧ f.SmoothAt (args.map (value ρ))
def SmoothAll : List (Expr α) → Prop
  | [] => True
  | e :: es => Smooth e ∧ SmoothAll es
end

@[simp] theorem smoothAll_iff (es : List (Expr α)) :
    SmoothAll ρ es ↔ ∀ e ∈ es, e.Smooth ρ := by
  induction es with
  | nil => simp [SmoothAll]
  | cons e es ih => simp [SmoothAll, ih]

@[simp] theorem smooth_sum (ts : List (Expr α)) :
    (sum ts).Smooth ρ ↔ ∀ t ∈ ts, t.Smooth ρ := by simp [Smooth]

@[simp] theorem smooth_product (fs : List (Expr α)) :
    (product fs).Smooth ρ ↔ ∀ f ∈ fs, f.Smooth ρ := by simp [Smooth]

@[simp] theorem smooth_power (b e : Expr α) :
    (power b e).Smooth ρ ↔
      b.Smooth ρ ∧ e.Smooth ρ ∧ (0 < b.value ρ ∨ e.IsIntegerNumber) := by simp [Smooth]

@[simp] theorem smooth_call (f : Elementary) (args : List (Expr α)) :
    (call f args).Smooth ρ ↔
      (∀ a ∈ args, a.Smooth ρ) ∧ f.SmoothAt (args.map (value ρ)) := by simp [Smooth]

end

/-- The assignment with `x + ε` in place of `x`. -/
noncomputable def nudge (ρ : String → Option ℝ) (x : String) (s : String) : Option (DualNumber ℝ) :=
  (ρ s).map fun v => if s = x then inl v + DualNumber.eps else inl v

section
variable (δ : String → Option (DualNumber ℝ))

mutual
/-- The dual number that an expression denotes when symbols stand for dual numbers. -/
noncomputable def dual : Expr α → DualNumber ℝ
  | number c => inl (toReal c)
  | symbol s => (δ s).getD 0
  | constant c => inl c.real
  | sum ts => (duals ts).sum
  | product fs => (duals fs).prod
  | power b e => dualPower (dual b) (dual e)
  | call f args => f.dual (duals args)
noncomputable def duals : List (Expr α) → List (DualNumber ℝ)
  | [] => []
  | e :: es => dual e :: duals es
end

@[simp] theorem duals_eq_map (es : List (Expr α)) : duals δ es = es.map (dual δ) := by
  induction es with
  | nil => rfl
  | cons e es ih => simp [duals, ih]

end

variable (ρ : String → Option ℝ) (x : String)

mutual
/-- The real part is the value. -/
theorem fst_dual (e : Expr α) : (e.dual (nudge ρ x)).fst = e.value ρ := by
  cases e with
  | number c => simp [dual]
  | symbol s =>
    cases h : ρ s with
    | none => simp [dual, nudge, h]
    | some v =>
      obtain rfl | hs := eq_or_ne s x
      · simp [dual, nudge, h]
      · simp [dual, nudge, h, hs]
  | constant c => simp [dual]
  | sum ts => rw [dual, duals_eq_map, value_sum, ← map_fst_dual ts, fst_list_sum, List.map_map]
  | product fs =>
    rw [dual, duals_eq_map, value_product, ← map_fst_dual fs, fst_list_prod, List.map_map]
  | power b e => simp [dual, dualPower, fst_dual b, fst_dual e]
  | call f args =>
    rw [dual, duals_eq_map, value_call, ← map_fst_dual args, Elementary.fst_dual, List.map_map]
theorem map_fst_dual (es : List (Expr α)) :
    es.map (fst ∘ dual (nudge ρ x)) = es.map (value ρ) := by
  match es with
  | [] => rfl
  | e :: es => rw [List.map_cons, List.map_cons, Function.comp_apply, fst_dual e, map_fst_dual es]
end

mutual
/-- Without the symbol `x` there is no infinitesimal part. -/
theorem snd_dual_eq_zero (e : Expr α) (h : e.contains x = false) :
    (e.dual (nudge ρ x)).snd = 0 := by
  cases e with
  | number c => simp [dual]
  | symbol s =>
    have hs : s ≠ x := by simpa [contains] using h
    cases hρ : ρ s <;> simp [dual, nudge, hρ, hs]
  | constant c => simp [dual]
  | sum ts =>
    have hts := snd_duals_eq_zero ts (by simpa [contains] using h)
    rw [dual, duals_eq_map, snd_list_sum, List.map_map]
    exact List.sum_eq_zero fun r hr => by
      obtain ⟨t, ht, rfl⟩ := List.mem_map.mp hr
      exact hts t ht
  | product fs =>
    have hfs := snd_duals_eq_zero fs (by simpa [contains] using h)
    rw [dual, duals_eq_map]
    exact snd_prod_eq_zero fun u hu => by
      obtain ⟨f, hf, rfl⟩ := List.mem_map.mp hu
      exact hfs f hf
  | power b e =>
    simp only [contains, Bool.or_eq_false_iff] at h
    simp [dual, dualPower, snd_dual_eq_zero b h.1, snd_dual_eq_zero e h.2]
  | call f args =>
    have hargs := snd_duals_eq_zero args (by simpa [contains] using h)
    rw [dual, duals_eq_map]
    exact Elementary.snd_dual_eq_zero fun u hu => by
      obtain ⟨a, ha, rfl⟩ := List.mem_map.mp hu
      exact hargs a ha
theorem snd_duals_eq_zero (es : List (Expr α)) (h : containsAny x es = false) :
    ∀ e ∈ es, (e.dual (nudge ρ x)).snd = 0 := by
  match es with
  | [] => simp
  | e :: es =>
    simp only [containsAny, Bool.or_eq_false_iff] at h
    exact List.forall_mem_cons.mpr ⟨snd_dual_eq_zero e h.1, snd_duals_eq_zero es h.2⟩
end

end Expr

end EquationCompiler
