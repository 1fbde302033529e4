import EquationCompiler.Expr.Evaluate
import EquationCompiler.Proofs.ExactScalar
import EquationCompiler.Proofs.RealPower
import Mathlib.Analysis.SpecialFunctions.Complex.Arg
import Mathlib.Analysis.SpecialFunctions.Trigonometric.Arctan
import Mathlib.Analysis.SpecialFunctions.Trigonometric.Inverse

/-!
# Values of expressions

The real number that an expression denotes when symbols stand for real numbers,
and where it denotes one. The value is total and the domain is stated apart, so
equations between values need no case distinction. On its domain the value is
what `Expr.evaluate` gives over the real numbers.
-/
namespace EquationCompiler

noncomputable def Constant.real : Constant → ℝ
  | pi => Real.pi
  | e => Real.exp 1

namespace Elementary

/-- The function that a name stands for. The angle of a point takes the ordinate first. -/
noncomputable def real : Elementary → List ℝ → ℝ
  | sin, [x] => Real.sin x
  | cos, [x] => Real.cos x
  | tan, [x] => Real.tan x
  | asin, [x] => Real.arcsin x
  | acos, [x] => Real.arccos x
  | atan, [x] => Real.arctan x
  | atan2, [y, x] => Complex.arg ⟨x, y⟩
  | sinh, [x] => Real.sinh x
  | cosh, [x] => Real.cosh x
  | tanh, [x] => Real.tanh x
  | exp, [x] => Real.exp x
  | log, [x] => Real.log x
  | abs, [x] => |x|
  | _, _ => 0

/-- Where a function is defined: at as many arguments as it takes, in its domain. -/
def DefinedAt : Elementary → List ℝ → Prop
  | tan, [x] => Real.cos x ≠ 0
  | asin, [x] | acos, [x] => -1 ≤ x ∧ x ≤ 1
  | log, [x] => 0 < x
  | f, args => args.length = f.arity

lemma DefinedAt.length_eq {f : Elementary} {args : List ℝ} (h : f.DefinedAt args) :
    args.length = f.arity := by
  unfold DefinedAt at h
  split at h
  all_goals first | rfl | exact h

end Elementary

namespace Expr
variable {α : Type} [RealValued α] (ρ : String → Option ℝ)

mutual
/-- The value of an expression. Symbols without a value count as zero. -/
noncomputable def value : Expr α → ℝ
  | number x => toReal x
  | symbol s => (ρ s).getD 0
  | constant c => c.real
  | sum ts => (values ts).sum
  | product fs => (values fs).prod
  | power b e => value b ^ value e
  | call f args => f.real (values args)
noncomputable def values : List (Expr α) → List ℝ
  | [] => []
  | e :: es => value e :: values es
end

mutual
/-- Every symbol has a value, and every power and every function is applied where it is defined. -/
def Defined : Expr α → Prop
  | number _ | constant _ => True
  | symbol s => (ρ s).isSome
  | sum es | product es => DefinedAll es
  | power b e => Defined b ∧ Defined e ∧ PowerDefined (b.value ρ) (e.value ρ)
  | call f args => DefinedAll args ∧ f.DefinedAt (values ρ args)
def DefinedAll : List (Expr α) → Prop
  | [] => True
  | e :: es => Defined e ∧ DefinedAll es
end

@[simp] theorem values_eq_map (es : List (Expr α)) : values ρ es = es.map (value ρ) := by
  induction es with
  | nil => rfl
  | cons e es ih => simp [values, ih]

@[simp] theorem definedAll_iff (es : List (Expr α)) :
    DefinedAll ρ es ↔ ∀ e ∈ es, e.Defined ρ := by
  induction es with
  | nil => simp [DefinedAll]
  | cons e es ih => simp [DefinedAll, ih]

@[simp] theorem value_number (x : α) : (number x).value ρ = toReal x := rfl

@[simp] theorem value_symbol (s : String) : (symbol s : Expr α).value ρ = (ρ s).getD 0 := rfl

@[simp] theorem value_constant (c : Constant) : (constant c : Expr α).value ρ = c.real := rfl

@[simp] theorem value_sum (ts : List (Expr α)) : (sum ts).value ρ = (ts.map (value ρ)).sum :=
  congrArg List.sum (values_eq_map ρ ts)

@[simp] theorem value_product (fs : List (Expr α)) :
    (product fs).value ρ = (fs.map (value ρ)).prod :=
  congrArg List.prod (values_eq_map ρ fs)

@[simp] theorem value_power (b e : Expr α) :
    (power b e).value ρ = b.value ρ ^ e.value ρ := rfl

@[simp] theorem value_call (f : Elementary) (args : List (Expr α)) :
    (call f args).value ρ = f.real (args.map (value ρ)) :=
  congrArg f.real (values_eq_map ρ args)

@[simp] theorem defined_number (x : α) : (number x).Defined ρ := trivial

@[simp] theorem defined_constant (c : Constant) : (constant c : Expr α).Defined ρ := trivial

@[simp] theorem defined_symbol (s : String) :
    (symbol s : Expr α).Defined ρ ↔ (ρ s).isSome := Iff.rfl

@[simp] theorem defined_sum (ts : List (Expr α)) :
    (sum ts).Defined ρ ↔ ∀ t ∈ ts, t.Defined ρ := definedAll_iff ρ ts

@[simp] theorem defined_product (fs : List (Expr α)) :
    (product fs).Defined ρ ↔ ∀ f ∈ fs, f.Defined ρ := definedAll_iff ρ fs

@[simp] theorem defined_power (b e : Expr α) :
    (power b e).Defined ρ ↔
      b.Defined ρ ∧ e.Defined ρ ∧ PowerDefined (b.value ρ) (e.value ρ) := Iff.rfl

@[simp] theorem defined_call (f : Elementary) (args : List (Expr α)) :
    (call f args).Defined ρ ↔
      (∀ a ∈ args, a.Defined ρ) ∧ f.DefinedAt (args.map (value ρ)) := by
  rw [← values_eq_map, ← definedAll_iff]
  rfl

end Expr

noncomputable instance : Transcendental ℝ where
  toScalar := RealScalar.limited machineExponentLimit
  constant := Constant.real
  power x y := x ^ y
  function := Elementary.real

namespace Expr
variable {ρ : Bindings ℝ}

mutual
/-- Where an expression is defined, evaluation gives its value. -/
theorem evaluate_eq (e : Expr ℝ) (h : e.Defined ρ.value?) :
    e.evaluate ρ = .ok (e.value ρ.value?) := by
  cases e with
  | number x => simp [evaluate]
  | symbol s =>
    obtain ⟨x, hx⟩ := Option.isSome_iff_exists.mp ((defined_symbol _ s).mp h)
    simp [evaluate, hx]
  | constant c => simp only [evaluate, value_constant]; rfl
  | sum ts =>
    rw [evaluate]
    exact (sumFrom_eq 0 ts ((defined_sum _ ts).mp h)).trans (by rw [value_sum, zero_add])
  | product fs =>
    rw [evaluate]
    exact (productFrom_eq 1 fs ((defined_product _ fs).mp h)).trans
      (by rw [value_product, one_mul])
  | power b e =>
    obtain ⟨hb, he, -⟩ := (defined_power _ b e).mp h
    rw [evaluate, evaluate_eq b hb, evaluate_eq e he, value_power]
    rfl
  | call f args =>
    obtain ⟨hargs, hf⟩ := (defined_call _ f args).mp h
    have hlength := hf.length_eq
    rw [evaluate, evaluateAll_eq args hargs]
    simp only [bind, Except.bind, hlength, if_true, value_call]
    rfl
theorem sumFrom_eq (total : ℝ) (ts : List (Expr ℝ)) (h : ∀ t ∈ ts, t.Defined ρ.value?) :
    sumFrom ρ total ts = .ok (total + (ts.map (value ρ.value?)).sum) := by
  match ts with
  | [] => simp [sumFrom]
  | t :: ts =>
    rw [sumFrom, evaluate_eq t (h t (by simp))]
    refine (sumFrom_eq _ ts fun u hu => h u (by simp [hu])).trans ?_
    rw [List.map_cons, List.sum_cons, ← add_assoc]
theorem productFrom_eq (total : ℝ) (fs : List (Expr ℝ)) (h : ∀ f ∈ fs, f.Defined ρ.value?) :
    productFrom ρ total fs = .ok (total * (fs.map (value ρ.value?)).prod) := by
  match fs with
  | [] => simp [productFrom]
  | f :: fs =>
    rw [productFrom, evaluate_eq f (h f (by simp))]
    refine (productFrom_eq _ fs fun u hu => h u (by simp [hu])).trans ?_
    rw [List.map_cons, List.prod_cons, ← mul_assoc]
theorem evaluateAll_eq (es : List (Expr ℝ)) (h : ∀ e ∈ es, e.Defined ρ.value?) :
    evaluateAll ρ es = .ok (es.map (value ρ.value?)) := by
  match es with
  | [] => rfl
  | e :: es =>
    rw [evaluateAll, evaluate_eq e (h e (by simp)), evaluateAll_eq es fun u hu => h u (by simp [hu])]
    rfl
end

/-- A further entry for a name replaces its value. -/
theorem value?_append (bindings : Bindings ℝ) (name : String) (x : ℝ) :
    (bindings ++ [(name, x)]).value? = Function.update bindings.value? name (some x) := by
  funext s
  simp [Bindings.value?, Function.update_apply, eq_comm]

lemma value?_eq_none {bindings : Bindings ℝ} {name : String}
    (h : ∀ entry ∈ bindings, entry.1 ≠ name) : bindings.value? name = none := by
  induction bindings using List.reverseRecOn with
  | nil => rfl
  | append_singleton bindings entry ih =>
    rw [value?_append, Function.update_of_ne (h entry (by simp)).symm]
    exact ih fun other hother => h other (by simp [hother])

/-- The expression is defined and evaluates to `v`. -/
structure HasValue (ρ : Bindings ℝ) (e : Expr ℝ) (v : ℝ) : Prop where
  defined : e.Defined ρ.value?
  evaluate_eq : e.evaluate ρ = .ok v

theorem hasValue_iff {e : Expr ℝ} {v : ℝ} :
    HasValue ρ e v ↔ e.Defined ρ.value? ∧ e.value ρ.value? = v := by
  constructor
  · rintro ⟨hd, hv⟩
    rw [evaluate_eq e hd] at hv
    exact ⟨hd, Except.ok.inj hv⟩
  · rintro ⟨hd, rfl⟩
    exact ⟨hd, evaluate_eq e hd⟩

end Expr

end EquationCompiler
