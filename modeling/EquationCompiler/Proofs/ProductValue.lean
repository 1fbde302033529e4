import EquationCompiler.Proofs.SumValue

/-!
# Simplified powers and products keep the value

Folding numbers, merging nested powers and adding the exponents of equal bases
are sound wherever the plain power or product is defined. The operations on
exponents are parameters here, as they are in `powWith` and `mulWith`.
-/
namespace EquationCompiler.Expr
variable {α : Type} [ExactScalar α] {ρ : String → Option ℝ}

mutual
theorem prod_factors (e : Expr α) : (e.factors.map (value ρ)).prod = e.value ρ := by
  cases e with
  | product fs => simp only [factors, value_product, prod_factorsAll fs]
  | _ => simp only [factors, List.map_cons, List.map_nil, List.prod_cons, List.prod_nil, mul_one]
theorem prod_factorsAll (fs : List (Expr α)) :
    ((factorsAll fs).map (value ρ)).prod = (fs.map (value ρ)).prod := by
  match fs with
  | [] => rfl
  | f :: fs =>
    simp only [factorsAll, List.map_append, List.prod_append, List.map_cons, List.prod_cons,
      prod_factors f, prod_factorsAll fs]
end

mutual
theorem defined_factors (e : Expr α) : (∀ f ∈ e.factors, f.Defined ρ) ↔ e.Defined ρ := by
  cases e with
  | product fs => simp only [factors, defined_product, defined_factorsAll fs]
  | _ => simp only [factors, List.mem_singleton, forall_eq]
theorem defined_factorsAll (fs : List (Expr α)) :
    (∀ f ∈ factorsAll fs, f.Defined ρ) ↔ ∀ f ∈ fs, f.Defined ρ := by
  match fs with
  | [] => simp only [factorsAll]
  | f :: fs =>
    simp only [factorsAll, List.mem_append, or_imp, forall_and, List.mem_cons, forall_eq,
      defined_factors f, defined_factorsAll fs]
end

/-- A whole number below `10^15` is the exponent of a power that can be computed. -/
lemma whole?_natAbs_le {x : α} {n : ℤ} (h : Scalar.whole? x = some n) :
    n.natAbs ≤ Scalar.exponentLimit α :=
  (((ExactScalar.whole?_eq_some_iff x n).mp h).2.le).trans ExactScalar.le_exponentLimit

lemma toReal_eq_of_whole? {x : α} {n : ℤ} (h : Scalar.whole? x = some n) : toReal x = n :=
  ((ExactScalar.whole?_eq_some_iff x n).mp h).1

lemma wholeExponent?_eq_some {e : Expr α} {p : α × ℤ} (h : wholeExponent? e = some p) :
    e.value ρ = p.2 := by
  cases e with
  | number x =>
    simp only [wholeExponent?, Option.map_eq_some_iff] at h
    obtain ⟨n, hn, rfl⟩ := h
    exact toReal_eq_of_whole? hn
  | _ => simp [wholeExponent?] at h

/-- Folding a power of a number. -/
theorem refines_numberPower (b : α) (e : Expr α) :
    Refines ρ (power (number b) e) (numberPower b e) := by
  intro h
  unfold numberPower
  split
  case h_2 => exact ⟨h, rfl⟩
  case h_1 e =>
    dsimp only
    split
    case h_1 value hfolded =>
      split at hfolded
      · next n hn =>
        split_ifs at hfolded with hpos
        refine ⟨defined_number ρ _, ?_⟩
        have hcast : (n : ℝ) = ((n.toNat : ℕ) : ℝ) := by exact_mod_cast (Int.toNat_of_nonneg hpos.le).symm
        rw [value_number, ExactScalar.power?_eq_some hfolded, value_power, value_number,
          value_number, toReal_eq_of_whole? hn, hcast, Real.rpow_natCast]
      · cases hfolded
    case h_2 =>
      split_ifs with hz
      · rw [Bool.and_eq_true, ExactScalar.isZero_iff, ExactScalar.isPositive_iff] at hz
        refine ⟨defined_number ρ _, ?_⟩
        simp [hz.1, Real.zero_rpow hz.2.ne']
      · exact ⟨h, rfl⟩

section
variable {mul : List (Expr α) → Expr α} (hmul : ∀ fs, Refines ρ (product fs) (mul fs))
include hmul

/-- The exponents of a nested power multiply if the outer one is whole. -/
lemma refines_mergedPower {inner e exponent : Expr α} {p : α × ℤ}
    (hp : wholeExponent? exponent = some p) :
    Refines ρ (power (power inner e) exponent) (power inner (mul [e, exponent])) := by
  intro h
  simp only [defined_power, value_power] at h
  obtain ⟨⟨hinner, he, hpow⟩, hexponent, hwhole⟩ := h
  have hvalue : exponent.value ρ = p.2 := wholeExponent?_eq_some hp
  obtain ⟨hd, hv⟩ := hmul [e, exponent] (by simp [he, hexponent])
  have hv : (mul [e, exponent]).value ρ = e.value ρ * p.2 := by simpa [hvalue] using hv
  rw [hvalue] at hwhole
  refine ⟨(defined_power ρ _ _).mpr ⟨hinner, hd, hv ▸ hpow.mul_int p.2 hwhole⟩, ?_⟩
  rw [value_power, value_power, value_power, hv, hvalue, hpow.rpow_mul_int p.2 hwhole]

theorem refines_powWith (b e : Expr α) : Refines ρ (power b e) (powWith mul b e) := by
  fun_induction powWith mul b e with
  | case1 base exponent htrivial =>
    refine fun _ => ⟨defined_number ρ _, ?_⟩
    rcases Bool.or_eq_true _ _ ▸ htrivial with hz | hone
    · simp [isZero_eq_true hz]
    · simp [isOne_eq_true hone]
  | case2 base exponent _ hone =>
    intro h
    exact ⟨((defined_power ρ _ _).mp h).1, by simp [isOne_eq_true hone]⟩
  | case3 exponent _ b _ => exact refines_numberPower b exponent
  | case4 exponent _ inner e p hp _ ih =>
    intro h
    obtain ⟨hd, hv⟩ := refines_mergedPower hmul hp h
    obtain ⟨hd', hv'⟩ := ih hd
    exact ⟨hd', hv'.trans hv⟩
  | case5 => exact .refl _
  | case6 => exact .refl _

end

lemma value_splitPower (e : Expr α) :
    (power (splitPower e).1 (splitPower e).2).value ρ = e.value ρ := by
  unfold splitPower
  split
  · rfl
  · simp

lemma defined_splitPower {e : Expr α} (h : e.Defined ρ) :
    (power (splitPower e).1 (splitPower e).2).Defined ρ := by
  unfold splitPower
  split
  · exact h
  · simpa using ⟨h, PowerDefined.one _⟩

/-- The product of powers. -/
noncomputable def powersProd (ρ : String → Option ℝ) (ps : List (Expr α × Expr α)) : ℝ :=
  (ps.map fun p => (power p.1 p.2).value ρ).prod

@[simp] theorem powersProd_nil : powersProd ρ ([] : List (Expr α × Expr α)) = 1 := rfl

@[simp] theorem powersProd_cons (p : Expr α × Expr α) (ps : List (Expr α × Expr α)) :
    powersProd ρ (p :: ps) = (power p.1 p.2).value ρ * powersProd ρ ps := rfl

def PowersDefined (ρ : String → Option ℝ) (ps : List (Expr α × Expr α)) : Prop :=
  ∀ p ∈ ps, (power p.1 p.2).Defined ρ

section
variable {add : List (Expr α) → Expr α} (hadd : ∀ ts, Refines ρ (sum ts) (add ts))
include hadd

/-- Two powers of equal bases merge into one. -/
lemma power_add_exponents {c b x e : Expr α} (hcb : equiv c b = true)
    (hc : (power c x).Defined ρ) (hb : (power b e).Defined ρ) :
    (power c (add [x, e])).Defined ρ ∧
      (power c (add [x, e])).value ρ = (power c x).value ρ * (power b e).value ρ := by
  have hbase := value_eq_of_equiv ρ hcb
  simp only [defined_power, value_power, ← hbase] at hc hb ⊢
  obtain ⟨hd, hv⟩ := hadd [x, e] (by simpa using ⟨hc.2.1, hb.2.1⟩)
  have hv : (add [x, e]).value ρ = x.value ρ + e.value ρ := by simpa using hv
  rw [hv]
  exact ⟨⟨hc.1, hd, hc.2.2.add hb.2.2⟩, hc.2.2.rpow_add hb.2.2⟩

theorem collectPower_spec {b e : Expr α} {ps : List (Expr α × Expr α)}
    (hbe : (power b e).Defined ρ) (hps : PowersDefined ρ ps) :
    PowersDefined ρ (collectPower add b e ps) ∧
      powersProd ρ (collectPower add b e ps) = powersProd ρ ps * (power b e).value ρ := by
  induction ps with
  | nil => simpa [collectPower, PowersDefined] using hbe
  | cons p ps ih =>
    obtain ⟨c, x⟩ := p
    obtain ⟨hp, hps⟩ := List.forall_mem_cons.mp hps
    simp only [collectPower]
    split_ifs with hcb
    · obtain ⟨hd, hv⟩ := power_add_exponents hadd hcb hp hbe
      refine ⟨List.forall_mem_cons.mpr ⟨hd, hps⟩, ?_⟩
      simp only [powersProd_cons, hv]
      ring
    · obtain ⟨hd, hv⟩ := ih hps
      refine ⟨List.forall_mem_cons.mpr ⟨hp, hd⟩, ?_⟩
      simp only [powersProd_cons, hv]
      ring

namespace Powers

theorem insert_spec {p : Powers α} {e : Expr α} (he : e.Defined ρ) (hp : PowersDefined ρ p.powers) :
    PowersDefined ρ (p.insert add e).powers ∧
      toReal (p.insert add e).coefficient * powersProd ρ (p.insert add e).powers =
        toReal p.coefficient * powersProd ρ p.powers * e.value ρ := by
  unfold insert
  split
  · refine ⟨hp, ?_⟩
    simp only [ExactScalar.toReal_mul, value_number]
    ring
  · next e _ =>
    obtain ⟨hd, hv⟩ := collectPower_spec hadd (defined_splitPower he) hp
    refine ⟨hd, ?_⟩
    dsimp only
    rw [hv, value_splitPower]
    ring

theorem foldl_insert_spec (fs : List (Expr α)) (p : Powers α) (hfs : ∀ f ∈ fs, f.Defined ρ)
    (hp : PowersDefined ρ p.powers) :
    PowersDefined ρ (fs.foldl (insert add) p).powers ∧
      toReal (fs.foldl (insert add) p).coefficient *
          powersProd ρ (fs.foldl (insert add) p).powers =
        toReal p.coefficient * powersProd ρ p.powers * (fs.map (value ρ)).prod := by
  induction fs generalizing p with
  | nil => simpa using hp
  | cons f fs ih =>
    rw [List.forall_mem_cons] at hfs
    obtain ⟨hd, hv⟩ := insert_spec hadd hfs.1 hp
    obtain ⟨hd', hv'⟩ := ih (p.insert add f) hfs.2 hd
    refine ⟨hd', ?_⟩
    rw [List.foldl_cons, hv', hv, List.map_cons, List.prod_cons, mul_assoc]

end Powers

theorem collectPowers_spec {fs : List (Expr α)} (hfs : ∀ f ∈ fs, f.Defined ρ) :
    PowersDefined ρ (collectPowers add fs).powers ∧
      toReal (collectPowers add fs).coefficient * powersProd ρ (collectPowers add fs).powers =
        (fs.map (value ρ)).prod := by
  obtain ⟨hd, hv⟩ := Powers.foldl_insert_spec hadd (factorsAll fs) ⟨Scalar.one, []⟩
    ((defined_factorsAll fs).mpr hfs) (by simp [PowersDefined])
  refine ⟨hd, ?_⟩
  rw [collectPowers, hv, prod_factorsAll]
  simp

end

/-- Dividing the coefficient by a power of a number. -/
theorem foldReciprocal?_eq_some {c q : α} {b e : Expr α} (h : foldReciprocal? c b e = some q) :
    toReal q = toReal c * (power b e).value ρ := by
  unfold foldReciprocal? at h
  split at h
  · next b e =>
    split at h
    · next n hn =>
      split_ifs at h with hneg
      rw [ExactScalar.quotient?_eq_some h, ExactScalar.toReal_natPower b (whole?_natAbs_le hn),
        div_pow_natAbs _ _ hneg.1, value_power, value_number, value_number, toReal_eq_of_whole? hn]
    · cases h
  · cases h

namespace Folded

noncomputable def value (ρ : String → Option ℝ) (f : Folded α) : ℝ :=
  toReal f.coefficient * (f.factors.map (Expr.value ρ)).prod

def Defined (ρ : String → Option ℝ) (f : Folded α) : Prop := ∀ e ∈ f.factors, e.Defined ρ

section
variable {pow : Expr α → Expr α → Expr α} (hpow : ∀ b e, Refines ρ (power b e) (pow b e))
include hpow

theorem push_spec {f : Folded α} {p : Expr α × Expr α} (hf : f.Defined ρ)
    (hp : (power p.1 p.2).Defined ρ) :
    (f.push pow p).Defined ρ ∧ (f.push pow p).value ρ = f.value ρ * (power p.1 p.2).value ρ := by
  obtain ⟨b, e⟩ := p
  obtain ⟨hd, hv⟩ := hpow b e hp
  unfold push
  dsimp only
  split
  · next q hq =>
    refine ⟨hf, ?_⟩
    simp only [value, foldReciprocal?_eq_some (ρ := ρ) hq]
    ring
  · split
    · next v hnumber =>
      refine ⟨hf, ?_⟩
      rw [hnumber, value_number] at hv
      simp only [value, ExactScalar.toReal_mul, hv]
      ring
    · refine ⟨fun g hg => ?_, ?_⟩
      · rcases List.mem_append.mp hg with hg | hg
        · exact hf g hg
        · rwa [List.mem_singleton.mp hg]
      · simp only [value, List.map_append, List.map_cons, List.map_nil, List.prod_append,
          List.prod_cons, List.prod_nil, mul_one, hv]
        ring

theorem foldl_push_spec (ps : List (Expr α × Expr α)) (f : Folded α) (hf : f.Defined ρ)
    (hps : PowersDefined ρ ps) :
    (ps.foldl (push pow) f).Defined ρ ∧
      (ps.foldl (push pow) f).value ρ = f.value ρ * powersProd ρ ps := by
  induction ps generalizing f with
  | nil => simpa using hf
  | cons p ps ih =>
    obtain ⟨hp, hps⟩ := List.forall_mem_cons.mp hps
    obtain ⟨hd, hv⟩ := push_spec hpow hf hp
    obtain ⟨hd', hv'⟩ := ih (f.push pow p) hd hps
    exact ⟨hd', by rw [List.foldl_cons, hv', hv, powersProd_cons, mul_assoc]⟩

end

theorem toExpr_spec {f : Folded α} (hf : f.Defined ρ) :
    f.toExpr.Defined ρ ∧ f.toExpr.value ρ = f.value ρ := by
  unfold toExpr
  split_ifs with hz hempty hone
  · simp [value, (ExactScalar.isZero_iff _).mp hz]
  · simp [value, List.isEmpty_iff.mp hempty]
  · simp only [defined_collapse_product, value_collapse_product, value,
      (ExactScalar.isOne_iff _).mp hone, one_mul, and_true]
    exact hf
  · simp only [defined_product, List.forall_mem_cons, defined_number, true_and, value_product,
      List.map_cons, List.prod_cons, value_number, value, and_true]
    exact hf

end Folded

theorem refines_mulWith {add : List (Expr α) → Expr α} {pow : Expr α → Expr α → Expr α}
    (hadd : ∀ ts, Refines ρ (sum ts) (add ts)) (hpow : ∀ b e, Refines ρ (power b e) (pow b e))
    (fs : List (Expr α)) : Refines ρ (product fs) (mulWith add pow fs) := by
  intro hfs
  obtain ⟨hd, hv⟩ := collectPowers_spec hadd ((defined_product ρ fs).mp hfs)
  rw [value_product, ← hv]
  unfold mulWith
  dsimp only
  split_ifs with hz
  · simp [(ExactScalar.isZero_iff _).mp hz]
  · obtain ⟨hd', hv'⟩ := Folded.foldl_push_spec hpow (collectPowers add fs).powers
      ⟨(collectPowers add fs).coefficient, []⟩ (by simp [Folded.Defined]) hd
    obtain ⟨hd'', hv''⟩ := Folded.toExpr_spec hd'
    exact ⟨hd'', by rw [hv'', hv']; simp [Folded.value]⟩

end EquationCompiler.Expr
