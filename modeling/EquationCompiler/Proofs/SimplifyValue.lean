import EquationCompiler.Proofs.ProductValue

/-!
# The simplifying constructors keep the value

Sums, products, powers, applications, negations, differences and quotients that
are built with simplification are defined wherever the plain ones are, and have
the same values. This holds over every exact scalar. Over the real numbers with
the exponent limit of machine numbers it holds as long as the limit has no
effect.
-/
namespace EquationCompiler.Expr
variable {α : Type} [ExactScalar α] {ρ : String → Option ℝ}

/-- By induction on the level: the operations at one level are sound if the product one level below
is, and at the bottom it is the plain product. -/
theorem refines_mulAt (level : ℕ) (fs : List (Expr α)) :
    Refines ρ (product fs) (mulAt level fs) := by
  induction level generalizing fs with
  | zero => exact .refl _
  | succ level ih => exact refines_mulWith (refines_addWith ih) (refines_powWith ih) fs

theorem refines_mul (fs : List (Expr α)) : Refines ρ (product fs) (mul fs) := refines_mulAt _ fs

theorem refines_add (ts : List (Expr α)) : Refines ρ (sum ts) (add ts) :=
  refines_addWith (refines_mulAt _) ts

theorem refines_pow (b e : Expr α) : Refines ρ (power b e) (pow b e) :=
  refines_powWith (refines_mulAt _) b e

/-- What `exactValue?` knows is right. -/
lemma exactValue?_eq_some {f : Elementary} {e : Expr α} {x : α} (h : exactValue? f e = some x) :
    toReal x = f.real [e.value ρ] := by
  unfold exactValue? at h
  split at h
  all_goals first
    | cases h
    | (split_ifs at h with he
       obtain rfl := Option.some.inj h
       first
         | simp [Elementary.real, isZero_eq_true (ρ := ρ) he]
         | simp [Elementary.real, isOne_eq_true (ρ := ρ) he])

theorem refines_apply (f : Elementary) (args : List (Expr α)) :
    Refines ρ (call f args) (apply f args) := by
  intro h
  unfold apply
  split
  · split
    · next hvalue =>
      exact ⟨defined_number ρ _, by
        rw [value_number, exactValue?_eq_some (ρ := ρ) hvalue]
        simp⟩
    · exact ⟨h, rfl⟩
  · exact ⟨h, rfl⟩

theorem defined_add {ts : List (Expr α)} (h : ∀ t ∈ ts, t.Defined ρ) : (add ts).Defined ρ :=
  (refines_add ts ((defined_sum ρ ts).mpr h)).1

theorem value_add {ts : List (Expr α)} (h : ∀ t ∈ ts, t.Defined ρ) :
    (add ts).value ρ = (ts.map (value ρ)).sum :=
  (refines_add ts ((defined_sum ρ ts).mpr h)).2.trans (value_sum ρ ts)

theorem defined_mul {fs : List (Expr α)} (h : ∀ f ∈ fs, f.Defined ρ) : (mul fs).Defined ρ :=
  (refines_mul fs ((defined_product ρ fs).mpr h)).1

theorem value_mul {fs : List (Expr α)} (h : ∀ f ∈ fs, f.Defined ρ) :
    (mul fs).value ρ = (fs.map (value ρ)).prod :=
  (refines_mul fs ((defined_product ρ fs).mpr h)).2.trans (value_product ρ fs)

theorem defined_pow {b e : Expr α} (hb : b.Defined ρ) (he : e.Defined ρ)
    (h : PowerDefined (b.value ρ) (e.value ρ)) : (pow b e).Defined ρ :=
  (refines_pow b e ((defined_power ρ b e).mpr ⟨hb, he, h⟩)).1

theorem value_pow {b e : Expr α} (hb : b.Defined ρ) (he : e.Defined ρ)
    (h : PowerDefined (b.value ρ) (e.value ρ)) : (pow b e).value ρ = b.value ρ ^ e.value ρ :=
  (refines_pow b e ((defined_power ρ b e).mpr ⟨hb, he, h⟩)).2.trans (value_power ρ b e)

theorem defined_apply {f : Elementary} {args : List (Expr α)} (h : ∀ a ∈ args, a.Defined ρ)
    (hf : f.DefinedAt (args.map (value ρ))) : (apply f args).Defined ρ :=
  (refines_apply f args ((defined_call ρ f args).mpr ⟨h, hf⟩)).1

theorem value_apply {f : Elementary} {args : List (Expr α)} (h : ∀ a ∈ args, a.Defined ρ)
    (hf : f.DefinedAt (args.map (value ρ))) :
    (apply f args).value ρ = f.real (args.map (value ρ)) :=
  (refines_apply f args ((defined_call ρ f args).mpr ⟨h, hf⟩)).2.trans (value_call ρ f args)

theorem defined_neg {e : Expr α} (h : e.Defined ρ) : (neg e).Defined ρ :=
  defined_mul (by simpa using h)

theorem value_neg {e : Expr α} (h : e.Defined ρ) : (neg e).value ρ = -e.value ρ := by
  rw [neg, value_mul (by simpa using h)]
  simp

theorem defined_sub {a b : Expr α} (ha : a.Defined ρ) (hb : b.Defined ρ) :
    (sub a b).Defined ρ :=
  defined_add (by simpa using ⟨ha, defined_neg hb⟩)

theorem value_sub {a b : Expr α} (ha : a.Defined ρ) (hb : b.Defined ρ) :
    (sub a b).value ρ = a.value ρ - b.value ρ := by
  rw [sub, value_add (by simpa using ⟨ha, defined_neg hb⟩)]
  simp [value_neg hb, sub_eq_add_neg]

lemma powerDefined_neg_one {u : ℝ} (hu : u ≠ 0) : PowerDefined u (-1) := by
  simpa using PowerDefined.of_int (u := u) (-1) fun h => absurd h hu

theorem defined_reciprocal {b : Expr α} (hb : b.Defined ρ) (h : b.value ρ ≠ 0) :
    (pow b (number (-Scalar.one))).Defined ρ :=
  defined_pow hb (by simp) (by simpa using powerDefined_neg_one h)

theorem value_reciprocal {b : Expr α} (hb : b.Defined ρ) (h : b.value ρ ≠ 0) :
    (pow b (number (-Scalar.one))).value ρ = (b.value ρ)⁻¹ := by
  rw [value_pow hb (by simp) (by simpa using powerDefined_neg_one h)]
  simp [Real.rpow_neg_one]

theorem defined_div {a b : Expr α} (ha : a.Defined ρ) (hb : b.Defined ρ) (h : b.value ρ ≠ 0) :
    (div a b).Defined ρ :=
  defined_mul (by simpa using ⟨ha, defined_reciprocal hb h⟩)

theorem value_div {a b : Expr α} (ha : a.Defined ρ) (hb : b.Defined ρ) (h : b.value ρ ≠ 0) :
    (div a b).value ρ = a.value ρ / b.value ρ := by
  rw [div, value_mul (by simpa using ⟨ha, defined_reciprocal hb h⟩)]
  simp [value_reciprocal hb h, div_eq_mul_inv]

lemma defined_of_forall₂ {ρ : Bindings ℝ} {es : List (Expr ℝ)} {vs : List ℝ}
    (h : List.Forall₂ (HasValue ρ) es vs) :
    (∀ e ∈ es, e.Defined ρ.value?) ∧ es.map (value ρ.value?) = vs := by
  induction h with
  | nil => simp
  | cons he _ ih =>
    obtain ⟨hd, hv⟩ := hasValue_iff.mp he
    exact ⟨List.forall_mem_cons.mpr ⟨hd, ih.1⟩, by rw [List.map_cons, hv, ih.2]⟩

open RealScalar in
/-- Where the inputs have values, and the plain operation on these values is defined, each
constructor returns an expression with its result for a value. -/
theorem hasValue_constructors (ρ : Bindings ℝ) :
    (∀ ts vs, List.Forall₂ (HasValue ρ) ts vs →
      LimitFree (fun limit => @add ℝ (limited limit) ts) → HasValue ρ (add ts) vs.sum) ∧
    (∀ fs vs, List.Forall₂ (HasValue ρ) fs vs →
      LimitFree (fun limit => @mul ℝ (limited limit) fs) → HasValue ρ (mul fs) vs.prod) ∧
    (∀ b e u w, HasValue ρ b u → HasValue ρ e w → PowerDefined u w →
      LimitFree (fun limit => @pow ℝ (limited limit) b e) → HasValue ρ (pow b e) (u ^ w)) ∧
    (∀ f args vs, List.Forall₂ (HasValue ρ) args vs → f.DefinedAt vs →
      HasValue ρ (apply f args) (f.real vs)) ∧
    (∀ e v, HasValue ρ e v →
      LimitFree (fun limit => @neg ℝ (limited limit) e) → HasValue ρ (neg e) (-v)) ∧
    (∀ a b u w, HasValue ρ a u → HasValue ρ b w →
      LimitFree (fun limit => @sub ℝ (limited limit) a b) → HasValue ρ (sub a b) (u - w)) ∧
    (∀ a b u w, HasValue ρ a u → HasValue ρ b w → w ≠ 0 →
      LimitFree (fun limit => @div ℝ (limited limit) a b) → HasValue ρ (div a b) (u / w)) := by
  let _ := exact (le_refl (10 ^ 15))
  refine ⟨?sum, ?product, ?power, ?call, ?negation, ?difference, ?quotient⟩
  case sum =>
    intro ts vs h hfree
    obtain ⟨hd, rfl⟩ := defined_of_forall₂ h
    rw [hfree.eq_exact, hasValue_iff]
    exact ⟨defined_add hd, value_add hd⟩
  case product =>
    intro fs vs h hfree
    obtain ⟨hd, rfl⟩ := defined_of_forall₂ h
    rw [hfree.eq_exact, hasValue_iff]
    exact ⟨defined_mul hd, value_mul hd⟩
  case power =>
    intro b e u w hbu hew hpower hfree
    obtain ⟨hb, rfl⟩ := hasValue_iff.mp hbu
    obtain ⟨he, rfl⟩ := hasValue_iff.mp hew
    rw [hfree.eq_exact, hasValue_iff]
    exact ⟨defined_pow hb he hpower, value_pow hb he hpower⟩
  case call =>
    intro f args vs h hf
    obtain ⟨hd, rfl⟩ := defined_of_forall₂ h
    rw [hasValue_iff]
    exact ⟨defined_apply hd hf, value_apply hd hf⟩
  case negation =>
    intro e v h hfree
    obtain ⟨hd, rfl⟩ := hasValue_iff.mp h
    rw [hfree.eq_exact, hasValue_iff]
    exact ⟨defined_neg hd, value_neg hd⟩
  case difference =>
    intro a b u w hau hbw hfree
    obtain ⟨ha, rfl⟩ := hasValue_iff.mp hau
    obtain ⟨hb, rfl⟩ := hasValue_iff.mp hbw
    rw [hfree.eq_exact, hasValue_iff]
    exact ⟨defined_sub ha hb, value_sub ha hb⟩
  case quotient =>
    intro a b u w hau hbw hw hfree
    obtain ⟨ha, rfl⟩ := hasValue_iff.mp hau
    obtain ⟨hb, rfl⟩ := hasValue_iff.mp hbw
    rw [hfree.eq_exact, hasValue_iff]
    exact ⟨defined_div ha hb hw, value_div ha hb hw⟩

open RealScalar in
/-- A quotient of numbers that is folded, so that the exponent limit is met. -/
lemma mul_reciprocal_three {limit : ℕ} (hl : machineExponentLimit ≤ limit) :
    @mul ℝ (limited limit) [number 6, power (number 3) (number (-1))] = number 2 := by
  have hmin : min 1 limit = 1 := by
    simp only [machineExponentLimit] at hl
    omega
  have hexponent : whole? (-1) = some (-1) := by
    simpa using whole?_intCast (n := -1) (by norm_num)
  have hquotient : whole? 2 = some 2 := by simpa using whole?_intCast (n := 2) (by norm_num)
  have hdiv : (6 : ℝ) / 3 = 2 := by norm_num
  simp [mul, mulAt, mulWith, collectPowers, factorsAll, factors, depthAll, depth, Powers.insert,
    splitPower, collectPower, Folded.push, foldReciprocal?, Scalar.isZero, hmin, hexponent,
    hquotient, hdiv, Folded.toExpr]

open RealScalar in
lemma div_six_three {limit : ℕ} (hl : machineExponentLimit ≤ limit) :
    @div ℝ (limited limit) (number 6) (number 3) = number 2 := by
  have hexponent : whole? (-1) = some (-1) := by
    simpa using whole?_intCast (n := -1) (by norm_num)
  have hone : (-1 : ℝ) ≠ 1 := by norm_num
  refine Eq.trans ?_ (mul_reciprocal_three hl)
  simp [div, pow, powWith, numberPower, isZero, isOne, Scalar.isZero, Scalar.isOne, hexponent,
    hone]

theorem hasValue_constructors_two :
    HasValue [("x", 2)] (add [number 1, symbol "x"]) 3 ∧
    HasValue [("x", 2)] (mul [number 6, power (number 3) (number (-1))]) 2 ∧
    HasValue [("x", 2)] (pow (symbol "x") (number 3)) 8 ∧
    HasValue [("x", 2)] (apply .cos [number 0]) 1 ∧
    HasValue [("x", 2)] (neg (number 5)) (-5) ∧
    HasValue [("x", 2)] (sub (symbol "x") (number 1)) 1 ∧
    HasValue [("x", 2)] (div (number 6) (number 3)) 2 := by
  have hx : HasValue [("x", 2)] (symbol "x") 2 := hasValue_iff.mpr (by simp [Bindings.value?])
  have hn (x : ℝ) : HasValue [("x", 2)] (number x) x := hasValue_iff.mpr (by simp)
  have hthird : HasValue [("x", 2)] (power (number 3) (number (-1))) 3⁻¹ :=
    hasValue_iff.mpr (by simp [Real.rpow_neg_one, powerDefined_neg_one])
  obtain ⟨hadd, hmul, hpow, hcall, hneg, hsub, hdiv⟩ := hasValue_constructors [("x", 2)]
  refine ⟨?_, ?_, ?_, ?_, ?_, ?_, ?_⟩
  · have hfree (limit : ℕ) : @add ℝ (RealScalar.limited limit) [number 1, symbol "x"] =
        sum [number 1, symbol "x"] := by
      simp [add, addWith, collect, termsAll, terms, Collected.insert, splitCoefficient,
        collectTerm, restoreTerm, Scalar.isZero, Scalar.isOne, collapse]
    convert hadd _ [1, 2] (.cons (hn 1) (.cons hx .nil)) (.of_eq _ fun n _ => hfree n) using 1
    norm_num
  · convert hmul _ [6, 3⁻¹] (.cons (hn 6) (.cons hthird .nil))
      (.of_eq _ fun _ => mul_reciprocal_three) using 1
    norm_num
  · have hfree (limit : ℕ) : @pow ℝ (RealScalar.limited limit) (symbol "x") (number 3) =
        power (symbol "x") (number 3) := by
      simp [pow, powWith, isZero, isOne, Scalar.isZero, Scalar.isOne]
    convert hpow _ _ 2 3 hx (hn 3) (.of_pos two_pos 3) (.of_eq _ fun n _ => hfree n) using 1
    norm_num
  · convert hcall .cos _ [0] (.cons (hn 0) .nil) rfl using 1
    simp [Elementary.real]
  · have hfree (limit : ℕ) : @neg ℝ (RealScalar.limited limit) (number 5) = number (-5) := by
      simp [neg, mul, mulAt, mulWith, collectPowers, factorsAll, factors, depthAll, depth,
        Powers.insert, Scalar.isZero, Folded.toExpr]
    exact hneg _ 5 (hn 5) (.of_eq _ fun n _ => hfree n)
  · have hfree (limit : ℕ) : @sub ℝ (RealScalar.limited limit) (symbol "x") (number 1) =
        sum [number (-1), symbol "x"] := by
      simp [sub, neg, add, addWith, collect, termsAll, terms, Collected.insert, splitCoefficient,
        collectTerm, restoreTerm, mul, mulAt, mulWith, collectPowers, factorsAll, factors,
        depthAll, depth, Powers.insert, Scalar.isZero, Scalar.isOne, Folded.toExpr, collapse]
    convert hsub _ _ 2 1 hx (hn 1) (.of_eq _ fun n _ => hfree n) using 1
    norm_num
  · convert hdiv _ _ 6 3 (hn 6) (hn 3) three_ne_zero (.of_eq _ fun _ => div_six_three) using 1
    norm_num

end EquationCompiler.Expr
