import EquationCompiler.Proofs.OppositeNumbers
import EquationCompiler.Proofs.Shape

/-!
# What cancels

An expression minus itself is zero if its negation has the same factors and the opposite
coefficient. For sums this is not so: the minus stays in front of the sum in the
negation, while the sum itself is dissolved into its terms. An expression divided by
itself is one if its reciprocal has the same base and the opposite exponent. For products
this is not so: they are raised as a whole and not factor by factor.
-/
namespace EquationCompiler.Expr
variable {α : Type} [Scalar α]

/-- Every number that occurs is finite. -/
def IsFinite (e : Expr α) : Prop := ∀ x ∈ e.numbers, Scalar.isFinite x = true

lemma isFinite_product {fs : List (Expr α)} :
    (product fs).IsFinite ↔ ∀ f ∈ fs, f.IsFinite := by
  simp only [IsFinite, numbers, mem_numbersAll]
  refine ⟨fun h f hf x hx => h x ⟨f, hf, hx⟩, fun h x hx => ?_⟩
  obtain ⟨f, hf, hx⟩ := hx
  exact h f hf x hx

lemma isFinite_power {b e : Expr α} : (power b e).IsFinite ↔ b.IsFinite ∧ e.IsFinite :=
  List.forall_mem_append

lemma isFinite_number {x : α} : (number x).IsFinite ↔ Scalar.isFinite x = true := by
  simp [IsFinite, numbers]

mutual
lemma isFinite_of_nonFinite? {e : Expr α} (h : e.nonFinite? = none) : e.IsFinite := by
  match e with
  | number x =>
    simp only [nonFinite?] at h
    split_ifs at h with hx
    exact isFinite_number.mpr hx
  | symbol s | constant c => exact fun x hx => absurd hx List.not_mem_nil
  | sum es | product es | call f es => exact isFinite_of_nonFiniteAny? h
  | power b e =>
    rw [nonFinite?, Option.orElse_eq_orElse, Option.orElse_eq_or, Option.or_eq_none_iff] at h
    exact isFinite_power.mpr ⟨isFinite_of_nonFinite? h.1, isFinite_of_nonFinite? h.2⟩
lemma isFinite_of_nonFiniteAny? {es : List (Expr α)} (h : nonFiniteAny? es = none) :
    ∀ x ∈ numbersAll es, Scalar.isFinite x = true := by
  match es with
  | [] => exact fun x hx => absurd hx List.not_mem_nil
  | e :: es =>
    rw [nonFiniteAny?, Option.orElse_eq_orElse, Option.orElse_eq_or, Option.or_eq_none_iff] at h
    exact List.forall_mem_append.mpr ⟨isFinite_of_nonFinite? h.1, isFinite_of_nonFiniteAny? h.2⟩
end

section
variable [CancellingScalar α]

lemma isFinite_neg_one : Scalar.isFinite (-Scalar.one : α) = true :=
  CancellingScalar.isFinite_neg CancellingScalar.isFinite_one

lemma IsFinite.equiv_self {e : Expr α} (h : e.IsFinite) : equiv e e = true :=
  Expr.equiv_self fun x hx => CancellingScalar.same_self (h x hx)

lemma IsFinite.splitCoefficient {e : Expr α} (h : e.IsFinite) :
    Scalar.isFinite (splitCoefficient e).1 = true ∧ (splitCoefficient e).2.IsFinite := by
  unfold Expr.splitCoefficient
  split
  · next c rest =>
    rw [isFinite_product, List.forall_mem_cons, isFinite_number] at h
    refine ⟨h.1, ?_⟩
    unfold collapse
    split
    · exact h.2 _ (by simp)
    · exact isFinite_product.mpr h.2
  · exact ⟨CancellingScalar.isFinite_one, h⟩

end

/-- No factor of a product is a product. -/
def isFlat : Expr α → Bool
  | product fs => fs.all fun f => !f.isProduct
  | _ => true

/-- The factors are not nested and have unlike bases, and no division among them absorbs the opposite
of the coefficient. -/
structure Settled (e : Expr α) : Prop where
  flat : e.isFlat = true
  unlike : e.factors.Pairwise fun f g => f.isNumber = false → haveOneBase f g = false
  unabsorbed : ∀ f ∈ e.factors,
    foldReciprocal? (-(splitCoefficient e).1) (splitPower f).1 (splitPower f).2 = none

instance (e : Expr α) : Decidable (Settled e) :=
  decidable_of_iff (_ ∧ _ ∧ _)
    ⟨fun ⟨hflat, hunlike, hunabsorbed⟩ => ⟨hflat, hunlike, hunabsorbed⟩,
      fun h => ⟨h.flat, h.unlike, h.unabsorbed⟩⟩

/-- The expression is a coefficient, which is left out if it is one, and factors that nothing
simplifies. -/
structure Scaled (e : Expr α) (c : α) (gs : List (Expr α)) : Prop where
  split : splitCoefficient e = (c, collapse product gs)
  factors : e.factors = number c :: gs ∨ c = Scalar.one ∧ e.factors = gs
  nonempty : gs ≠ []
  isZero : Scalar.isZero c = false
  each : ∀ g ∈ gs, pow (splitPower g).1 (splitPower g).2 = g ∧ g.isNumber = false ∧
    g.isProduct = false

lemma Shaped.scaled [UnitScalar α] {e : Expr α} (h : Shaped e) (hflat : e.isFlat = true)
    (hnumber : e.isNumber = false) : ∃ c gs, Scaled e c gs := by
  have hself (hproduct : e.isProduct = false)
      (hsplit : Expr.splitCoefficient e = (Scalar.one, e)) : ∃ c gs, Scaled e c gs :=
    ⟨Scalar.one, [e], hsplit, .inr ⟨rfl, factors_of_isProduct hproduct⟩, by simp,
      UnitScalar.isZero_one, by simpa using ⟨h.pow_splitPower hnumber, hnumber, hproduct⟩⟩
  cases h with
  | @product fs hmany hfactors hcoefficient htail =>
    have hflat : ∀ f ∈ fs, f.isProduct = false := by simpa [isFlat] using hflat
    have hfs : (Expr.product fs).factors = fs := factorsAll_of_isProduct hflat
    have heach {f : Expr α} (hf : f ∈ fs) (hnumber : f.isNumber = false) :
        Expr.pow (Expr.splitPower f).1 (Expr.splitPower f).2 = f ∧ f.isNumber = false ∧
          f.isProduct = false :=
      ⟨(hfactors f hf).pow_splitPower hnumber, hnumber, hflat f hf⟩
    match fs with
    | [] | [f] => simp at hmany
    | .number c :: f :: rest =>
      exact ⟨c, f :: rest, rfl, .inl hfs, by simp, (hcoefficient c rfl).1,
        fun g hg => heach (List.mem_cons_of_mem _ hg) (htail g hg)⟩
    | .symbol _ :: f :: rest | .constant _ :: f :: rest | .sum _ :: f :: rest
    | .product _ :: f :: rest | .power _ _ :: f :: rest | .call _ _ :: f :: rest =>
      exact ⟨Scalar.one, _, rfl, .inr ⟨rfl, hfs⟩, by simp, UnitScalar.isZero_one,
        fun g hg => heach hg ((List.mem_cons.mp hg).elim (fun h => h ▸ rfl) (htail g))⟩
  | number x => cases hnumber
  | _ => exact hself rfl rfl

section
variable {e : Expr α} {c : α} {gs : List (Expr α)}

lemma Settled.unabsorbed_of_scaled (h : Settled e) (hscaled : Scaled e c gs) :
    ∀ g ∈ gs, foldReciprocal? (-c) (splitPower g).1 (splitPower g).2 = none := by
  have hunabsorbed := h.unabsorbed
  rw [hscaled.split] at hunabsorbed
  rcases hscaled.factors with hfactors | ⟨-, hfactors⟩
  · rw [hfactors, List.forall_mem_cons] at hunabsorbed
    exact hunabsorbed.2
  · rwa [hfactors] at hunabsorbed

/-- The expression with the opposite coefficient. -/
def opposite (c : α) (gs : List (Expr α)) : Expr α :=
  if Scalar.isOne (-c) then collapse product gs else product (number (-c) :: gs)

/-- The factors are collected as they are. -/
lemma Scaled.foldl_insert (h : Scaled e c gs)
    (hunlike : e.factors.Pairwise fun f g => f.isNumber = false → haveOneBase f g = false) (k : α) :
    e.factors.foldl (Powers.insert add) ⟨k, []⟩ = ⟨k * c, gs.map splitPower⟩ ∨
      c = Scalar.one ∧ e.factors.foldl (Powers.insert add) ⟨k, []⟩ = ⟨k, gs.map splitPower⟩ := by
  have hnone : ∀ g ∈ gs, g.isNumber = false := fun g hg => (h.each g hg).2.1
  have hall : gs.filter (fun g => !g.isNumber) = gs :=
    List.filter_eq_self.mpr fun g hg => by simp [hnone g hg]
  have hgs (k : α) (hpairs : gs.Pairwise fun f g => f.isNumber = false → haveOneBase f g = false) :
      gs.foldl (Powers.insert add) ⟨k, []⟩ = ⟨k, gs.map splitPower⟩ := by
    have hpowers := powers_foldl_insert add ⟨k, []⟩ hpairs (by simp)
    rw [hall, List.nil_append] at hpowers
    exact congrArg₂ Powers.mk (coefficient_foldl_insert add ⟨k, []⟩ hnone) hpowers
  rcases h.factors with hfactors | ⟨hone, hfactors⟩
  · rw [hfactors] at hunlike ⊢
    exact .inl (hgs (k * c) (List.pairwise_cons.mp hunlike).2)
  · rw [hfactors] at hunlike ⊢
    exact .inr ⟨hone, hgs k hunlike⟩

variable [CancellingScalar α]

/-- A product with these factors and the opposite coefficient is put together from them again. -/
lemma Scaled.mul_eq_opposite (h : Scaled e c gs)
    (hfold : ∀ g ∈ gs, foldReciprocal? (-c) (splitPower g).1 (splitPower g).2 = none)
    {fs : List (Expr α)} (hfs : collectPowers add fs = ⟨-c, gs.map splitPower⟩) :
    mul fs = opposite c gs := by
  have hzero : Scalar.isZero (-c) = false := (CancellingScalar.isZero_neg c).trans h.isZero
  have hpush := foldl_push_splitPower [] fun g hg =>
    ⟨(h.each g hg).1, (h.each g hg).2.1, hfold g hg⟩
  have hsome : gs.isEmpty = false := List.isEmpty_eq_false_iff.mpr h.nonempty
  simp only [mul_eq UnitScalar.isOne_one, mulWith, hfs, hzero, hpush]
  simp [Folded.toExpr, hzero, hsome, opposite]

section
variable (h : Scaled e c gs) (hc : Scalar.isFinite c = true) (hsettled : Settled e)
include h hc hsettled

/-- The negation of an expression only has another coefficient. -/
lemma Scaled.neg_eq : neg e = opposite c gs := by
  have hminus : Scalar.one * -Scalar.one = (-Scalar.one : α) :=
    CancellingScalar.one_mul isFinite_neg_one
  have hcollect : collectPowers add [number (-Scalar.one), e] =
      e.factors.foldl (Powers.insert add) ⟨Scalar.one * -Scalar.one, []⟩ := by
    simp [collectPowers, factorsAll, Expr.factors, Powers.insert]
  refine h.mul_eq_opposite (hsettled.unabsorbed_of_scaled h) ?_
  rw [hcollect, hminus]
  rcases h.foldl_insert hsettled.unlike (-Scalar.one) with hfs | ⟨hone, hfs⟩
  · rw [hfs, CancellingScalar.neg_one_mul hc]
  · rw [hfs, hone]

/-- The product with minus one on the right is the negation, too. -/
lemma Scaled.mul_neg_one : mul [e, number (-Scalar.one)] = opposite c gs := by
  have hcollect : collectPowers add [e, number (-Scalar.one)] =
      (e.factors.foldl (Powers.insert add) ⟨Scalar.one, []⟩).insert add (number (-Scalar.one)) := by
    simp [collectPowers, factorsAll, Expr.factors, List.foldl_append]
  refine h.mul_eq_opposite (hsettled.unabsorbed_of_scaled h) ?_
  rw [hcollect]
  rcases h.foldl_insert hsettled.unlike Scalar.one with hfs | ⟨hone, hfs⟩
  · rw [hfs, CancellingScalar.one_mul hc, Powers.insert, CancellingScalar.mul_neg_one hc]
  · have hfinite : Scalar.isFinite (Scalar.one : α) = true := CancellingScalar.isFinite_one
    rw [hfs, Powers.insert, CancellingScalar.mul_neg_one hfinite, hone]

end

omit [CancellingScalar α] in
lemma Scaled.splitCoefficient_collapse (h : Scaled e c gs) :
    splitCoefficient (collapse product gs) = (Scalar.one, collapse product gs) := by
  have heach := h.each
  match gs with
  | [] => exact absurd rfl h.nonempty
  | [g] =>
    have hproduct := (heach g (by simp)).2.2
    show Expr.splitCoefficient g = (Scalar.one, g)
    unfold Expr.splitCoefficient
    split
    · cases hproduct
    · rfl
  | g :: k :: more =>
    have hnumber := (heach g (by simp)).2.1
    show Expr.splitCoefficient (product (g :: k :: more)) = (Scalar.one, product (g :: k :: more))
    unfold Expr.splitCoefficient
    split
    · next hhead =>
      cases hhead
      cases hnumber
    · rfl

/-- The two coefficients add up to zero. -/
lemma Scaled.splitCoefficient_opposite (h : Scaled e c gs) (hc : Scalar.isFinite c = true) :
    ∃ k, splitCoefficient (opposite c gs) = (k, collapse product gs) ∧
      Scalar.isZero (c + k) = true := by
  have hsum := CancellingScalar.isZero_add_neg hc
  unfold opposite
  split_ifs with hone
  · refine ⟨Scalar.one, h.splitCoefficient_collapse, ?_⟩
    rwa [← CancellingScalar.eq_one hone]
  · exact ⟨-c, rfl, hsum⟩

omit [CancellingScalar α] in
lemma Scaled.isNumber_opposite (h : Scaled e c gs) : (opposite c gs).isNumber = false := by
  have heach := h.each
  unfold opposite
  split_ifs
  · match gs with
    | [] => exact absurd rfl h.nonempty
    | [g] => exact (heach g (by simp)).2.1
    | g :: k :: more => rfl
  · rfl

/-- Like terms whose coefficients add up to zero are dropped. -/
lemma add_eq_zero {s t : Expr α} (hs : s.isNumber = false) (ht : t.isNumber = false)
    (hsum : s.isSum = false) (hsum' : t.isSum = false)
    (hlike : equiv (splitCoefficient s).2 (splitCoefficient t).2 = true)
    (hzero : Scalar.isZero ((splitCoefficient s).1 + (splitCoefficient t).1) = true) :
    add [s, t] = number Scalar.zero := by
  have hcollect : collect [s, t] = ⟨Scalar.zero,
      [((splitCoefficient s).1 + (splitCoefficient t).1, (splitCoefficient s).2)]⟩ := by
    rw [collect, termsAll, termsAll, termsAll, terms_of_isSum hsum, terms_of_isSum hsum']
    simp [Collected.insert_of_ne_number (isNumber_eq_false.mp hs),
      Collected.insert_of_ne_number (isNumber_eq_false.mp ht), collectTerm, hlike]
  rw [add_eq UnitScalar.isOne_one]
  simp [addWith, hcollect, restoreTerm, hzero, CancellingScalar.isZero_zero]

/-- An expression and its opposite cancel. -/
lemma Scaled.add_opposite (h : Scaled e c gs) (hfinite : e.IsFinite) (hnumber : e.isNumber = false)
    (hsum : e.isSum = false) (hsum' : (opposite c gs).isSum = false) :
    add [e, opposite c gs] = number Scalar.zero := by
  obtain ⟨hc, hrest⟩ := hfinite.splitCoefficient
  rw [h.split] at hc hrest
  obtain ⟨k, hsplit, hzero⟩ := h.splitCoefficient_opposite hc
  refine add_eq_zero hnumber h.isNumber_opposite hsum hsum' ?_ ?_
  · rw [h.split, hsplit]
    exact hrest.equiv_self
  · rwa [h.split, hsplit]

end

/-- Neither the expression nor its negation is a sum, and the negation has the same factors. -/
structure Opposable (e : Expr α) : Prop extends Settled e where
  isSum : e.isSum = false
  isSum_neg : (neg e).isSum = false

instance (e : Expr α) : Decidable (Opposable e) :=
  decidable_of_iff (Settled e ∧ e.isSum = false ∧ (neg e).isSum = false)
    ⟨fun ⟨hsettled, hsum, hneg⟩ => ⟨hsettled, hsum, hneg⟩,
      fun h => ⟨h.toSettled, h.isSum, h.isSum_neg⟩⟩

section
variable [CancellingScalar α] {e : Expr α}

lemma isZero_zero_add_neg {x : α} (hx : Scalar.isFinite x = true) :
    Scalar.isZero (Scalar.zero + x + -x) = true := by
  cases hzero : Scalar.isZero x with
  | false =>
    rw [CancellingScalar.zero_add hx hzero]
    exact CancellingScalar.isZero_add_neg hx
  | true =>
    have hneg : Scalar.isZero (-x) = true := (CancellingScalar.isZero_neg x).trans hzero
    exact CancellingScalar.isZero_add
      (CancellingScalar.isZero_add CancellingScalar.isZero_zero hzero) hneg

lemma add_numbers {x y : α} (h : Scalar.isZero (Scalar.zero + x + y) = true) :
    add [number x, number y] = number Scalar.zero := by
  rw [add_eq UnitScalar.isOne_one]
  simp [addWith, collect, termsAll, terms, Collected.insert, h]

lemma mul_numbers {x y z : α} (h : Scalar.one * x * y = z) :
    mul [number x, number y] =
      if Scalar.isZero z then number Scalar.zero else number z := by
  rw [mul_eq UnitScalar.isOne_one]
  simp only [mulWith, collectPowers, factorsAll, factors, List.append_nil, List.singleton_append,
    List.foldl_cons, List.foldl_nil, Powers.insert, h]
  split_ifs with hzero
  · rfl
  · simp [Folded.toExpr, hzero]

/-- A finite number and its product with minus one cancel. -/
lemma add_number_opposite {x : α} (hx : Scalar.isFinite x = true) {e : Expr α}
    (he : e = if Scalar.isZero (-x) then number Scalar.zero else number (-x)) :
    add [number x, e] = number Scalar.zero := by
  rw [he]
  split_ifs with hzero
  · rw [CancellingScalar.isZero_neg] at hzero
    have hzero' : Scalar.isZero (Scalar.zero : α) = true := CancellingScalar.isZero_zero
    exact add_numbers (CancellingScalar.isZero_add (CancellingScalar.isZero_add hzero' hzero) hzero')
  · exact add_numbers (isZero_zero_add_neg hx)

lemma neg_number {x : α} (hx : Scalar.isFinite x = true) :
    neg (number x) = if Scalar.isZero (-x) then number Scalar.zero else number (-x) := by
  refine mul_numbers ?_
  rw [CancellingScalar.one_mul isFinite_neg_one, CancellingScalar.neg_one_mul hx]

lemma mul_number_neg_one {x : α} (hx : Scalar.isFinite x = true) :
    mul [number x, number (-Scalar.one)] =
      if Scalar.isZero (-x) then number Scalar.zero else number (-x) := by
  refine mul_numbers ?_
  rw [CancellingScalar.one_mul hx, CancellingScalar.mul_neg_one hx]

section
variable (h : Opposable e) (he : Shaped e) (hfinite : e.IsFinite)
include h he hfinite

/-- On whichever side minus one stands, the expression gets the opposite coefficient. -/
lemma Opposable.exists_opposite (hnumber : e.isNumber = false) :
    ∃ c gs, Scaled e c gs ∧ neg e = opposite c gs ∧
      mul [e, number (-Scalar.one)] = opposite c gs := by
  obtain ⟨c, gs, hscaled⟩ := he.scaled h.flat hnumber
  have hc : Scalar.isFinite c = true := by
    have hc := hfinite.splitCoefficient.1
    rwa [hscaled.split] at hc
  exact ⟨c, gs, hscaled, hscaled.neg_eq hc h.toSettled, hscaled.mul_neg_one hc h.toSettled⟩

/-- An expression minus itself is zero. -/
theorem Opposable.sub_self : sub e e = number Scalar.zero := by
  cases hnumber : e.isNumber with
  | true =>
    obtain ⟨x, rfl⟩ := isNumber_eq_true.mp hnumber
    have hx := isFinite_number.mp hfinite
    exact add_number_opposite hx (neg_number hx)
  | false =>
    obtain ⟨c, gs, hscaled, hneg, -⟩ := h.exists_opposite he hfinite hnumber
    have hsum := h.isSum_neg
    rw [hneg] at hsum
    rw [sub, hneg]
    exact hscaled.add_opposite hfinite hnumber h.isSum hsum

/-- The exponents of an expression and its reciprocal cancel. -/
lemma Opposable.add_mul_neg_one : add [e, mul [e, number (-Scalar.one)]] = number Scalar.zero := by
  cases hnumber : e.isNumber with
  | true =>
    obtain ⟨x, rfl⟩ := isNumber_eq_true.mp hnumber
    have hx := isFinite_number.mp hfinite
    exact add_number_opposite hx (mul_number_neg_one hx)
  | false =>
    obtain ⟨c, gs, hscaled, hneg, hmul⟩ := h.exists_opposite he hfinite hnumber
    have hsum := h.isSum_neg
    rw [hneg] at hsum
    rw [hmul]
    exact hscaled.add_opposite hfinite hnumber h.isSum hsum

end

end

/-- Neither the expression nor its reciprocal is a product, and an exponent of it is opposable. The
power of a number to a negative whole exponent is computed by multiplying and by another way; if
its reciprocal is a number, both give that number, and it is not zero. -/
structure Invertible (e : Expr α) : Prop where
  isProduct : e.isProduct = false
  isProduct_reciprocal : (pow e (number (-Scalar.one))).isProduct = false
  exponent {b x : Expr α} (h : e = power b x) : Opposable x
  ofNumbers {y v : α} (h : e = power (number y) (number v)) :
    Scalar.isZero y = false ∧ ∀ n w, Scalar.whole? v = some n → n < 0 →
      Scalar.power? y n.natAbs = some w →
        Scalar.isZero w = false ∧ w = Scalar.natPower y n.natAbs

section
variable [CancellingScalar α] {e : Expr α}

lemma whole?_neg_one : Scalar.whole? (-Scalar.one : α) = some (-1) := by
  rw [CancellingScalar.whole?_neg, CancellingScalar.whole?_one, Option.map_some]

lemma whole?_of_neg {v : α} {n : ℤ} (h : Scalar.whole? (-v) = some n) :
    Scalar.whole? v = some (-n) := by
  rw [CancellingScalar.whole?_neg, Option.map_eq_some_iff] at h
  obtain ⟨m, hm, rfl⟩ := h
  rw [hm, neg_neg]

lemma isOne_neg_one : Scalar.isOne (-Scalar.one : α) = false := by
  rw [Bool.eq_false_iff]
  intro hone
  have hwhole := whole?_neg_one (α := α)
  rw [CancellingScalar.eq_one hone, CancellingScalar.whole?_one] at hwhole
  cases hwhole

lemma isZero_neg_one : Scalar.isZero (-Scalar.one : α) = false :=
  (CancellingScalar.isZero_neg _).trans UnitScalar.isZero_one

lemma natPower_one {x : α} (hx : Scalar.isFinite x = true) : Scalar.natPower x 1 = x := by
  have hlimit : min 1 (Scalar.exponentLimit α) = 1 :=
    min_eq_left CancellingScalar.exponentLimit_pos
  simp [Scalar.natPower, hlimit, Scalar.squareAndMultiply, CancellingScalar.one_mul hx]

omit [CancellingScalar α] in
/-- An exponent that is no number does not simplify. -/
lemma Unfolded.of_isNumber {b x : Expr α} (hb : b.isOne = false) (hx : x.isNumber = false) :
    Unfolded b x := by
  cases x with
  | number v => cases hx
  | _ =>
    refine ⟨rfl, rfl, hb, fun hy => ?_, fun _ => rfl⟩
    rw [hy]
    rfl

lemma Unfolded.pow_eq {b e : Expr α} (h : Unfolded b e) : pow b e = power b e :=
  (Expr.pow_eq UnitScalar.isOne_one b e).trans (h.irreducible mul)

/-- If the exponents of equal bases cancel, the product is one. -/
lemma mul_of_opposite_exponents {r b x x' : Expr α} (he : e.isNumber = false)
    (hr : r.isNumber = false) (he' : e.isProduct = false) (hr' : r.isProduct = false)
    (hsplit : splitPower e = (b, x)) (hsplit' : splitPower r = (b, x')) (hb : equiv b b = true)
    (hadd : add [x, x'] = number Scalar.zero) : mul [e, r] = number Scalar.one := by
  have hcollect : collectPowers add [e, r] = ⟨Scalar.one, [(b, number Scalar.zero)]⟩ := by
    rw [collectPowers, factorsAll, factorsAll, factorsAll, factors_of_isProduct he',
      factors_of_isProduct hr']
    simp [Powers.insert_of_ne_number (isNumber_eq_false.mp he),
      Powers.insert_of_ne_number (isNumber_eq_false.mp hr), hsplit, hsplit', collectPower, hb, hadd]
  have hpow : pow b (number Scalar.zero) = number Scalar.one := by
    have hzero : (number (Scalar.zero : α)).isZero = true := CancellingScalar.isZero_zero
    rw [pow_eq UnitScalar.isOne_one, powWith.eq_def]
    simp [hzero]
  have hfold : foldReciprocal? Scalar.one b (number Scalar.zero) = none := by
    cases b with
    | number y => simp [foldReciprocal?, CancellingScalar.whole?_zero]
    | _ => rfl
  have hone : Scalar.one * Scalar.one = (Scalar.one : α) :=
    CancellingScalar.one_mul CancellingScalar.isFinite_one
  rw [mul_eq UnitScalar.isOne_one]
  simp [mulWith, hcollect, UnitScalar.isZero_one, Folded.push, hfold, hpow, hone, Folded.toExpr]

/-- A coefficient divided by a power of a number that it is equal to. -/
lemma mul_of_reciprocal {fs : List (Expr α)} {w y v : α} {n : ℤ}
    (hfs : collectPowers add fs = ⟨w, [(number y, number v)]⟩) (hw : Scalar.isFinite w = true)
    (hzero : Scalar.isZero w = false) (hy : Scalar.isZero y = false)
    (hv : Scalar.whole? v = some n) (hn : n < 0) (hpower : Scalar.natPower y n.natAbs = w) :
    mul fs = number Scalar.one := by
  have hfold : foldReciprocal? w (number y) (number v) = some Scalar.one := by
    simp [foldReciprocal?, hv, hn, hy, hpower, CancellingScalar.quotient?_self hw hzero]
  rw [mul_eq UnitScalar.isOne_one]
  simp [mulWith, hfs, hzero, Folded.push, hfold, Folded.toExpr, UnitScalar.isZero_one]

lemma mul_power_number {w y v : α} {n : ℤ} (hw : Scalar.isFinite w = true)
    (hzero : Scalar.isZero w = false) (hy : Scalar.isZero y = false)
    (hv : Scalar.whole? v = some n) (hn : n < 0) (hpower : Scalar.natPower y n.natAbs = w) :
    mul [power (number y) (number v), number w] = number Scalar.one := by
  refine mul_of_reciprocal ?_ hw hzero hy hv hn hpower
  simp [collectPowers, factorsAll, factors, Powers.insert, splitPower, collectPower,
    CancellingScalar.one_mul hw]

lemma div_number_self {x : α} (hx : Scalar.isFinite x = true) (hzero : Scalar.isZero x = false) :
    div (number x) (number x) = number Scalar.one := by
  have hminus : (number (-Scalar.one : α)).isZero = false := isZero_neg_one
  by_cases hone : Scalar.isOne x = true
  · obtain rfl := CancellingScalar.eq_one hone
    have hpow : pow (number Scalar.one) (number (-Scalar.one)) = number (Scalar.one : α) := by
      have hbase : (number (Scalar.one : α)).isOne = true := hone
      rw [pow_eq UnitScalar.isOne_one, powWith.eq_def]
      simp [hbase]
    have hone : Scalar.one * Scalar.one = (Scalar.one : α) := CancellingScalar.one_mul hx
    rw [div, hpow, mul_numbers (z := Scalar.one) (by rw [hone, hone])]
    simp [UnitScalar.isZero_one]
  · have hunfolded : Unfolded (number x) (number (-Scalar.one)) := by
      refine ⟨hminus, isOne_neg_one, by simpa [isOne] using hone, fun hy => ?_,
        (by cases ·)⟩
      cases hy
      simp [numberPower, whole?_neg_one, hzero]
    rw [div, hunfolded.pow_eq]
    refine mul_of_reciprocal (w := x) ?_ hx hzero hzero whole?_neg_one (by decide) ?_
    · simp [collectPowers, factorsAll, factors, Powers.insert, splitPower, collectPower,
        CancellingScalar.one_mul hx]
    · exact natPower_one hx

/-- The reciprocal of a power has the same base. -/
lemma pow_power_neg_one (b x : Expr α) :
    pow (power b x) (number (-Scalar.one)) = pow b (mul [x, number (-Scalar.one)]) := by
  have hzero : (number (-Scalar.one : α)).isZero = false := isZero_neg_one
  have hone : (number (-Scalar.one : α)).isOne = false := isOne_neg_one
  have hbase : (power b x).isOne = false := rfl
  rw [pow_eq UnitScalar.isOne_one, pow_eq UnitScalar.isOne_one, powWith.eq_def]
  simp [hzero, hone, hbase, wholeExponent?, whole?_neg_one]

omit [CancellingScalar α] in
lemma numberPower_eq_number {y v w : α} (h : numberPower y (number v) = number w) :
    (∃ n, Scalar.whole? v = some n ∧ 0 < n ∧ Scalar.power? y n.toNat = some w) ∨
      Scalar.isZero y = true := by
  simp only [numberPower] at h
  split at h
  · next value hfolded =>
    split at hfolded
    · next n hn =>
      split_ifs at hfolded with hpositive
      cases h
      exact .inl ⟨n, hn, hpositive, hfolded⟩
    · cases hfolded
  · split_ifs at h with hbase
    exact .inr (Bool.and_eq_true_iff.mp hbase).1

section
variable {b x : Expr α} (h : Invertible (power b x)) (he : Shaped (power b x))
  (hfinite : (power b x).IsFinite)
include h he hfinite

/-- A power whose reciprocal is the power to the opposite exponent. -/
lemma Invertible.div_of_unfolded (hx : Unfolded b (mul [x, number (-Scalar.one)])) :
    div (power b x) (power b x) = number Scalar.one := by
  obtain ⟨hb, hexponent⟩ := isFinite_power.mp hfinite
  cases he with
  | power _ hx' _ =>
    rw [div, pow_power_neg_one, hx.pow_eq]
    exact mul_of_opposite_exponents rfl rfl rfl rfl rfl rfl hb.equiv_self
      ((h.exponent rfl).add_mul_neg_one hx' hexponent)

/-- An exponent that is no number. -/
lemma Invertible.div_power_self (hnumber : x.isNumber = false) :
    div (power b x) (power b x) = number Scalar.one := by
  refine h.div_of_unfolded he hfinite ?_
  cases he with
  | power hb hx hunfolded =>
    obtain ⟨c, gs, hscaled, -, hmul⟩ :=
      (h.exponent rfl).exists_opposite hx (isFinite_power.mp hfinite).2 hnumber
    rw [hmul]
    exact .of_isNumber hunfolded.base_isOne hscaled.isNumber_opposite

end

section
variable {b : Expr α} {v : α} (h : Invertible (power b (number v)))
  (he : Shaped (power b (number v))) (hfinite : (power b (number v)).IsFinite)
include h he hfinite

omit h in
lemma mul_exponent_neg_one : mul [number v, number (-Scalar.one)] = number (-v) := by
  cases he with
  | power _ _ hunfolded =>
    have hv : Scalar.isZero (-v) = false :=
      (CancellingScalar.isZero_neg v).trans hunfolded.exponent_isZero
    rw [mul_number_neg_one (isFinite_number.mp (isFinite_power.mp hfinite).2)]
    simp [hv]

omit h in
/-- The reciprocal of a power with a numeric exponent has the opposite exponent. -/
lemma pow_power_number_neg_one :
    pow (power b (number v)) (number (-Scalar.one)) = pow b (number (-v)) := by
  rw [pow_power_neg_one, mul_exponent_neg_one he hfinite]

/-- A reciprocal has a reciprocal that is no power. -/
lemma Invertible.div_reciprocal_self (hone : Scalar.isOne (-v) = true) :
    div (power b (number v)) (power b (number v)) = number Scalar.one := by
  have hexponent := mul_exponent_neg_one he hfinite
  obtain ⟨hb, hv⟩ := isFinite_power.mp hfinite
  have hwhole : Scalar.whole? v = some (-1) := by
    refine whole?_of_neg ?_
    rw [CancellingScalar.eq_one hone, CancellingScalar.whole?_one]
  have hcancel := (h.exponent rfl).add_mul_neg_one (.number v) hv
  rw [hexponent, CancellingScalar.eq_one hone] at hcancel
  have hproduct := h.isProduct_reciprocal
  have hpow : pow (power b (number v)) (number (-Scalar.one)) = b := by
    rw [pow_power_number_neg_one he hfinite]
    cases he with
    | power _ _ hunfolded =>
      have hzero : (Expr.number (-v)).isZero = false :=
        (CancellingScalar.isZero_neg v).trans hunfolded.exponent_isZero
      have hone : (Expr.number (-v)).isOne = true := hone
      rw [pow_eq UnitScalar.isOne_one, powWith.eq_def]
      simp [hzero, hunfolded.base_isOne, hone]
  rw [hpow] at hproduct
  rw [div, hpow]
  cases b with
  | number y =>
    have hy := isFinite_number.mp hb
    have hbase := (h.ofNumbers rfl).1
    exact mul_power_number hy hbase hbase hwhole (by decide) (natPower_one hy)
  | power inner z =>
    cases he with
    | power _ _ hunfolded =>
      have hnested := hunfolded.nested rfl
      simp [wholeExponent?, hwhole] at hnested
  | product fs => cases hproduct
  | _ => exact mul_of_opposite_exponents rfl rfl rfl rfl rfl rfl hb.equiv_self hcancel

end

/-- The reciprocal is computed to be a number. -/
lemma Invertible.div_folded_self {y v w : α} (h : Invertible (power (number y) (number v)))
    (he : Shaped (power (number y) (number v))) (hfinite : (power (number y) (number v)).IsFinite)
    (hone : ¬Scalar.isOne (-v) = true)
    (hw : numberPower y (number (-v)) = number w) :
    div (power (number y) (number v)) (power (number y) (number v)) = number Scalar.one := by
  obtain ⟨hy, hreciprocal⟩ := h.ofNumbers rfl
  obtain ⟨n, hn, hpositive, hpower⟩ :=
    (numberPower_eq_number hw).resolve_right (by simp [hy])
  have habs : n.toNat = (-n).natAbs := by omega
  rw [habs] at hpower
  obtain ⟨hzero, hsame⟩ := hreciprocal (-n) w (whole?_of_neg hn) (by omega) hpower
  have hpow : pow (power (number y) (number v)) (number (-Scalar.one)) = number w := by
    rw [pow_power_number_neg_one he hfinite]
    cases he with
    | power _ _ hunfolded =>
      have hzero : (Expr.number (-v)).isZero = false :=
        (CancellingScalar.isZero_neg v).trans hunfolded.exponent_isZero
      have hone : ¬(Expr.number (-v)).isOne = true := hone
      rw [pow_eq UnitScalar.isOne_one, powWith.eq_def]
      simp [hzero, hunfolded.base_isOne, hone, hw]
  have hfinite := CancellingScalar.isFinite_of_power? hpower
  rw [div, hpow]
  exact mul_power_number hfinite hzero hy (whole?_of_neg hn) (by omega) hsame.symm

section
variable {b : Expr α} {v : α} (h : Invertible (power b (number v)))
  (he : Shaped (power b (number v))) (hfinite : (power b (number v)).IsFinite)
include h he hfinite

/-- An exponent that is a number. -/
lemma Invertible.div_power_number_self :
    div (power b (number v)) (power b (number v)) = number Scalar.one := by
  by_cases hone : Scalar.isOne (-v) = true
  · exact h.div_reciprocal_self he hfinite hone
  have hexponent := mul_exponent_neg_one he hfinite
  have hunfolded : Unfolded b (Expr.number v) := by
    cases he with
    | power _ _ hunfolded => exact hunfolded
  have hreciprocal (hnumber : ∀ {y}, b = Expr.number y →
      numberPower y (Expr.number (-v)) = power b (Expr.number (-v))) :
      Unfolded b (Expr.number (-v)) := by
    refine ⟨(CancellingScalar.isZero_neg v).trans hunfolded.exponent_isZero,
      by simpa [isOne] using hone, hunfolded.base_isOne, hnumber, fun hpower => ?_⟩
    have hnested := hunfolded.nested hpower
    simp only [wholeExponent?, Option.map_eq_none_iff] at hnested ⊢
    rw [CancellingScalar.whole?_neg, hnested, Option.map_none]
  cases b with
  | number y =>
    rcases weight_numberPower y (Expr.number (-v)) with hpower | hweight
    · refine h.div_of_unfolded he hfinite ?_
      rw [hexponent]
      exact hreciprocal fun hy => by cases hy; exact hpower
    · obtain ⟨w, hw⟩ := weight_eq_zero.mp hweight
      exact h.div_folded_self he hfinite hone hw
  | _ =>
    refine h.div_of_unfolded he hfinite ?_
    rw [hexponent]
    exact hreciprocal (by cases ·)

end

/-- An expression divided by itself is one. -/
theorem Invertible.div_self (h : Invertible e) (he : Shaped e) (hfinite : e.IsFinite)
    (hzero : e.isZero = false) : div e e = number Scalar.one := by
  have hbase (hnumber : e.isNumber = false) (hpower : e.isPower = false) :
      div e e = number Scalar.one := by
    have hone : e.isOne = false := by
      cases e with
      | number x => cases hnumber
      | _ => rfl
    have hsplit : splitPower e = (e, number Scalar.one) := by
      cases e with
      | power b x => cases hpower
      | _ => rfl
    have hunfolded : Unfolded e (number (-Scalar.one)) :=
      ⟨isZero_neg_one, isOne_neg_one, hone, fun hx => by simp [hx, isNumber] at hnumber,
        by simp [hpower]⟩
    have hcancel : add [number Scalar.one, number (-Scalar.one)] = number (Scalar.zero : α) :=
      add_numbers (isZero_zero_add_neg CancellingScalar.isFinite_one)
    rw [div, hunfolded.pow_eq]
    exact mul_of_opposite_exponents hnumber rfl h.isProduct rfl hsplit rfl hfinite.equiv_self hcancel
  cases e with
  | number x => exact div_number_self (isFinite_number.mp hfinite) hzero
  | power b x =>
    cases hnumber : x.isNumber with
    | true =>
      obtain ⟨v, rfl⟩ := isNumber_eq_true.mp hnumber
      exact h.div_power_number_self he hfinite
    | false => exact h.div_power_self he hfinite hnumber
  | _ => exact hbase rfl rfl

end

/-- A parsed expression without infinite or undefined numbers gives zero when it is subtracted from
itself, if it is opposable, and one when it is divided by itself, if it is invertible and not
zero. -/
theorem sub_self_and_div_self {v : Vocabulary} {text : String} {e : Expr Float}
    (hparse : parse v text = .ok e) (hfinite : e.nonFinite? = none) :
    (Opposable e → sub e e = number Scalar.zero) ∧
      (e.isZero = false → Invertible e → div e e = number Scalar.one) := by
  have hshaped := shaped_parse hparse
  have hfinite := isFinite_of_nonFinite? hfinite
  exact ⟨fun h => h.sub_self hshaped hfinite, fun hzero h => h.div_self hshaped hfinite hzero⟩

/-- Sums and negated sums do not cancel, and neither do products, reciprocals of products, powers to
sums, and powers of zero to negative numbers. -/
theorem not_sub_self_and_div_self :
    (∀ text ∈ ["x + y", "-(x + y)"], ∃ e : Expr Float, parse (.ofList ["x", "y"]) text = .ok e ∧
      e.nonFinite? = none ∧ (sub e e).isZero = false) ∧
    ∀ text ∈ ["x*y", "1/(x*y)", "x**(1 + y)", "0**(-1)"],
      ∃ e : Expr Float, parse (.ofList ["x", "y"]) text = .ok e ∧ e.nonFinite? = none ∧
        e.isZero = false ∧ (div e e).isOne = false := by
  have hsub : ∀ text ∈ ["x + y", "-(x + y)"],
      (parse (.ofList ["x", "y"]) text : Except ExprFault (Expr Float)).toOption.any (fun e =>
        e.nonFinite?.isNone && !(sub e e).isZero) = true := by decide +kernel
  have hdiv : ∀ text ∈ ["x*y", "1/(x*y)", "x**(1 + y)", "0**(-1)"],
      (parse (.ofList ["x", "y"]) text : Except ExprFault (Expr Float)).toOption.any (fun e =>
        e.nonFinite?.isNone && !e.isZero && !(div e e).isOne) = true := by decide +kernel
  refine ⟨fun text htext => ?_, fun text htext => ?_⟩
  · obtain ⟨e, he, hfails⟩ := (Option.any_eq_true _ _).mp (hsub text htext)
    exact ⟨e, Formula.eq_ok_of_toOption he, by simpa using hfails⟩
  · obtain ⟨e, he, hfails⟩ := (Option.any_eq_true _ _).mp (hdiv text htext)
    exact ⟨e, Formula.eq_ok_of_toOption he, by simpa [and_assoc] using hfails⟩

/-- The base is a sum, and the exponent is a product with a division that its coefficient does not
make whole. -/
theorem sub_self_and_div_self_power :
    ∃ e : Expr Float, parse (.ofList ["x", "y"]) "(x + y)**(2*x/3)" = .ok e ∧
      sub e e = number Scalar.zero ∧ div e e = number Scalar.one := by
  have hparse : (parse (.ofList ["x", "y"]) "(x + y)**(2*x/3)" :
      Except ExprFault (Expr Float)).toOption.any (fun e =>
        e.nonFinite?.isNone && !e.isZero && decide (Opposable e) && (splitPower e).1.isSum &&
          !(pow e (number (-Scalar.one))).isProduct && !e.isProduct &&
            decide (Opposable (splitPower e).2)) = true := by decide +kernel
  obtain ⟨e, hsome, hcancels⟩ := (Option.any_eq_true _ _).mp hparse
  have he := Formula.eq_ok_of_toOption hsome
  simp only [Bool.and_eq_true, Option.isNone_iff_eq_none, decide_eq_true_eq,
    Bool.not_eq_true'] at hcancels
  obtain ⟨⟨⟨⟨⟨⟨hfinite, hzero⟩, hopposable⟩, hbase⟩, hreciprocal⟩, hproduct⟩, hexponent⟩ := hcancels
  have hinvertible : Invertible e := by
    refine ⟨hproduct, hreciprocal, fun h => ?_, fun h => ?_⟩
    · rw [h] at hexponent
      exact hexponent
    · rw [h] at hbase
      cases hbase
  obtain ⟨hsub, hdiv⟩ := sub_self_and_div_self he hfinite
  exact ⟨e, he, hsub hopposable, hdiv hzero hinvertible⟩

end EquationCompiler.Expr
