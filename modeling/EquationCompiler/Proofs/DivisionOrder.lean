import EquationCompiler.Proofs.LikeTerms

/-!
# The order of divisions

A product folds its powers into the coefficient one after the other, each into what the
ones before have left, and passes the others on as they are. Only divisions by numbers
and powers of numbers change the coefficient, so all other factors may be moved around.
Adding up terms in another order is then the same up to order, if like terms list their
divisions by numbers in the same order.
-/
namespace EquationCompiler.Expr
variable {α : Type} [Scalar α]

/-- The factor that a power is put back as, unless it is a number. -/
def putBack (p : Expr α × Expr α) : Option (Expr α) :=
  match pow p.1 p.2 with
  | number _ => none
  | e => some e

/-- Factors that are there already are not touched. -/
lemma push_frame (k : α) (gs : List (Expr α)) (p : Expr α × Expr α) :
    Folded.push pow ⟨k, gs⟩ p =
      ⟨(Folded.push pow ⟨k, []⟩ p).coefficient, gs ++ (Folded.push pow ⟨k, []⟩ p).factors⟩ := by
  simp only [Folded.push]
  split
  · simp
  · split <;> simp

lemma foldl_push_frame (k : α) (gs : List (Expr α)) (ps : List (Expr α × Expr α)) :
    ps.foldl (Folded.push pow) ⟨k, gs⟩ =
      ⟨(ps.foldl (Folded.push pow) ⟨k, []⟩).coefficient,
        gs ++ (ps.foldl (Folded.push pow) ⟨k, []⟩).factors⟩ := by
  induction ps generalizing k gs with
  | nil => simp
  | cons p ps ih =>
    rw [List.foldl_cons, List.foldl_cons, push_frame, ih, ih _ (Folded.push pow ⟨k, []⟩ p).factors]
    simp

/-- The power does not change the coefficient, whatever that is. -/
def KeepsCoefficient (p : Expr α × Expr α) : Prop :=
  (∀ k, foldReciprocal? k p.1 p.2 = none) ∧ ∀ x, pow p.1 p.2 = number x → x = Scalar.one

section
variable [RealValued α] [FaithfulScalar α]

lemma push_of_keepsCoefficient {p : Expr α × Expr α} (h : KeepsCoefficient p) (k : α) :
    Folded.push pow ⟨k, []⟩ p = ⟨k, (putBack p).toList⟩ := by
  cases hpow : pow p.1 p.2 with
  | number x => simp [Folded.push, putBack, h.1 k, hpow, h.2 x hpow, FaithfulScalar.mul_one]
  | _ => simp [Folded.push, putBack, h.1 k, hpow]

/-- Powers that do not change the coefficient can be set aside. -/
theorem foldl_push_split {q : Expr α × Expr α → Bool} {ps : List (Expr α × Expr α)}
    (h : ∀ p ∈ ps, q p = false → KeepsCoefficient p) (k : α) :
    (ps.foldl (Folded.push pow) ⟨k, []⟩).coefficient =
        ((ps.filter q).foldl (Folded.push pow) ⟨k, []⟩).coefficient ∧
      (ps.foldl (Folded.push pow) ⟨k, []⟩).factors.Perm
        (((ps.filter q).foldl (Folded.push pow) ⟨k, []⟩).factors ++
          (ps.filter fun p => !q p).filterMap putBack) := by
  induction ps generalizing k with
  | nil => simp
  | cons p ps ih =>
    rw [List.forall_mem_cons] at h
    cases hq : q p with
    | true =>
      obtain ⟨hcoefficient, hfactors⟩ := ih h.2 (Folded.push pow ⟨k, []⟩ p).coefficient
      rw [List.filter_cons_of_pos hq, List.filter_cons_of_neg (by simp [hq]), List.foldl_cons,
        List.foldl_cons, foldl_push_frame, foldl_push_frame _ _ (ps.filter q)]
      exact ⟨hcoefficient, by simpa using hfactors.append_left _⟩
    | false =>
      obtain ⟨hcoefficient, hfactors⟩ := ih h.2 k
      rw [List.filter_cons_of_neg (by simp [hq]), List.filter_cons_of_pos (by simp [hq]),
        List.foldl_cons, push_of_keepsCoefficient (h.1 hq), foldl_push_frame]
      refine ⟨hcoefficient, ?_⟩
      cases hback : putBack p with
      | none => simpa [hback] using hfactors
      | some e =>
        rw [List.filterMap_cons_some hback]
        exact (hfactors.cons e).trans List.perm_middle.symm

lemma equiv_toExpr {f g : Folded α} (hcoefficient : f.coefficient = g.coefficient)
    (h : Pairs f.factors g.factors) : equiv f.toExpr g.toExpr = true := by
  have hempty : f.factors.isEmpty = g.factors.isEmpty := by
    rw [Bool.eq_iff_iff, List.isEmpty_iff_length_eq_zero, List.isEmpty_iff_length_eq_zero,
      h.length_eq]
  simp only [Folded.toExpr, hcoefficient, hempty]
  split_ifs
  · exact equiv_rfl _
  · exact equiv_rfl _
  · exact h.equiv_collapse fun _ _ => equiv_product
  · exact equiv_product (h.cons (equiv_rfl _))

/-- Powers of which those that change the coefficient are the same, in the same order, make up the
same product up to order. -/
theorem equiv_foldl_push {q : Expr α × Expr α → Bool} {ps qs : List (Expr α × Expr α)}
    (hps : ∀ p ∈ ps, q p = false → KeepsCoefficient p)
    (hqs : ∀ p ∈ qs, q p = false → KeepsCoefficient p) (hsame : ps.filter q = qs.filter q)
    (hothers : Pairs ((ps.filter fun p => !q p).filterMap putBack)
      ((qs.filter fun p => !q p).filterMap putBack)) (k : α) :
    equiv (ps.foldl (Folded.push pow) ⟨k, []⟩).toExpr
      (qs.foldl (Folded.push pow) ⟨k, []⟩).toExpr = true := by
  obtain ⟨hpsCoefficient, hpsFactors⟩ := foldl_push_split hps k
  obtain ⟨hqsCoefficient, hqsFactors⟩ := foldl_push_split hqs k
  rw [hsame] at hpsCoefficient hpsFactors
  refine equiv_toExpr (hpsCoefficient.trans hqsCoefficient.symm) ?_
  exact (hothers.append_left _).perm hpsFactors hqsFactors

end

/-- Whether the power divides by a number, so that a coefficient can absorb it. -/
def isDivision : Expr α × Expr α → Bool
  | (number b, number e) =>
    match Scalar.whole? e with
    | some n => decide (n < 0) && !Scalar.isZero b
    | none => false
  | _ => false

/-- The divisions by numbers in a term, from left to right, its coefficient apart. -/
def divisions (t : Expr α) : List (Expr α × Expr α) :=
  ((splitCoefficient t).2.factors.map splitPower).filter isDivision

lemma Bare.divisions_eq {e : Expr α} (h : Bare e) :
    divisions e = (e.factors.map splitPower).filter isDivision := by
  rw [divisions, h.splitCoefficient]

lemma Bare.divisions_of_splitCoefficient {t : Expr α} (h : Bare (Expr.splitCoefficient t).2) :
    divisions (Expr.splitCoefficient t).2 = divisions t := h.divisions_eq

lemma foldReciprocal?_eq_none {p : Expr α × Expr α} (h : isDivision p = false) (k : α) :
    foldReciprocal? k p.1 p.2 = none := by
  match p with
  | (number b, number e) =>
    simp only [foldReciprocal?]
    split
    · next n hn =>
      have hno : ¬(n < 0 ∧ ¬Scalar.isZero b = true) := by simpa [isDivision, hn] using h
      rw [if_neg hno]
    · rfl
  | (number b, symbol _) | (number b, constant _) | (number b, sum _) | (number b, product _)
  | (number b, power _ _) | (number b, call _ _) | (symbol _, _) | (constant _, _) | (sum _, _)
  | (product _, _) | (power _ _, _) | (call _ _, _) => rfl

lemma isNumber_congr {a b : Expr α} (h : equiv a b = true) : a.isNumber = b.isNumber := by
  cases a <;> cases b <;> first | rfl | cases h

lemma isDivision_of_base {b : Expr α} (h : b.isNumber = false) (e : Expr α) :
    isDivision (b, e) = false := by
  cases b with
  | number x => cases h
  | _ => rfl

lemma isDivision_of_exponent (b : Expr α) {e : Expr α} (h : e.isNumber = false) :
    isDivision (b, e) = false := by
  cases b with
  | number x =>
    cases e with
    | number y => cases h
    | _ => rfl
  | _ => rfl

section
variable [RealValued α] [FaithfulScalar α]

lemma eq_of_equiv_number {x : α} {e : Expr α} (h : equiv (number x) e = true) : e = number x := by
  cases e with
  | number y => rw [(FaithfulScalar.same_iff x y).mp h]
  | _ => cases h

lemma splitPower_congr {f g : Expr α} (h : equiv f g = true) :
    equiv (splitPower f).1 (splitPower g).1 = true ∧
      equiv (splitPower f).2 (splitPower g).2 = true := by
  match f, g with
  | power b e, power c x => exact Bool.and_eq_true _ _ ▸ h
  | number _, number _ | symbol _, symbol _ | constant _, constant _ | sum _, sum _
  | product _, product _ | call _ _, call _ _ => exact ⟨h, equiv_rfl _⟩

lemma isDivision_congr {b c e x : Expr α} (hbase : equiv b c = true)
    (hexponent : equiv e x = true) : isDivision (b, e) = isDivision (c, x) := by
  cases b with
  | number y =>
    cases e with
    | number z => rw [eq_of_equiv_number hbase, eq_of_equiv_number hexponent]
    | _ =>
      rw [isDivision_of_exponent _ rfl, isDivision_of_exponent c (isNumber_congr hexponent).symm]
  | _ => rw [isDivision_of_base rfl, isDivision_of_base (isNumber_congr hbase).symm]

lemma keepsCoefficient_splitPower {f : Expr α} (h : Normal f) (hnumber : f.isNumber = false)
    (hdivision : isDivision (splitPower f) = false) : KeepsCoefficient (splitPower f) := by
  refine ⟨foldReciprocal?_eq_none hdivision, fun x hx => ?_⟩
  rw [h.pow_splitPower hnumber] at hx
  rw [hx] at hnumber
  cases hnumber

omit [RealValued α] [FaithfulScalar α] in
/-- The factors of a product in normal form are those that it is made of. -/
lemma pairs_factors {a b : Expr α} (ha : Normal a) (hb : Normal b) (h : equiv a b = true) :
    Pairs a.factors b.factors := by
  cases ha with
  | product _ _ hflat _ _ =>
    cases hb with
    | product _ _ hflat' _ _ =>
      rw [factors, factors, factorsAll_of_isProduct hflat, factorsAll_of_isProduct hflat']
      exact pairs_of_matchAll h
    | _ => cases h
  | _ =>
    cases hb with
    | product _ _ _ _ _ => cases h
    | _ => exact ⟨_, .cons h .nil, .refl _⟩

/-- The factors of a term are put back as they are, divisions apart. -/
lemma filterMap_putBack {fs : List (Expr α)} (h : ∀ f ∈ fs, Normal f ∧ f.isNumber = false) :
    ((fs.map splitPower).filter fun p => !isDivision p).filterMap putBack =
      fs.filter fun f => !isDivision (splitPower f) := by
  induction fs with
  | nil => rfl
  | cons f fs ih =>
    rw [List.forall_mem_cons] at h
    have hback : putBack (splitPower f) = some f := by
      rw [putBack, h.1.1.pow_splitPower h.1.2]
      cases f with
      | number x => cases h.1.2
      | _ => rfl
    cases hdivision : isDivision (splitPower f) <;> simp [hdivision, hback, ih h.2]

omit [RealValued α] [FaithfulScalar α] in
lemma mul_number_eq [UnitScalar α] {rest : Expr α} (h : Bare rest) (c : α) :
    mul [number c, rest] =
      if Scalar.isZero (Scalar.one * c) then number Scalar.zero
      else ((rest.factors.map splitPower).foldl (Folded.push pow) ⟨Scalar.one * c, []⟩).toExpr := by
  rw [mul_eq UnitScalar.isOne_one, mulWith, collectPowers_number_of_bare h]

/-- Like terms with the same divisions are put back alike. -/
theorem equiv_restored {t u : α × Expr α} (ht : Bare t.2) (hu : Bare u.2) (hsame : t.1 = u.1)
    (hlike : equiv t.2 u.2 = true) (hdivisions : divisions t.2 = divisions u.2) :
    equiv (restored t) (restored u) = true := by
  have hfactors {e : Expr α} (h : Bare e) : ∀ f ∈ e.factors, Normal f ∧ f.isNumber = false :=
    fun f hf => ⟨(h.normal.of_mem_factors hf).1, h.isNumber hf⟩
  have hkeeps {e : Expr α} (h : Bare e) :
      ∀ p ∈ e.factors.map splitPower, isDivision p = false → KeepsCoefficient p := by
    intro p hp hdivision
    obtain ⟨f, hf, rfl⟩ := List.mem_map.mp hp
    exact keepsCoefficient_splitPower (hfactors h f hf).1 (hfactors h f hf).2 hdivision
  simp only [restored, hsame]
  split_ifs with hone
  · exact hlike
  · rw [mul_number_eq ht, mul_number_eq hu]
    split_ifs
    · exact equiv_rfl _
    · rw [ht.divisions_eq, hu.divisions_eq] at hdivisions
      refine equiv_foldl_push (hkeeps ht) (hkeeps hu) hdivisions ?_ _
      rw [filterMap_putBack (hfactors ht), filterMap_putBack (hfactors hu)]
      exact (pairs_factors ht.normal hu.normal hlike).filter fun a b hab => by
        obtain ⟨hbase, hexponent⟩ := splitPower_congr hab
        rw [isDivision_congr hbase hexponent]

omit [RealValued α] [FaithfulScalar α] in
/-- Collected terms are what is left of terms without their coefficients. -/
lemma forall_mem_collect {P : Expr α → Prop} {ts : List (Expr α)}
    (h : ∀ t ∈ termsAll ts, t.isNumber = false → P (splitCoefficient t).2) :
    ∀ t ∈ (collect ts).terms, P t.2 := by
  have hfold (ts : List (Expr α)) (s : Collected α)
      (hts : ∀ t ∈ ts, t.isNumber = false → P (splitCoefficient t).2) (hs : ∀ t ∈ s.terms, P t.2) :
      ∀ t ∈ (ts.foldl Collected.insert s).terms, P t.2 := by
    induction ts generalizing s with
    | nil => exact hs
    | cons t ts ih =>
      rw [List.forall_mem_cons] at hts
      refine ih _ hts.2 ?_
      by_cases hnumber : t.isNumber
      · cases t with
        | number x => exact hs
        | _ => cases hnumber
      · rw [Bool.not_eq_true] at hnumber
        rw [Collected.insert_of_ne_number (isNumber_eq_false.mp hnumber)]
        exact forall_mem_collectTerm (hts.1 hnumber) hs
  exact hfold _ _ h (by simp)

/-- Sums with the same amounts are equal up to order, if like terms have the same divisions. -/
theorem equiv_add_of_amount {ts us : List (Expr α)} (hts : ∀ t ∈ ts, Normal t)
    (hus : ∀ t ∈ us, Normal t)
    (hamount : ∀ kind,
      ((termsAll ts).map (amount kind)).sum = ((termsAll us).map (amount kind)).sum)
    (hdivisions : ∀ t ∈ termsAll ts, ∀ u ∈ termsAll us, t.isNumber = false → u.isNumber = false →
      areLike t u = true → divisions t = divisions u) : equiv (add ts) (add us) = true := by
  have hbare {es : List (Expr α)} (h : ∀ e ∈ es, Normal e) {t : Expr α} (ht : t ∈ termsAll es)
      (hnumber : t.isNumber = false) : Bare (splitCoefficient t).2 := by
    obtain ⟨e, he, ht⟩ := mem_termsAll.mp ht
    exact ((h e he).of_mem_terms ht).1.bare_splitCoefficient hnumber
  refine equiv_add hts hus hamount ?_
  suffices hrests : ∀ t ∈ (collect ts).terms, ∀ u ∈ (collect us).terms,
      equiv t.2 u.2 = true → divisions t.2 = divisions u.2 from
    fun t ht u hu hsame hlike => equiv_restored ((collect_unlike hts).1 t ht)
      ((collect_unlike hus).1 u hu) hsame hlike (hrests t ht u hu hlike)
  refine forall_mem_collect (P := fun r => ∀ u ∈ (collect us).terms, equiv r u.2 = true →
    divisions r = divisions u.2) fun t ht hnumber => ?_
  refine forall_mem_collect (P := fun r => equiv (splitCoefficient t).2 r = true →
    divisions (splitCoefficient t).2 = divisions r) fun u hu hnumber' hlike => ?_
  rw [(hbare hts ht hnumber).divisions_of_splitCoefficient,
    (hbare hus hu hnumber').divisions_of_splitCoefficient]
  exact hdivisions t ht u hu hnumber hnumber' hlike

omit [Scalar α] [RealValued α] [FaithfulScalar α] in
lemma termsAll_eq_flatMap (es : List (Expr α)) : termsAll es = es.flatMap terms := by
  induction es with
  | nil => rfl
  | cons e es ih => rw [termsAll, ih, List.flatMap_cons]

omit [Scalar α] [RealValued α] [FaithfulScalar α] in
lemma factorsAll_eq_flatMap (es : List (Expr α)) : factorsAll es = es.flatMap factors := by
  induction es with
  | nil => rfl
  | cons e es ih => rw [factorsAll, ih, List.flatMap_cons]

/-- Terms may be added up in any order, if like terms list their divisions by numbers in the same
order. -/
theorem equiv_add_of_perm {es es' : List (Expr α)} (hperm : es'.Perm es)
    (hnormal : ∀ e ∈ es, Normal e)
    (hdivisions : ∀ s ∈ termsAll es, ∀ t ∈ termsAll es, areLike s t = true →
      divisions s = divisions t) : equiv (add es') (add es) = true := by
  have hterms : (termsAll es').Perm (termsAll es) := by
    rw [termsAll_eq_flatMap, termsAll_eq_flatMap]
    exact hperm.flatMap_right terms
  exact equiv_add_of_amount (fun e he => hnormal e (hperm.subset he)) hnormal
    (fun kind => (hterms.map _).sum_eq) fun s hs t ht _ _ => hdivisions s (hterms.subset hs) t ht

end

end EquationCompiler.Expr
