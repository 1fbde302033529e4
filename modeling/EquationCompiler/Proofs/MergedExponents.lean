import EquationCompiler.Proofs.DivisionOrder

/-!
# Exponents that are added up

A product adds the exponents of one base, one factor after the other. What has been
added up is taken apart again for the next exponent, so nothing must be put back as
something else in between. Exponents are plain if that cannot happen. The order in which
plain exponents are added does not matter.
-/
namespace EquationCompiler.Expr
variable {α : Type} [Scalar α]

/-- What is left of a term without its coefficient, if it stays what it is when terms are added up:
it is no sum and contains no division by a number. -/
structure PlainRest (rest : Expr α) : Prop where
  bare : Bare rest
  isSum : rest.isSum = false
  divisions : divisions rest = []

/-- An expression in normal form with such terms. -/
structure Plain (e : Expr α) : Prop where
  normal : Normal e
  rest {t : Expr α} (ht : t ∈ e.terms) (hnumber : t.isNumber = false) :
    PlainRest (splitCoefficient t).2

lemma plainRest_of_mem_collect {es : List (Expr α)} (h : ∀ e ∈ es, Plain e) :
    ∀ t ∈ (collect es).terms, PlainRest t.2 :=
  forall_mem_collect fun t ht hnumber => by
    obtain ⟨e, he, ht⟩ := mem_termsAll.mp ht
    exact (h e he).rest ht hnumber

lemma terms_collapse {β : Type} {ts : List (Expr β)} (hne : ts ≠ [])
    (h : ∀ t ∈ ts, t.isSum = false) : (collapse sum ts).terms = ts := by
  match ts with
  | [] => exact absurd rfl hne
  | [t] => exact terms_of_isSum (h t (by simp))
  | _ :: _ :: _ => exact termsAll_of_isSum h

section
variable [RealValued α] [FaithfulScalar α]

/-- A plain term is put back with the coefficient that it has been collected with. -/
lemma PlainRest.restored {t : α × Expr α} (h : PlainRest t.2) (hzero : Scalar.isZero t.1 = false) :
    Normal (restored t) ∧ (restored t).isSum = false ∧ (restored t).isNumber = false ∧
      splitCoefficient (restored t) = t := by
  cases hone : Scalar.isOne t.1 with
  | true =>
    have hrestored : Expr.restored t = t.2 := by simp [Expr.restored, hone]
    rw [hrestored, h.bare.splitCoefficient, ← (FaithfulScalar.isOne_iff t.1).mp hone]
    exact ⟨h.bare.normal, h.isSum, h.bare.isNumber_eq_false, rfl⟩
  | false =>
    have hfold : ∀ f ∈ t.2.factors,
        foldReciprocal? (Scalar.one * t.1) (splitPower f).1 (splitPower f).2 = none := by
      intro f hf
      have hnone := h.divisions
      rw [h.bare.divisions_eq, List.filter_eq_nil_iff] at hnone
      exact foldReciprocal?_eq_none (by simpa using hnone _ (List.mem_map_of_mem hf)) _
    have hmul := mul_number_of_bare h.bare (c := t.1) (by rwa [FaithfulScalar.one_mul])
      (by rwa [FaithfulScalar.one_mul]) hfold
    have hscale := h.bare.normal.scale t.1
    rw [hmul, FaithfulScalar.one_mul] at hscale
    have hrestored : Expr.restored t = product (number t.1 :: t.2.factors) := by
      rw [Expr.restored, hone, if_neg Bool.false_ne_true, hmul, FaithfulScalar.one_mul]
    rw [hrestored]
    exact ⟨hscale, rfl, rfl, congrArg (Prod.mk t.1) h.bare.collapse_factors⟩

/-- Coefficients that have become zero do not count. -/
lemma sum_share_filter (ts : List (α × Expr α)) (rest : Expr α) :
    ((ts.filter fun t => !Scalar.isZero t.1).map (share rest)).sum = (ts.map (share rest)).sum := by
  induction ts with
  | nil => rfl
  | cons t ts ih =>
    cases hzero : Scalar.isZero t.1 with
    | true =>
      have hshare : share rest t = 0 := by simp [share, (FaithfulScalar.isZero_iff t.1).mp hzero]
      simp [hzero, ih, hshare]
    | false => simp [hzero, ih]

/-- The terms that are put back into a sum of plain expressions. -/
lemma plain_restored {es : List (Expr α)} (h : ∀ e ∈ es, Plain e) {t : α × Expr α}
    (ht : t ∈ (collect es).terms.filter fun t => !Scalar.isZero t.1) :
    PlainRest t.2 ∧ Normal (restored t) ∧ (restored t).isSum = false ∧
      (restored t).isNumber = false ∧ splitCoefficient (restored t) = t := by
  obtain ⟨hmem, hzero⟩ := List.mem_filter.mp ht
  have hrest := plainRest_of_mem_collect h t hmem
  exact ⟨hrest, hrest.restored (by simpa using hzero)⟩

/-- The terms of an expression in normal form that is plain. -/
structure PlainTerms (ts : List (Expr α)) : Prop where
  term {t : Expr α} (ht : t ∈ ts) : Normal t ∧ t.isSum = false
  rest {t : Expr α} (ht : t ∈ ts) (hnumber : t.isNumber = false) : PlainRest (splitCoefficient t).2
  isNumber : ∀ t ∈ ts.tail, t.isNumber = false
  unlike : ts.Pairwise fun s t => areLike s t = false

lemma plainTerms_summands {es : List (Expr α)} (h : ∀ e ∈ es, Plain e) :
    PlainTerms (summands es) := by
  set kept := (collect es).terms.filter fun t => !Scalar.isZero t.1 with hkept
  have hput : ∀ r ∈ kept.map restored, Normal r ∧ r.isSum = false ∧ r.isNumber = false ∧
      PlainRest (splitCoefficient r).2 := by
    intro r hr
    obtain ⟨t, ht, rfl⟩ := List.mem_map.mp hr
    obtain ⟨hrest, hnormal, hsum, hnumber, hsplit⟩ := plain_restored h ht
    exact ⟨hnormal, hsum, hnumber, by rwa [hsplit]⟩
  have hunlike : (kept.map restored).Pairwise fun s t => areLike s t = false := by
    rw [List.pairwise_map]
    have hcollected := (collect_unlike fun e he => (h e he).normal).2.filter
      fun t => !Scalar.isZero t.1
    refine hcollected.imp_of_mem fun {s t} hs ht hlike => ?_
    rwa [areLike, (plain_restored h hs).2.2.2.2, (plain_restored h ht).2.2.2.2]
  simp only [summands]
  split_ifs
  · exact ⟨fun ht => ⟨(hput _ ht).1, (hput _ ht).2.1⟩, fun ht _ => (hput _ ht).2.2.2,
      fun t ht => (hput t (List.mem_of_mem_tail ht)).2.2.1, hunlike⟩
  · refine ⟨fun ht => ?_, fun ht hnumber => ?_, fun t ht => (hput t ht).2.2.1,
      List.pairwise_cons.mpr ⟨fun t ht => ?_, hunlike⟩⟩
    · rcases List.mem_cons.mp ht with rfl | ht
      · exact ⟨.number _, rfl⟩
      · exact ⟨(hput _ ht).1, (hput _ ht).2.1⟩
    · rcases List.mem_cons.mp ht with rfl | ht
      · cases hnumber
      · exact (hput _ ht).2.2.2
    · exact areLike_number _ (hput t ht).1 (hput t ht).2.2.1

lemma sum_amount_summands {es : List (Expr α)} (h : ∀ e ∈ es, Plain e) (kind : Option (Expr α)) :
    ((summands es).map (amount kind)).sum = ((termsAll es).map (amount kind)).sum := by
  have hkept : (((collect es).terms.filter fun t => !Scalar.isZero t.1).map restored).map
      (amount kind) = ((collect es).terms.filter fun t => !Scalar.isZero t.1).map
        fun t => kind.elim 0 fun rest => share rest t := by
    rw [List.map_map]
    refine List.map_congr_left fun t ht => ?_
    obtain ⟨-, -, -, hnumber, hsplit⟩ := plain_restored h ht
    rw [Function.comp_apply, amount_of_isNumber hnumber, hsplit]
  rw [← amount_collect]
  cases hzero : Scalar.isZero (collect es).constant with
  | true =>
    have hconstant := (FaithfulScalar.isZero_iff _).mp hzero
    cases kind <;> simp [summands, hzero, hkept, Collected.amount, sum_share_filter, hconstant]
  | false =>
    cases kind <;> simp [summands, hzero, hkept, Collected.amount, sum_share_filter, amount]

/-- Adding up plain expressions keeps all amounts. -/
theorem plain_add {es : List (Expr α)} (h : ∀ e ∈ es, Plain e) :
    Plain (add es) ∧
      ∀ kind, ((add es).terms.map (amount kind)).sum = ((termsAll es).map (amount kind)).sum := by
  have hterms := plainTerms_summands h
  rw [add_eq_summands]
  split_ifs with hempty
  · rw [List.isEmpty_iff] at hempty
    refine ⟨⟨.number _, fun ht hnumber => ?_⟩, fun kind => ?_⟩
    · rw [List.mem_singleton.mp ht] at hnumber
      cases hnumber
    · rw [← sum_amount_summands h, hempty]
      cases kind <;> simp [terms, amount]
  · rw [List.isEmpty_iff] at hempty
    have hcollapse : (collapse sum (summands es)).terms = summands es :=
      terms_collapse hempty fun t ht => (hterms.term ht).2
    refine ⟨⟨?_, fun ht hnumber => ?_⟩, fun kind => ?_⟩
    · exact normal_collapse_sum hempty (fun t ht => hterms.term ht) hterms.isNumber hterms.unlike
    · rw [hcollapse] at ht
      exact hterms.rest ht hnumber
    · rw [hcollapse, sum_amount_summands h]

/-- The sum of exponents that are added one after the other. -/
def addUp (x : Expr α) (xs : List (Expr α)) : Expr α := xs.foldl (fun x e => add [x, e]) x

lemma plain_addUp {x : Expr α} {xs : List (Expr α)} (h : ∀ e ∈ x :: xs, Plain e) :
    Plain (addUp x xs) ∧ ∀ kind, ((addUp x xs).terms.map (amount kind)).sum =
      ((termsAll (x :: xs)).map (amount kind)).sum := by
  induction xs generalizing x with
  | nil => exact ⟨h x (by simp), fun kind => by simp [addUp, termsAll]⟩
  | cons e xs ih =>
    rw [List.forall_mem_cons, List.forall_mem_cons] at h
    have hpair : ∀ a ∈ [x, e], Plain a := by simpa using ⟨h.1, h.2.1⟩
    obtain ⟨hplain, hsum⟩ := plain_add hpair
    obtain ⟨hrest, hrestSum⟩ := ih (x := add [x, e]) (List.forall_mem_cons.mpr ⟨hplain, h.2.2⟩)
    refine ⟨hrest, fun kind => (hrestSum kind).trans ?_⟩
    simp only [termsAll, List.map_append, List.sum_append, hsum, List.append_nil, add_assoc]

/-- Before the last exponent is added to the others, they amount to the same together. -/
lemma plain_addUp_concat {x e : Expr α} {xs : List (Expr α)}
    (h : ∀ a ∈ x :: (xs ++ [e]), Plain a) :
    (∀ a ∈ [addUp x xs, e], Plain a) ∧ ∀ kind,
      ((termsAll [addUp x xs, e]).map (amount kind)).sum =
        (((x :: (xs ++ [e])).flatMap terms).map (amount kind)).sum := by
  have hbefore : ∀ a ∈ x :: xs, Plain a := fun a ha => h a (by
    rw [← List.cons_append]
    exact List.mem_append_left _ ha)
  obtain ⟨hplain, hsum⟩ := plain_addUp hbefore
  refine ⟨by simpa using ⟨hplain, h e (by simp)⟩, fun kind => ?_⟩
  rw [← List.cons_append, List.flatMap_append, List.map_append, List.sum_append,
    ← termsAll_eq_flatMap, ← hsum]
  simp [termsAll]

/-- The order of plain exponents does not matter. -/
theorem equiv_addUp {x y : Expr α} {xs ys : List (Expr α)} (hperm : (x :: xs).Perm (y :: ys))
    (h : ∀ e ∈ x :: xs, Plain e) : equiv (addUp x xs) (addUp y ys) = true := by
  have hplain : ∀ e ∈ y :: ys, Plain e := fun e he => h e (hperm.symm.subset he)
  rcases List.eq_nil_or_concat' xs with rfl | ⟨xs, e, rfl⟩
  · obtain ⟨rfl, rfl⟩ := List.cons_eq_cons.mp (List.perm_singleton.mp hperm.symm)
    exact equiv_rfl _
  · rcases List.eq_nil_or_concat' ys with rfl | ⟨ys, f, rfl⟩
    · simpa using hperm.length_eq
    · -- Both are sums of two, the last exponent and what has been added up before.
      obtain ⟨hleft, hleftSum⟩ := plain_addUp_concat h
      obtain ⟨hright, hrightSum⟩ := plain_addUp_concat hplain
      have hnone {es : List (Expr α)} (hes : ∀ a ∈ es, Plain a) {t : Expr α} (ht : t ∈ termsAll es)
          (hnumber : t.isNumber = false) : divisions t = [] := by
        obtain ⟨a, ha, ht⟩ := mem_termsAll.mp ht
        have hrest := (hes a ha).rest ht hnumber
        rw [← hrest.bare.divisions_of_splitCoefficient, hrest.divisions]
      rw [addUp, addUp, List.foldl_append, List.foldl_append]
      refine equiv_add_of_amount (fun a ha => (hleft a ha).normal)
        (fun a ha => (hright a ha).normal) (fun kind => ?_) fun t ht u hu htNumber huNumber _ => ?_
      · exact (hleftSum kind).trans
          ((((hperm.flatMap_right terms).map _).sum_eq).trans (hrightSum kind).symm)
      · rw [hnone hleft ht htNumber, hnone hright hu huNumber]

end

/-- The factors with the base `b`. -/
def factorsOf (b : Expr α) (fs : List (Expr α)) : List (Expr α) :=
  fs.filter fun f => !f.isNumber && equiv (splitPower f).1 b

lemma mem_factorsOf {b f : Expr α} {fs : List (Expr α)} :
    f ∈ factorsOf b fs ↔ f ∈ fs ∧ f.isNumber = false ∧ equiv (splitPower f).1 b = true := by
  simp [factorsOf]

/-- The exponents of the base `b`. -/
def exponentsOf (b : Expr α) (fs : List (Expr α)) : List (Expr α) :=
  (factorsOf b fs).map fun f => (splitPower f).2

/-- What a base has been collected with. -/
def exponent? (b : Expr α) (ps : List (Expr α × Expr α)) : Option (Expr α) :=
  (ps.find? fun p => equiv p.1 b).map Prod.snd

lemma exponent?_cons (b : Expr α) (p : Expr α × Expr α) (ps : List (Expr α × Expr α)) :
    exponent? b (p :: ps) = if equiv p.1 b then some p.2 else exponent? b ps := by
  cases h : equiv p.1 b <;> simp [exponent?, h]

/-- The sum of exponents, if there are any. -/
def addUp? : List (Expr α) → Option (Expr α)
  | [] => none
  | x :: xs => some (addUp x xs)

lemma addUp?_concat (xs : List (Expr α)) (e : Expr α) :
    addUp? (xs ++ [e]) = some (((addUp? xs).map fun x => add [x, e]).getD e) := by
  cases xs with
  | nil => rfl
  | cons x xs => simp [addUp?, addUp]

section
variable [ComparableScalar α]

lemma exponent?_collectPower (b c e : Expr α) (ps : List (Expr α × Expr α)) :
    exponent? c (collectPower add b e ps) =
      if equiv b c then some (((exponent? c ps).map fun x => add [x, e]).getD e)
      else exponent? c ps := by
  induction ps with
  | nil => cases hc : equiv b c <;> simp [collectPower, exponent?, hc]
  | cons p ps ih =>
    obtain ⟨a, x⟩ := p
    simp only [collectPower]
    split_ifs with hab hbc hbc
    · rw [exponent?_cons, exponent?_cons, steady _ _ hab c, hbc]
      rfl
    · rw [exponent?_cons, exponent?_cons, steady _ _ hab c, if_neg hbc, if_neg hbc]
    · have hac : equiv a c = false := by
        rw [Bool.eq_false_iff]
        exact fun hac => hab (equiv_trans hac (equiv_symm hbc))
      rw [exponent?_cons, exponent?_cons, ih, if_pos hbc]
      simp [hac]
    · rw [exponent?_cons, exponent?_cons, ih, if_neg hbc]

/-- A base is collected with the sum of the exponents that it has in the factors. -/
theorem exponent?_foldl_insert (fs : List (Expr α)) (c : Expr α) :
    exponent? c (fs.foldl (Powers.insert add) ⟨Scalar.one, []⟩).powers =
      addUp? (exponentsOf c fs) := by
  induction fs using List.reverseRecOn with
  | nil => rfl
  | append_singleton fs f ih =>
    rw [List.foldl_append, List.foldl_cons, List.foldl_nil]
    by_cases hnumber : f.isNumber
    · have hsame : exponentsOf c (fs ++ [f]) = exponentsOf c fs := by
        simp [exponentsOf, factorsOf, hnumber]
      cases f with
      | number x => rw [hsame, ← ih]; rfl
      | _ => cases hnumber
    · rw [Bool.not_eq_true] at hnumber
      rw [Powers.insert_of_ne_number (isNumber_eq_false.mp hnumber), exponent?_collectPower, ih]
      split_ifs with hlike
      · have hmore : exponentsOf c (fs ++ [f]) = exponentsOf c fs ++ [(splitPower f).2] := by
          simp [exponentsOf, factorsOf, hnumber, hlike]
        rw [hmore, addUp?_concat]
      · have hsame : exponentsOf c (fs ++ [f]) = exponentsOf c fs := by
          simp [exponentsOf, factorsOf, hlike]
        rw [hsame]

end

/-- The bases that have been collected are those of factors. -/
lemma exists_factor_of_mem {fs : List (Expr α)} {b : Expr α}
    (hb : b ∈ (fs.foldl (Powers.insert add) ⟨Scalar.one, []⟩).powers.map Prod.fst) :
    ∃ f ∈ fs, f.isNumber = false ∧ (splitPower f).1 = b := by
  induction fs using List.reverseRecOn with
  | nil => cases hb
  | append_singleton fs f ih =>
    rw [List.foldl_append, List.foldl_cons, List.foldl_nil] at hb
    have hearlier (h : ∃ g ∈ fs, g.isNumber = false ∧ (splitPower g).1 = b) :
        ∃ g ∈ fs ++ [f], g.isNumber = false ∧ (splitPower g).1 = b := by
      obtain ⟨g, hg, hrest⟩ := h
      exact ⟨g, List.mem_append_left _ hg, hrest⟩
    by_cases hnumber : f.isNumber
    · cases f with
      | number x => exact hearlier (ih hb)
      | _ => cases hnumber
    · rw [Bool.not_eq_true] at hnumber
      rw [Powers.insert_of_ne_number (isNumber_eq_false.mp hnumber)] at hb
      rcases map_fst_collectPower add (splitPower f).1 (splitPower f).2
        (fs.foldl (Powers.insert add) ⟨Scalar.one, []⟩).powers with hsame | ⟨-, hnew⟩
      · rw [hsame] at hb
        exact hearlier (ih hb)
      · simp only [hnew, List.map_append, List.mem_append, List.map_singleton,
          List.mem_singleton] at hb
        rcases hb with hb | rfl
        · exact hearlier (ih hb)
        · exact ⟨f, by simp, hnumber, rfl⟩

section
variable [RealValued α] [FaithfulScalar α]

/-- Where bases are unlike, each is found with its own exponent. -/
lemma exponent?_of_mem {ps : List (Expr α × Expr α)}
    (hunlike : ps.Pairwise fun p q => equiv p.1 q.1 = false) {p : Expr α × Expr α} (hp : p ∈ ps) :
    exponent? p.1 ps = some p.2 := by
  induction ps with
  | nil => cases hp
  | cons q ps ih =>
    rw [List.pairwise_cons] at hunlike
    rw [exponent?_cons]
    rcases List.mem_cons.mp hp with rfl | hp
    · rw [if_pos (equiv_rfl _)]
    · rw [hunlike.1 p hp, if_neg Bool.false_ne_true, ih hunlike.2 hp]

/-- What a product collects under a base is the sum of its exponents. -/
lemma addUp?_exponentsOf {es : List (Expr α)} {p : Expr α × Expr α}
    (hp : p ∈ (collectPowers add es).powers) :
    addUp? (exponentsOf p.1 (factorsAll es)) = some p.2 := by
  rw [← exponent?_foldl_insert]
  exact exponent?_of_mem (collectPowers_unlike add es) hp

end

end EquationCompiler.Expr
