import EquationCompiler.Proofs.NormalForm

/-!
# Constructors and normal forms

The simplifier compares what it is given, but what it puts back into the result is
not compared again: a collected term whose coefficient has come back to one, or has
been absorbed by a division in the term, and a base whose exponents have added up to
one or to a whole number. The constructors keep normal forms as long as none of this
happens. Powers and functions always do.
-/
namespace EquationCompiler.Expr
variable {α : Type} [Scalar α]

/-- The power is a number or a factor with the base that it has been collected under. -/
def Fits (p : Expr α × Expr α) : Prop :=
  (pow p.1 p.2).isNumber = true ∨
    Normal (pow p.1 p.2) ∧ (pow p.1 p.2).isProduct = false ∧ (splitPower (pow p.1 p.2)).1 = p.1

lemma factors_push (pow : Expr α → Expr α → Expr α) (f : Folded α) (p : Expr α × Expr α) :
    (f.push pow p).factors = f.factors ∨
      (pow p.1 p.2).isNumber = false ∧ (f.push pow p).factors = f.factors ++ [pow p.1 p.2] := by
  unfold Folded.push
  dsimp only
  split
  · exact .inl rfl
  · split
    · exact .inl rfl
    · next hother => exact .inr ⟨isNumber_eq_false.mpr hother, rfl⟩

/-- What is put back are factors in normal form with the bases that have been collected, though
some may be gone. -/
lemma factors_foldl_push {ps : List (Expr α × Expr α)} (h : ∀ p ∈ ps, Fits p) (f : Folded α) :
    ∃ gs, (ps.foldl (Folded.push pow) f).factors = f.factors ++ gs ∧
      (gs.map fun g => (splitPower g).1).Sublist (ps.map Prod.fst) ∧
      ∀ g ∈ gs, Normal g ∧ g.isProduct = false ∧ g.isNumber = false := by
  induction ps generalizing f with
  | nil => exact ⟨[], by simp⟩
  | cons p ps ih =>
    rw [List.forall_mem_cons] at h
    obtain ⟨gs, hfactors, hbases, hgs⟩ := ih h.2 (f.push pow p)
    rw [List.foldl_cons, hfactors, List.map_cons]
    rcases factors_push pow f p with hsame | ⟨hnumber, hnew⟩
    · exact ⟨gs, by rw [hsame], hbases.cons _, hgs⟩
    · obtain ⟨hnormal, hproduct, hbase⟩ := h.1.resolve_left (by simp [hnumber])
      refine ⟨pow p.1 p.2 :: gs, by simp [hnew], ?_,
        List.forall_mem_cons.mpr ⟨⟨hnormal, hproduct, hnumber⟩, hgs⟩⟩
      rw [List.map_cons, hbase]
      exact hbases.cons_cons _

lemma normal_toExpr {f : Folded α}
    (h : ∀ g ∈ f.factors, Normal g ∧ g.isProduct = false ∧ g.isNumber = false)
    (hunlike : f.factors.Pairwise fun g g' => haveOneBase g g' = false) : Normal f.toExpr := by
  have hpairwise : f.factors.Pairwise fun g g' => g.isNumber = false → haveOneBase g g' = false := by
    refine hunlike.imp ?_
    exact fun h _ => h
  unfold Folded.toExpr
  split_ifs with hzero hempty hone
  · exact .number _
  · exact .number _
  · unfold collapse
    split
    · next g hg => exact (h g (by simp [hg])).1
    · next hmany =>
      refine .product ?_ (fun g hg => (h g hg).1) (fun g hg => (h g hg).2.1)
        (fun g hg => (h g (List.mem_of_mem_tail hg)).2.2) hpairwise
      match hfactors : f.factors with
      | [] => simp [hfactors] at hempty
      | [g] => exact absurd hfactors (hmany g)
      | _ :: _ :: _ => simp
  · refine .product ?_ ?_ ?_ (fun g hg => (h g hg).2.2) ?_
    · have := List.length_pos_iff.mpr (by simpa using hempty)
      simp only [List.length_cons]
      omega
    · exact List.forall_mem_cons.mpr ⟨.number _, fun g hg => (h g hg).1⟩
    · exact List.forall_mem_cons.mpr ⟨rfl, fun g hg => (h g hg).2.1⟩
    · exact List.pairwise_cons.mpr ⟨fun _ _ hnumber => (by cases hnumber), hpairwise⟩

variable [UnitScalar α]

/-- A product is in normal form if the powers collected for it fit. -/
lemma normal_mul_of_fits {fs : List (Expr α)} (h : ∀ p ∈ (collectPowers add fs).powers, Fits p) :
    Normal (mul fs) := by
  rw [mul_eq UnitScalar.isOne_one]
  unfold mulWith
  dsimp only
  split_ifs
  · exact .number _
  · obtain ⟨gs, hfactors, hbases, hgs⟩ := factors_foldl_push h ⟨(collectPowers add fs).coefficient, []⟩
    rw [List.nil_append] at hfactors
    refine normal_toExpr (by rwa [hfactors]) ?_
    have hunlike := collectPowers_unlike add fs
    rw [← List.pairwise_map (f := Prod.fst) (R := fun a b => equiv a b = false)] at hunlike
    rw [hfactors]
    exact List.pairwise_map.mp (hunlike.sublist hbases)

/-- A factor is the power of its base to its exponent. -/
lemma pow_splitPower_of_irreducible {f : Expr α} (hnumber : f.isNumber = false)
    (h : ∀ b e, f = Expr.power b e → Irreducible b e) :
    pow (splitPower f).1 (splitPower f).2 = f := by
  rw [pow_eq UnitScalar.isOne_one]
  have hbase : f.isOne = false := by
    cases f with
    | number x => cases hnumber
    | _ => rfl
  have hzero : (Expr.number (Scalar.one : α)).isZero = false := UnitScalar.isZero_one
  have hone : (Expr.number (Scalar.one : α)).isOne = true := UnitScalar.isOne_one
  cases f with
  | power b e => exact h b e rfl mul
  | _ =>
    rw [powWith.eq_def]
    simp [splitPower, hzero, hone, hbase]

lemma Normal.pow_splitPower {f : Expr α} (h : Normal f) (hnumber : f.isNumber = false) :
    pow (Expr.splitPower f).1 (Expr.splitPower f).2 = f := by
  refine pow_splitPower_of_irreducible hnumber fun b e hf => ?_
  subst hf
  cases h with
  | power hb he hreduced => exact hreduced

lemma Normal.fits {f : Expr α} (h : Normal f) (hproduct : f.isProduct = false)
    (hnumber : f.isNumber = false) : Fits (Expr.splitPower f) := by
  have hpow := h.pow_splitPower hnumber
  refine .inr ?_
  rw [hpow]
  exact ⟨h, hproduct, rfl⟩

/-- A product of an expression and numbers only changes its coefficient. -/
lemma normal_mul_of_powers {e : Expr α} (h : Normal e) {fs : List (Expr α)}
    (hfs : (collectPowers add fs).powers = (e.factors.filter fun f => !f.isNumber).map splitPower) :
    Normal (mul fs) := by
  refine normal_mul_of_fits ?_
  rw [hfs]
  intro p hp
  obtain ⟨f, hf, rfl⟩ := List.mem_map.mp hp
  obtain ⟨hmem, hnumber⟩ := List.mem_filter.mp hf
  obtain ⟨hnormal, hproduct⟩ := h.of_mem_factors hmem
  exact hnormal.fits hproduct (by simpa using hnumber)

theorem Normal.scale {e : Expr α} (h : Normal e) (c : α) : Normal (mul [Expr.number c, e]) := by
  refine normal_mul_of_powers h ?_
  have hpowers := powers_foldl_insert add ⟨Scalar.one * c, []⟩ h.pairwise_factors (by simp)
  simpa [collectPowers, factorsAll, factors, Powers.insert] using hpowers

theorem Normal.scale_right {e : Expr α} (h : Normal e) (c : α) :
    Normal (mul [e, Expr.number c]) := by
  refine normal_mul_of_powers h ?_
  have hpowers := powers_foldl_insert add ⟨Scalar.one, []⟩ h.pairwise_factors (by simp)
  simpa [collectPowers, factorsAll, factors, Powers.insert] using hpowers

theorem Normal.pow {b e : Expr α} (hb : Normal b) (he : Normal e) : Normal (pow b e) := by
  rw [pow_eq UnitScalar.isOne_one]
  fun_induction powWith mul b e with
  | case1 => exact .number _
  | case2 => exact hb
  | case3 exponent hexponent b htrivial =>
    rcases weight_numberPower b exponent with hpower | hnumber
    · rw [hpower]
      refine .power hb he fun mul => ?_
      rw [powWith.eq_def]
      simp [htrivial, hexponent, hpower]
    · obtain ⟨x, hx⟩ := weight_eq_zero.mp hnumber
      rw [hx]
      exact .number x
  | case4 exponent _ inner e p hwhole _ ih =>
    -- One of the exponents that are multiplied is a number, so no bases are merged.
    obtain ⟨x, rfl⟩ := number_of_wholeExponent? hwhole
    cases hb with
    | power hinner he' hreduced => exact ih hinner (he'.scale_right x)
  | case5 | case6 =>
    refine .power hb he fun mul => ?_
    rw [powWith.eq_def]
    simp [*]

/-- Whether a collected power is put back under the base that it has been collected under. A base
that is a product is put back into the product by the exponent one, and a base that is a power
changes its own exponent by a whole one. -/
def keepsBase : Expr α × Expr α → Bool
  | (product _, e) => e.isZero || !e.isOne
  | (power _ _, e) => e.isZero || !e.isOne && (wholeExponent? e).isNone
  | _ => true

lemma fits_of_keepsBase {p : Expr α × Expr α} (hbase : Normal p.1) (hexponent : Normal p.2)
    (h : keepsBase p = true) : Fits p := by
  obtain ⟨b, e⟩ := p
  have hnormal := hbase.pow hexponent
  simp only [Fits]
  by_cases htrivial : (e.isZero || b.isOne) = true
  · exact .inl (by simp [pow_eq UnitScalar.isOne_one, powWith.eq_def, htrivial, isNumber])
  have hzero : e.isZero = false := by simp_all
  by_cases hone : e.isOne = true
  · have hpow : pow b e = b := by
      rw [pow_eq UnitScalar.isOne_one, powWith.eq_def]
      simp [htrivial, hone]
    rw [hpow]
    cases b with
    | number x => exact .inl rfl
    | product fs | power c x => simp [keepsBase, hzero, hone] at h
    | _ => exact .inr ⟨hbase, rfl, rfl⟩
  · have hkept (hpow : pow b e = power b e) :
        (pow b e).isNumber = true ∨
          Normal (pow b e) ∧ (pow b e).isProduct = false ∧ (splitPower (pow b e)).1 = b :=
      .inr (by rw [hpow] at hnormal ⊢; exact ⟨hnormal, rfl, rfl⟩)
    cases b with
    | number x =>
      have hpow : pow (number x) e = numberPower x e := by
        rw [pow_eq UnitScalar.isOne_one, powWith.eq_def]
        simp [htrivial, hone]
      rcases weight_numberPower x e with hpower | hnumber
      · exact hkept (hpow.trans hpower)
      · obtain ⟨y, hy⟩ := weight_eq_zero.mp hnumber
        exact .inl (by rw [hpow, hy, isNumber])
    | power c x =>
      have hwhole : wholeExponent? e = none := by simpa [keepsBase, hzero, hone] using h
      refine hkept ?_
      rw [pow_eq UnitScalar.isOne_one, powWith.eq_def]
      simp [htrivial, hone, hwhole]
    | _ =>
      refine hkept ?_
      rw [pow_eq UnitScalar.isOne_one, powWith.eq_def]
      simp [htrivial, hone]

/-- Whether a collected term is put back as it has been collected. A coefficient that has come back
to one leaves nothing before a sum, and any other must not be absorbed by a division. -/
def keepsTerm : α × Expr α → Bool
  | (c, rest) =>
    if Scalar.isOne c then !rest.isSum
    else
      let k := Scalar.one * c
      !Scalar.isZero k && !Scalar.isOne k &&
        rest.factors.all fun f => (foldReciprocal? k (splitPower f).1 (splitPower f).2).isNone

/-- Whether adding up `ts` puts all collected terms back as they are. It does not matter if the sum
comes down to one term. -/
def keepsTerms (ts : List (Expr α)) : Bool :=
  let s := collect ts
  let kept := s.terms.filter fun t => !Scalar.isZero t.1
  (Scalar.isZero s.constant && kept.length ≤ 1) || kept.all keepsTerm

omit [UnitScalar α] in
/-- Factors that do not change the coefficient are put back as they are. -/
lemma foldl_push_splitPower {k : α} {fs : List (Expr α)} (gs : List (Expr α))
    (h : ∀ f ∈ fs, pow (splitPower f).1 (splitPower f).2 = f ∧ f.isNumber = false ∧
      foldReciprocal? k (splitPower f).1 (splitPower f).2 = none) :
    (fs.map splitPower).foldl (Folded.push pow) ⟨k, gs⟩ = ⟨k, gs ++ fs⟩ := by
  induction fs generalizing gs with
  | nil => simp
  | cons f fs ih =>
    rw [List.forall_mem_cons] at h
    obtain ⟨hpow, hnumber, hfold⟩ := h.1
    have hstep : Folded.push pow ⟨k, gs⟩ (splitPower f) = ⟨k, gs ++ [f]⟩ := by
      simp only [Folded.push, hfold, hpow]
      split
      · cases hnumber
      · rfl
    rw [List.map_cons, List.foldl_cons, hstep, ih _ h.2]
    simp

/-- A coefficient that nothing absorbs goes in front of the factors. -/
lemma mul_number_of_bare {rest : Expr α} (h : Bare rest) {c : α}
    (hzero : Scalar.isZero (Scalar.one * c) = false) (hone : Scalar.isOne (Scalar.one * c) = false)
    (hfold : ∀ f ∈ rest.factors,
      foldReciprocal? (Scalar.one * c) (splitPower f).1 (splitPower f).2 = none) :
    mul [number c, rest] = product (number (Scalar.one * c) :: rest.factors) := by
  have hpush := foldl_push_splitPower [] fun f hf =>
    ⟨(h.normal.of_mem_factors hf).1.pow_splitPower (h.isNumber hf), h.isNumber hf, hfold f hf⟩
  have hsome : rest.factors.isEmpty = false := List.isEmpty_eq_false_iff.mpr h.normal.factors_ne_nil
  simp only [mul_eq UnitScalar.isOne_one, mulWith, collectPowers_number_of_bare h, hzero, hpush]
  simp [Folded.toExpr, hzero, hone, hsome]

lemma restored_of_keepsTerm {t : α × Expr α} (hbare : Bare t.2) (hzero : Scalar.isZero t.1 = false)
    (h : keepsTerm t = true) :
    ∃ r, restoreTerm mul t = some r ∧ Normal r ∧ r.isSum = false ∧ r.isNumber = false ∧
      (splitCoefficient r).2 = t.2 := by
  obtain ⟨c, rest⟩ := t
  by_cases hone : Scalar.isOne c = true
  · refine ⟨rest, by simp [restoreTerm, hzero, hone], hbare.normal, ?_, hbare.isNumber_eq_false, ?_⟩
    · simpa [keepsTerm, hone] using h
    · rw [hbare.splitCoefficient]
  · have hkeeps : (Scalar.isZero (Scalar.one * c) = false ∧ Scalar.isOne (Scalar.one * c) = false) ∧
        ∀ f ∈ rest.factors,
          foldReciprocal? (Scalar.one * c) (splitPower f).1 (splitPower f).2 = none := by
      simpa [keepsTerm, hone] using h
    have hmul := mul_number_of_bare hbare hkeeps.1.1 hkeeps.1.2 hkeeps.2
    have hscale := hbare.normal.scale c
    rw [hmul] at hscale
    refine ⟨_, by simp [restoreTerm, hzero, hone, hmul], hscale, rfl, rfl, ?_⟩
    exact hbare.collapse_factors

/-- Terms that are put back as they were collected stay unlike. -/
lemma restored_unlike {ts : List (α × Expr α)} (hbare : ∀ t ∈ ts, Bare t.2)
    (hzero : ∀ t ∈ ts, Scalar.isZero t.1 = false) (h : ∀ t ∈ ts, keepsTerm t = true) :
    (∀ r ∈ ts.filterMap (restoreTerm mul), Normal r ∧ r.isSum = false ∧ r.isNumber = false) ∧
      (ts.filterMap (restoreTerm mul)).map (fun r => (splitCoefficient r).2) = ts.map Prod.snd := by
  induction ts with
  | nil => simp
  | cons t ts ih =>
    rw [List.forall_mem_cons] at hbare hzero h
    obtain ⟨hall, hrests⟩ := ih hbare.2 hzero.2 h.2
    obtain ⟨r, hrestore, hnormal, hsum, hnumber, hrest⟩ := restored_of_keepsTerm hbare.1 hzero.1 h.1
    rw [List.filterMap_cons_some hrestore]
    exact ⟨List.forall_mem_cons.mpr ⟨⟨hnormal, hsum, hnumber⟩, hall⟩, by simp [hrest, hrests]⟩

omit [UnitScalar α] in
lemma areLike_number (c : α) {t : Expr α} (h : Normal t) (hnumber : t.isNumber = false) :
    areLike (number c) t = false := by
  have hrest := (h.bare_splitCoefficient hnumber).isNumber_eq_false
  change equiv (number c) (splitCoefficient t).2 = false
  cases hsplit : (splitCoefficient t).2 with
  | number x =>
    rw [hsplit] at hrest
    cases hrest
  | _ => rfl

omit [UnitScalar α] in
lemma normal_collapse_sum {ts : List (Expr α)} (hne : ts ≠ [])
    (h : ∀ t ∈ ts, Normal t ∧ t.isSum = false) (hnumber : ∀ t ∈ ts.tail, t.isNumber = false)
    (hunlike : ts.Pairwise fun s t => areLike s t = false) : Normal (collapse sum ts) := by
  match ts with
  | [] => exact absurd rfl hne
  | [t] => exact (h t (by simp)).1
  | s :: t :: more =>
    exact .sum (by simp) (fun u hu => (h u hu).1) (fun u hu => (h u hu).2) hnumber hunlike

/-- Each collected term on its own is in normal form. -/
lemma Bare.normal_restoreTerm {t : α × Expr α} (h : Bare t.2) {r : Expr α}
    (hr : restoreTerm mul t = some r) : Normal r := by
  simp only [restoreTerm] at hr
  split_ifs at hr
  · rw [← Option.some.inj hr]
    exact h.normal
  · rw [← Option.some.inj hr]
    exact h.normal.scale _

omit [UnitScalar α] in
/-- Terms whose coefficient is zero are not put back. -/
lemma filterMap_restoreTerm (mul : List (Expr α) → Expr α) (ts : List (α × Expr α)) :
    ts.filterMap (restoreTerm mul) =
      (ts.filter fun t => !Scalar.isZero t.1).filterMap (restoreTerm mul) := by
  rw [List.filterMap_filter]
  refine List.filterMap_congr fun t ht => ?_
  cases hzero : Scalar.isZero t.1 <;> simp [restoreTerm, hzero]

theorem normal_add {ts : List (Expr α)} (h : ∀ t ∈ ts, Normal t) (hkeeps : keepsTerms ts = true) :
    Normal (add ts) := by
  obtain ⟨hbare, hunlike⟩ := collect_unlike h
  rw [add_eq UnitScalar.isOne_one]
  simp only [addWith]
  rw [filterMap_restoreTerm]
  simp only [keepsTerms] at hkeeps
  set kept := (collect ts).terms.filter fun t => !Scalar.isZero t.1 with hkept
  have hzero : ∀ t ∈ kept, Scalar.isZero t.1 = false := fun t ht => by
    simpa using (List.mem_filter.mp ht).2
  have hrests : ∀ t ∈ kept, Bare t.2 := fun t ht => hbare t (List.mem_of_mem_filter ht)
  rw [Bool.or_eq_true, Bool.and_eq_true, decide_eq_true_eq, List.all_eq_true] at hkeeps
  rcases hkeeps with ⟨hconstant, hlength⟩ | hkeeps
  · rw [if_pos hconstant]
    rcases kept with _ | ⟨t, _ | ⟨u, more⟩⟩
    · exact .number _
    · cases hrestore : restoreTerm mul t with
      | none => simpa [hrestore] using Normal.number _
      | some r =>
        simpa [hrestore, collapse] using (hrests t (by simp)).normal_restoreTerm hrestore
    · simp at hlength
  · -- What is left of the terms without their coefficients is what has been collected.
    obtain ⟨hall, hsame⟩ := restored_unlike hrests hzero hkeeps
    have hpairwise : (kept.filterMap (restoreTerm mul)).Pairwise fun s t => areLike s t = false := by
      have hsub := hunlike.sublist (List.filter_sublist (p := fun t => !Scalar.isZero t.1))
      rw [← hkept, ← List.pairwise_map (f := Prod.snd) (R := fun a b => equiv a b = false),
        ← hsame] at hsub
      exact List.pairwise_map.mp hsub
    split
    · exact .number _
    · next es hne =>
      refine normal_collapse_sum (by simpa using hne) ?_ ?_ ?_
      · split_ifs
        · exact fun r hr => ⟨(hall r hr).1, (hall r hr).2.1⟩
        · exact List.forall_mem_cons.mpr
            ⟨⟨.number _, rfl⟩, fun r hr => ⟨(hall r hr).1, (hall r hr).2.1⟩⟩
      · split_ifs
        · exact fun r hr => (hall r (List.mem_of_mem_tail hr)).2.2
        · exact fun r hr => (hall r hr).2.2
      · split_ifs
        · exact hpairwise
        · exact List.pairwise_cons.mpr
            ⟨fun r hr => areLike_number _ (hall r hr).1 (hall r hr).2.2, hpairwise⟩

/-- Whether the exponent of the factor can be added to that of an equal base. -/
def Powers.accepts (p : Powers α) : Expr α → Bool
  | number _ => true
  | f =>
    match p.powers.find? fun q => equiv q.1 (splitPower f).1 with
    | some q => keepsTerms [q.2, (splitPower f).2]
    | none => true

/-- Whether the exponents of equal bases can be added up, one factor after the other. -/
def acceptsAll : Powers α → List (Expr α) → Bool
  | _, [] => true
  | p, f :: fs => p.accepts f && acceptsAll (p.insert add f) fs

/-- Whether multiplying `fs` puts all collected powers back under their bases. It does not matter
if the product is zero or comes down to one power. -/
def keepsBases (fs : List (Expr α)) : Bool :=
  let p := collectPowers add fs
  Scalar.isZero p.coefficient ||
    acceptsAll ⟨Scalar.one, []⟩ (factorsAll fs) &&
      ((Scalar.isOne p.coefficient && p.powers.length ≤ 1) || p.powers.all keepsBase)

omit [UnitScalar α] in
lemma Powers.accepts_of_isNumber {f : Expr α} (h : f.isNumber = false) (p : Powers α) :
    p.accepts f = match p.powers.find? fun q => equiv q.1 (splitPower f).1 with
      | some q => keepsTerms [q.2, (splitPower f).2]
      | none => true := by
  cases f with
  | number x => cases h
  | _ => rfl

lemma normal_collectPower {b e : Expr α} (hb : Normal b) (he : Normal e)
    {ps : List (Expr α × Expr α)} (hps : ∀ p ∈ ps, Normal p.1 ∧ Normal p.2)
    (h : (match ps.find? fun q => equiv q.1 b with
      | some q => keepsTerms [q.2, e]
      | none => true) = true) :
    ∀ p ∈ collectPower add b e ps, Normal p.1 ∧ Normal p.2 := by
  induction ps with
  | nil => simpa [collectPower] using ⟨hb, he⟩
  | cons p ps ih =>
    rw [List.forall_mem_cons] at hps
    simp only [collectPower]
    split_ifs with hequal
    · simp only [List.find?_cons, hequal] at h
      refine List.forall_mem_cons.mpr ⟨⟨hps.1.1, normal_add ?_ h⟩, hps.2⟩
      simpa using ⟨hps.1.2, he⟩
    · simp only [List.find?_cons, hequal] at h
      exact List.forall_mem_cons.mpr ⟨hps.1, ih hps.2 h⟩

lemma normal_collectPowers {fs : List (Expr α)} (h : ∀ f ∈ fs, Normal f)
    (haccepts : acceptsAll ⟨Scalar.one, []⟩ (factorsAll fs) = true) :
    ∀ p ∈ (collectPowers add fs).powers, Normal p.1 ∧ Normal p.2 := by
  have hinsert (fs : List (Expr α)) (p : Powers α) (hfs : ∀ f ∈ fs, Normal f)
      (haccepts : acceptsAll p fs = true) (hp : ∀ q ∈ p.powers, Normal q.1 ∧ Normal q.2) :
      ∀ q ∈ (fs.foldl (Powers.insert add) p).powers, Normal q.1 ∧ Normal q.2 := by
    induction fs generalizing p with
    | nil => exact hp
    | cons f fs ih =>
      rw [List.forall_mem_cons] at hfs
      rw [acceptsAll, Bool.and_eq_true] at haccepts
      refine ih _ hfs.2 haccepts.2 ?_
      by_cases hnumber : f.isNumber
      · cases f with
        | number x => exact hp
        | _ => cases hnumber
      · rw [Bool.not_eq_true] at hnumber
        rw [Powers.accepts_of_isNumber hnumber] at haccepts
        rw [Powers.insert_of_ne_number (isNumber_eq_false.mp hnumber)]
        exact normal_collectPower hfs.1.splitPower.1 hfs.1.splitPower.2 hp haccepts.1
  refine hinsert _ _ (fun f hf => ?_) haccepts (by simp)
  obtain ⟨g, hg, hf⟩ := mem_factorsAll.mp hf
  exact ((h g hg).of_mem_factors hf).1

omit [UnitScalar α] in
/-- A single power without a coefficient is the product. -/
lemma normal_toExpr_push {p : Expr α × Expr α} (hpow : Normal (pow p.1 p.2)) {c : α}
    (hone : Scalar.isOne c = true) : Normal (Folded.push pow ⟨c, []⟩ p).toExpr := by
  have hnumber (c : α) : Normal (Folded.toExpr ⟨c, []⟩) := normal_toExpr (by simp) .nil
  unfold Folded.push
  dsimp only
  split
  · exact hnumber _
  · split
    · exact hnumber _
    · unfold Folded.toExpr
      simp only [hone, List.nil_append, collapse]
      split_ifs
      · exact .number _
      · exact .number _
      · exact hpow

theorem normal_mul {fs : List (Expr α)} (h : ∀ f ∈ fs, Normal f)
    (hkeeps : keepsBases fs = true) : Normal (mul fs) := by
  simp only [keepsBases, Bool.or_eq_true, Bool.and_eq_true, decide_eq_true_eq,
    List.all_eq_true] at hkeeps
  rcases hkeeps with hzero | ⟨haccepts, ⟨hone, hlength⟩ | hbases⟩
  · rw [mul_eq UnitScalar.isOne_one, mulWith]
    simpa [hzero] using Normal.number _
  · have hpowers := normal_collectPowers h haccepts
    rw [mul_eq UnitScalar.isOne_one]
    simp only [mulWith]
    split_ifs
    · exact .number _
    · rcases hps : (collectPowers add fs).powers with _ | ⟨p, _ | ⟨q, more⟩⟩
      · exact normal_toExpr (by simp) .nil
      · obtain ⟨hb, he⟩ := hpowers p (by simp [hps])
        exact normal_toExpr_push (hb.pow he) hone
      · simp [hps] at hlength
  · refine normal_mul_of_fits fun p hp => ?_
    obtain ⟨hb, he⟩ := normal_collectPowers h haccepts p hp
    exact fits_of_keepsBase hb he (hbases p hp)

omit [UnitScalar α] in
theorem normal_apply {f : Elementary} {args : List (Expr α)} (h : ∀ a ∈ args, Normal a) :
    Normal (apply f args) := by
  unfold apply
  split
  · split
    · exact .number _
    · exact .call h
  · exact .call h

end EquationCompiler.Expr
