import EquationCompiler.Proofs.MergedExponents

/-!
# The order of arguments

Sums and products keep the order in which they meet terms and factors, but apart from that
it should not matter. There are two ways in which it does. A coefficient absorbs divisions
by numbers one after the other, so that `(2/6)*(6/4)` becomes `2*(1/4)`, and
`(6/4)*(2/6)` becomes `3*(1/6)`. And exponents are added up one after the other, which may
put something else back in between. Otherwise sums and products of permuted arguments are
equal up to order.
-/
namespace EquationCompiler.Expr
variable {α : Type} [Scalar α]

lemma isPower_congr {a b : Expr α} (h : equiv a b = true) : a.isPower = b.isPower := by
  cases a <;> cases b <;> first | rfl | cases h

/-- Whether the expression is a power of a number to a number, which a coefficient may absorb. -/
def isNumberPower : Expr α → Bool
  | power (number _) (number _) => true
  | _ => false

/-- If the factors are powers of one base, either all are numbers, or the base is neither a number
nor a power and the exponents are plain. -/
def MergesPlainly (f g : Expr α) : Prop :=
  f.isNumber = false → g.isNumber = false → haveOneBase f g = true →
    isNumberPower f = true ∧ isNumberPower g = true ∨
      (splitPower f).1.isNumber = false ∧ (splitPower f).1.isPower = false ∧
        Plain (splitPower f).2 ∧ Plain (splitPower g).2

/-- Whether a factor is the power of the base `b`, a number, to a number. -/
def isFolded (fs : List (Expr α)) (b : Expr α) : Bool :=
  fs.any fun f => isNumberPower f && equiv (splitPower f).1 b

lemma isNumber_of_isNumberPower {f : Expr α} (h : isNumberPower f = true) :
    f.isNumber = false ∧ (splitPower f).1.isNumber = true := by
  match f, h with
  | power (number _) (number _), _ => exact ⟨rfl, rfl⟩

lemma isDivision_of_isNumberPower {f : Expr α} (hnumber : f.isNumber = false)
    (h : isNumberPower f = false) : isDivision (splitPower f) = false := by
  match f with
  | number _ => cases hnumber
  | power (number b) (number e) => cases h
  | power (number b) (symbol _) | power (number b) (constant _) | power (number b) (sum _)
  | power (number b) (product _) | power (number b) (power _ _) | power (number b) (call _ _)
  | power (symbol _) _ | power (constant _) _ | power (sum _) _ | power (product _) _
  | power (power _ _) _ | power (call _ _) _ => rfl
  | symbol _ | constant _ | sum _ | product _ | call _ _ => rfl

section
variable [RealValued α] [FaithfulScalar α]

lemma isZero_congr {a b : Expr α} (h : equiv a b = true) : a.isZero = b.isZero := by
  cases a with
  | number x => rw [eq_of_equiv_number h]
  | _ => cases b <;> first | rfl | cases h

lemma isOne_congr {a b : Expr α} (h : equiv a b = true) : a.isOne = b.isOne := by
  cases a with
  | number x => rw [eq_of_equiv_number h]
  | _ => cases b <;> first | rfl | cases h

/-- Raising a base that is neither a number nor a power leaves little to do. -/
lemma pow_of_isPower {b : Expr α} (hnumber : b.isNumber = false) (hpower : b.isPower = false)
    (e : Expr α) :
    pow b e = if e.isZero then number Scalar.one else if e.isOne then b else power b e := by
  rw [pow_eq UnitScalar.isOne_one]
  cases b with
  | number x => cases hnumber
  | power c x => cases hpower
  | _ => simp [powWith, isOne]

lemma putBack_of_isPower {p : Expr α × Expr α} (hnumber : p.1.isNumber = false)
    (hpower : p.1.isPower = false) :
    putBack p =
      if p.2.isZero then none else if p.2.isOne then some p.1 else some (power p.1 p.2) := by
  rw [putBack, pow_of_isPower hnumber hpower]
  split_ifs
  · rfl
  · cases hbase : p.1 with
    | number x => simp [hbase, isNumber] at hnumber
    | _ => rfl
  · rfl

lemma putBack_congr {p q : Expr α × Expr α} (hbase : equiv p.1 q.1 = true)
    (hexponent : equiv p.2 q.2 = true) (hnumber : p.1.isNumber = false)
    (hpower : p.1.isPower = false) :
    Option.Rel (fun a b => equiv a b = true) (putBack p) (putBack q) := by
  rw [putBack_of_isPower hnumber hpower, putBack_of_isPower (isNumber_congr hbase ▸ hnumber)
    (isPower_congr hbase ▸ hpower), ← isZero_congr hexponent, ← isOne_congr hexponent]
  split_ifs
  · exact .none
  · exact .some hbase
  · exact .some (by rw [equiv, hbase, hexponent, Bool.true_and])

lemma exists_mem_factorsOf {es : List (Expr α)} {p : Expr α × Expr α}
    (hp : p ∈ (collectPowers add es).powers) :
    ∃ f ∈ factorsOf p.1 (factorsAll es), (splitPower f).1 = p.1 := by
  obtain ⟨f, hf, hnumber, hbase⟩ := exists_factor_of_mem (List.mem_map_of_mem hp)
  exact ⟨f, mem_factorsOf.mpr ⟨hf, hnumber, hbase ▸ equiv_rfl _⟩, hbase⟩

/-- A base that occurs once is collected as it is. -/
lemma eq_splitPower_of_factorsOf {es : List (Expr α)} {p : Expr α × Expr α}
    (hp : p ∈ (collectPowers add es).powers) {f : Expr α}
    (hf : factorsOf p.1 (factorsAll es) = [f]) : p = splitPower f := by
  obtain ⟨g, hg, hbase⟩ := exists_mem_factorsOf hp
  rw [hf, List.mem_singleton] at hg
  have hexponent := addUp?_exponentsOf hp
  rw [exponentsOf, hf] at hexponent
  exact Prod.ext (hg ▸ hbase.symm) (Option.some.inj hexponent).symm

/-- A base that occurs more than once is neither a number nor a power, and has plain exponents. -/
lemma plain_of_factorsOf {fs : List (Expr α)} {b : Expr α} (hb : isFolded fs b = false)
    (hmerge : fs.Pairwise MergesPlainly) (hlength : 2 ≤ (factorsOf b fs).length) :
    b.isNumber = false ∧ b.isPower = false ∧ ∀ e ∈ exponentsOf b fs, Plain e := by
  have hpairwise : (factorsOf b fs).Pairwise MergesPlainly := hmerge.filter _
  have hplain {f g : Expr α} (hf : f ∈ factorsOf b fs) (hg : g ∈ factorsOf b fs)
      (h : MergesPlainly f g) : b.isNumber = false ∧ b.isPower = false ∧
        Plain (splitPower f).2 ∧ Plain (splitPower g).2 := by
    obtain ⟨hmem, hfNumber, hfBase⟩ := mem_factorsOf.mp hf
    obtain ⟨-, hgNumber, hgBase⟩ := mem_factorsOf.mp hg
    rw [← isNumber_congr hfBase, ← isPower_congr hfBase]
    refine (h hfNumber hgNumber (equiv_trans hfBase (equiv_symm hgBase))).resolve_left ?_
    rintro ⟨hpower, -⟩
    rw [isFolded, List.any_eq_false] at hb
    exact hb f hmem (by rw [hpower, hfBase, Bool.true_and])
  rw [exponentsOf, List.forall_mem_map]
  rcases hfs : factorsOf b fs with _ | ⟨f, _ | ⟨g, more⟩⟩
  case nil | cons.nil => simp [hfs] at hlength
  rw [hfs] at hpairwise hplain
  have hfirst : ∀ a ∈ g :: more, MergesPlainly f a := (List.pairwise_cons.mp hpairwise).1
  obtain ⟨hnumber, hpower, hf, -⟩ := hplain (by simp) (by simp) (hfirst g (by simp))
  refine ⟨hnumber, hpower, List.forall_mem_cons.mpr ⟨hf, fun a ha => ?_⟩⟩
  exact (hplain (by simp) (List.mem_cons_of_mem f ha) (hfirst a ha)).2.2.2

/-- Either the base occurs once, or powers of it are merged plainly. -/
lemma collected_cases {es : List (Expr α)} (hmerge : (factorsAll es).Pairwise MergesPlainly)
    {p : Expr α × Expr α} (hp : p ∈ (collectPowers add es).powers)
    (hfolded : isFolded (factorsAll es) p.1 = false) :
    (∃ f ∈ factorsAll es, f.isNumber = false ∧ factorsOf p.1 (factorsAll es) = [f]) ∨
      p.1.isNumber = false ∧ p.1.isPower = false ∧
        ∀ e ∈ exponentsOf p.1 (factorsAll es), Plain e := by
  obtain ⟨f, hf, -⟩ := exists_mem_factorsOf hp
  match hfs : factorsOf p.1 (factorsAll es) with
  | [] => simp [hfs] at hf
  | [g] =>
    obtain ⟨hmem, hg, -⟩ := mem_factorsOf.mp (hfs ▸ List.mem_singleton.mpr rfl : g ∈ _)
    exact .inl ⟨g, hmem, hg, rfl⟩
  | _ :: _ :: _ => exact .inr (plain_of_factorsOf hfolded hmerge (by simp [hfs]))

/-- Powers that are collected from the same factors under one base are put back alike. -/
lemma putBack_collected {es es' : List (Expr α)} (hperm : (factorsAll es').Perm (factorsAll es))
    (hmerge : (factorsAll es).Pairwise MergesPlainly) {p q : Expr α × Expr α}
    (hp : p ∈ (collectPowers add es).powers) (hq : q ∈ (collectPowers add es').powers)
    (hbase : equiv p.1 q.1 = true) (hfolded : isFolded (factorsAll es) p.1 = false) :
    Option.Rel (fun a b => equiv a b = true) (putBack p) (putBack q) := by
  have hfactors : (factorsOf q.1 (factorsAll es')).Perm (factorsOf p.1 (factorsAll es)) := by
    have hsame : factorsOf q.1 (factorsAll es') = factorsOf p.1 (factorsAll es') := by
      refine List.filter_congr fun f _ => ?_
      rw [equiv_comm _ q.1, ← steady _ _ hbase, equiv_comm p.1]
    rw [hsame]
    exact hperm.filter _
  rcases collected_cases hmerge hp hfolded with ⟨f, -, -, hf⟩ | ⟨hnumber, hpower, hplain⟩
  · rw [hf, List.perm_singleton] at hfactors
    rw [eq_splitPower_of_factorsOf hp hf, eq_splitPower_of_factorsOf hq hfactors]
    cases putBack (splitPower f) with
    | none => exact .none
    | some e => exact .some (equiv_rfl e)
  · have hexponents : (exponentsOf p.1 (factorsAll es)).Perm (exponentsOf q.1 (factorsAll es')) :=
      (hfactors.map _).symm
    have hpSum := addUp?_exponentsOf hp
    have hqSum := addUp?_exponentsOf hq
    match hps : exponentsOf p.1 (factorsAll es), hqs : exponentsOf q.1 (factorsAll es') with
    | [], _ => simp [hps, addUp?] at hpSum
    | _ :: _, [] => simp [hqs, addUp?] at hqSum
    | x :: xs, y :: ys =>
      rw [hps, hqs] at hexponents
      rw [hps] at hplain hpSum
      rw [hqs] at hqSum
      have hexponent := equiv_addUp hexponents hplain
      rw [Option.some.inj hpSum, Option.some.inj hqSum] at hexponent
      exact putBack_congr hbase hexponent hnumber hpower

/-- A power that cannot be folded leaves the coefficient alone. -/
lemma keepsCoefficient_collected {es : List (Expr α)} (hnormal : ∀ e ∈ es, Normal e)
    (hmerge : (factorsAll es).Pairwise MergesPlainly) {p : Expr α × Expr α}
    (hp : p ∈ (collectPowers add es).powers)
    (hfolded : isFolded (factorsAll es) p.1 = false) : KeepsCoefficient p := by
  rcases collected_cases hmerge hp hfolded with ⟨f, hmem, hf, hsingle⟩ | ⟨hnumber, hpower, -⟩
  · obtain ⟨e, he, hfactor⟩ := mem_factorsAll.mp hmem
    have hpower : isNumberPower f = false := by
      rw [Bool.eq_false_iff]
      intro hpower
      rw [isFolded, List.any_eq_false] at hfolded
      refine hfolded f hmem ?_
      rw [hpower, eq_splitPower_of_factorsOf hp hsingle, equiv_rfl, Bool.true_and]
    rw [eq_splitPower_of_factorsOf hp hsingle]
    exact keepsCoefficient_splitPower ((hnormal e he).of_mem_factors hfactor).1 hf
      (isDivision_of_isNumberPower hf hpower)
  · refine ⟨foldReciprocal?_eq_none (isDivision_of_base hnumber p.2), fun x hx => ?_⟩
    rw [pow_of_isPower hnumber hpower] at hx
    split_ifs at hx
    · exact (number.inj hx).symm
    · rw [hx] at hnumber
      cases hnumber

lemma isFolded_congr (fs : List (Expr α)) {b c : Expr α} (h : equiv b c = true) :
    isFolded fs b = isFolded fs c := by
  have hsame (f : Expr α) : equiv (splitPower f).1 b = equiv (splitPower f).1 c := by
    rw [equiv_comm _ b, steady _ _ h, equiv_comm c]
  simp only [isFolded, hsame]

omit [RealValued α] [FaithfulScalar α] in
/-- Powers whose bases are singled out are collected as if there were no others. -/
lemma filter_collectPower {q : Expr α → Bool} (hq : ∀ b c, equiv b c = true → q b = q c)
    (b e : Expr α) (ps : List (Expr α × Expr α)) :
    (collectPower add b e ps).filter (fun p => q p.1) =
      if q b then collectPower add b e (ps.filter fun p => q p.1)
      else ps.filter fun p => q p.1 := by
  induction ps with
  | nil => cases hb : q b <;> simp [collectPower, hb]
  | cons p ps ih =>
    obtain ⟨c, x⟩ := p
    simp only [collectPower]
    split_ifs with hlike hb hb
    · have hc : q c = true := (hq c b hlike).trans hb
      simp [hc, collectPower, hlike]
    · have hc : q c = false := by simpa [hq c b hlike] using hb
      simp [hc]
    · cases hc : q c <;> simp [hc, ih, hb, collectPower, hlike]
    · cases hc : q c <;> simp [hc, ih, hb]

omit [RealValued α] [FaithfulScalar α] in
lemma filter_foldl_insert {q : Expr α → Bool} (hq : ∀ b c, equiv b c = true → q b = q c)
    (fs : List (Expr α)) (p p' : Powers α) (h : p.powers.filter (fun p => q p.1) = p'.powers) :
    (fs.foldl (Powers.insert add) p).powers.filter (fun p => q p.1) =
      ((fs.filter fun f => !f.isNumber && q (splitPower f).1).foldl
        (Powers.insert add) p').powers := by
  induction fs generalizing p p' with
  | nil => exact h
  | cons f fs ih =>
    by_cases hnumber : f.isNumber
    · cases f with
      | number x => exact ih _ p' h
      | _ => cases hnumber
    · rw [Bool.not_eq_true] at hnumber
      have hinsert := filter_collectPower hq (splitPower f).1 (splitPower f).2 p.powers
      rw [List.foldl_cons, Powers.insert_of_ne_number (isNumber_eq_false.mp hnumber)]
      cases hbase : q (splitPower f).1 with
      | true =>
        rw [List.filter_cons_of_pos (by simp [hnumber, hbase]), List.foldl_cons]
        refine ih _ _ ?_
        rw [Powers.insert_of_ne_number (isNumber_eq_false.mp hnumber), hinsert, hbase,
          if_pos rfl, h]
      | false =>
        rw [List.filter_cons_of_neg (by simp [hbase])]
        refine ih _ p' ?_
        rw [hinsert, hbase, if_neg Bool.false_ne_true, h]

lemma MergesPlainly.symm {f g : Expr α} (h : MergesPlainly f g) : MergesPlainly g f := by
  intro hg hf hbase
  rcases h hf hg (equiv_symm hbase) with hboth | ⟨hnumber, hpower, hfPlain, hgPlain⟩
  · exact .inl hboth.symm
  · exact .inr ⟨(isNumber_congr hbase).trans hnumber, (isPower_congr hbase).trans hpower,
      hgPlain, hfPlain⟩

instance : Std.Symm (MergesPlainly : Expr α → Expr α → Prop) := ⟨fun _ _ h => h.symm⟩

omit [RealValued α] [FaithfulScalar α] in
/-- It does not take pairs of factors to see that they are merged plainly, if each is a power of a
number to a number or has a plain exponent. -/
lemma pairwise_mergesPlainly {fs : List (Expr α)}
    (h : ∀ f ∈ fs, isNumberPower f = true ∨
      (splitPower f).1.isNumber = false ∧ (splitPower f).1.isPower = false ∧
        Plain (splitPower f).2) : fs.Pairwise MergesPlainly := by
  refine List.pairwise_of_forall_mem_list fun f hf g hg _ _ hbase => ?_
  have hsame := isNumber_congr hbase
  rcases h f hf with hfPower | ⟨hfNumber, hpower, hfPlain⟩ <;>
    rcases h g hg with hgPower | ⟨hgNumber, -, hgPlain⟩
  · exact .inl ⟨hfPower, hgPower⟩
  · simp [(isNumber_of_isNumberPower hfPower).2, hgNumber] at hsame
  · simp [(isNumber_of_isNumberPower hgPower).2, hfNumber] at hsame
  · exact .inr ⟨hfNumber, hpower, hfPlain, hgPlain⟩

/-- Only powers of numbers to numbers have a base that is folded. -/
lemma filter_isFolded {fs : List (Expr α)} (hmerge : fs.Pairwise MergesPlainly) :
    (fs.filter fun f => !f.isNumber && isFolded fs (splitPower f).1) = fs.filter isNumberPower := by
  refine List.filter_congr fun f hf => ?_
  rw [Bool.eq_iff_iff, Bool.and_eq_true, Bool.not_eq_true', isFolded, List.any_eq_true]
  constructor
  · rintro ⟨hnumber, g, hg, hlike⟩
    rw [Bool.and_eq_true] at hlike
    obtain ⟨hgNumber, hgBase⟩ := isNumber_of_isNumberPower hlike.1
    by_cases hsame : g = f
    · exact hsame ▸ hlike.1
    · have hmerges : MergesPlainly g f := hmerge.forall hg hf hsame
      refine ((hmerges hgNumber hnumber hlike.2).resolve_right fun h => ?_).2
      simp [hgBase] at h
  · exact fun hpower => ⟨(isNumber_of_isNumberPower hpower).1, f, hf, by simp [hpower, equiv_rfl]⟩

/-- The coefficient of a product is that of its numbers. -/
lemma toReal_coefficient (fs : List (Expr α)) (p : Powers α) :
    toReal (fs.foldl (Powers.insert add) p).coefficient =
      toReal p.coefficient * ((fs.filterMap asNumber?).map toReal).prod := by
  induction fs generalizing p with
  | nil => simp
  | cons f fs ih =>
    rw [List.foldl_cons, ih]
    cases f with
    | number x => simp [Powers.insert, mul_assoc]
    | _ =>
      rw [List.filterMap_cons_none rfl]
      rfl

lemma exists_collected {es es' : List (Expr α)} (hperm : (factorsAll es).Perm (factorsAll es'))
    {p : Expr α × Expr α} (hp : p ∈ (collectPowers add es).powers) :
    ∃ q ∈ (collectPowers add es').powers, equiv p.1 q.1 = true := by
  obtain ⟨f, hf, -⟩ := exists_mem_factorsOf hp
  have hsome : (exponent? p.1 (collectPowers add es').powers).isSome := by
    rw [collectPowers, exponent?_foldl_insert]
    cases hexponents : exponentsOf p.1 (factorsAll es') with
    | nil =>
      rw [exponentsOf, List.map_eq_nil_iff] at hexponents
      have hf' := (hperm.filter _).subset hf
      rw [← factorsOf, hexponents] at hf'
      cases hf'
    | cons => rfl
  rw [exponent?, Option.isSome_map, List.find?_isSome] at hsome
  obtain ⟨q, hq, hlike⟩ := hsome
  exact ⟨q, hq, equiv_symm hlike⟩

/-- The powers of the bases that are folded are collected from the powers of numbers to numbers. -/
lemma filter_collectPowers {es : List (Expr α)} (hmerge : (factorsAll es).Pairwise MergesPlainly) :
    (collectPowers add es).powers.filter (fun p => isFolded (factorsAll es) p.1) =
      (((factorsAll es).filter isNumberPower).foldl
        (Powers.insert add) ⟨Scalar.one, []⟩).powers := by
  rw [collectPowers, filter_foldl_insert (fun _ _ => isFolded_congr _) _ _ ⟨Scalar.one, []⟩ rfl,
    filter_isFolded hmerge]

/-- The powers of the other bases are put back alike. -/
lemma pairs_putBack_collected {es es' : List (Expr α)}
    (hperm : (factorsAll es').Perm (factorsAll es))
    (hmerge : (factorsAll es).Pairwise MergesPlainly) :
    Pairs
      (((collectPowers add es).powers.filter fun p => !isFolded (factorsAll es) p.1).filterMap
        putBack)
      (((collectPowers add es').powers.filter fun p => !isFolded (factorsAll es) p.1).filterMap
        putBack) := by
  obtain ⟨cs, hcs, hcsPerm⟩ := exists_matching Prod.fst
    (fun p q => Option.Rel (fun a b => equiv a b = true) (putBack p) (putBack q))
    ((collectPowers_unlike add es).filter fun p => !isFolded (factorsAll es) p.1)
    ((collectPowers_unlike add es').filter fun p => !isFolded (factorsAll es) p.1)
    (fun p hp => by
      obtain ⟨hmem, hother⟩ := List.mem_filter.mp hp
      obtain ⟨q, hq, hlike⟩ := exists_collected hperm.symm hmem
      exact ⟨q, List.mem_filter.mpr ⟨hq, isFolded_congr _ hlike ▸ hother⟩, hlike,
        putBack_collected hperm hmerge hmem hq hlike (by simpa using hother)⟩)
    (fun q hq => by
      obtain ⟨hmem, hother⟩ := List.mem_filter.mp hq
      obtain ⟨p, hp, hlike⟩ := exists_collected hperm hmem
      exact ⟨p, List.mem_filter.mpr ⟨hp, isFolded_congr _ hlike ▸ hother⟩, equiv_symm hlike⟩)
  exact ⟨cs.filterMap putBack, List.rel_filterMap (fun _ _ h => h) hcs, hcsPerm.filterMap putBack⟩

/-- Factors may be multiplied in any order, if that of the powers of numbers to numbers stays the
same, and powers of one base are merged plainly. -/
theorem equiv_mul_of_perm {es es' : List (Expr α)} (hperm : es'.Perm es)
    (hnormal : ∀ e ∈ es, Normal e)
    (hnumbers : (factorsAll es').filter isNumberPower = (factorsAll es).filter isNumberPower)
    (hmerge : (factorsAll es).Pairwise MergesPlainly) : equiv (mul es') (mul es) = true := by
  have hfactors : (factorsAll es').Perm (factorsAll es) := by
    rw [factorsAll_eq_flatMap, factorsAll_eq_flatMap]
    exact hperm.flatMap_right factors
  have hmerge' := (hfactors.pairwise_iff fun h => h.symm).mpr hmerge
  have hnormal' : ∀ e ∈ es', Normal e := fun e he => hnormal e (hperm.subset he)
  have hfolded : isFolded (factorsAll es') = isFolded (factorsAll es) :=
    funext fun _ => hfactors.any_eq
  have hcoefficient : (collectPowers add es').coefficient = (collectPowers add es).coefficient :=
    FaithfulScalar.injective <| by
      rw [collectPowers, toReal_coefficient, ((hfactors.filterMap asNumber?).map toReal).prod_eq,
        ← toReal_coefficient, collectPowers]
  have hsame : (collectPowers add es').powers.filter (fun p => isFolded (factorsAll es) p.1) =
      (collectPowers add es).powers.filter fun p => isFolded (factorsAll es) p.1 := by
    rw [filter_collectPowers hmerge, ← hnumbers, ← filter_collectPowers hmerge', hfolded]
  have hothers := pairs_putBack_collected hfactors.symm hmerge'
  rw [hfolded] at hothers
  rw [mul_eq UnitScalar.isOne_one, mul_eq UnitScalar.isOne_one, mulWith, mulWith, hcoefficient]
  split_ifs
  · exact equiv_rfl _
  · refine equiv_foldl_push (fun p hp hother => ?_) (fun p hp hother => ?_) hsame hothers _
    · exact keepsCoefficient_collected hnormal' hmerge' hp (by rw [hfolded, hother])
    · exact keepsCoefficient_collected hnormal hmerge hp hother

end

mutual
lemma isSum_of_mem_terms {β : Type} {e t : Expr β} (ht : t ∈ e.terms) : t.isSum = false := by
  cases e with
  | sum ts => exact isSum_of_mem_termsAll ht
  | _ => rw [List.mem_singleton.mp ht]; rfl
lemma isSum_of_mem_termsAll {β : Type} {es : List (Expr β)} {t : Expr β} (ht : t ∈ termsAll es) :
    t.isSum = false := by
  match es with
  | [] => cases ht
  | e :: es =>
    rcases List.mem_append.mp ht with ht | ht
    · exact isSum_of_mem_terms ht
    · exact isSum_of_mem_termsAll ht
end

mutual
lemma isProduct_of_mem_factors {β : Type} {e f : Expr β} (hf : f ∈ e.factors) :
    f.isProduct = false := by
  cases e with
  | product fs => exact isProduct_of_mem_factorsAll hf
  | _ => rw [List.mem_singleton.mp hf]; rfl
lemma isProduct_of_mem_factorsAll {β : Type} {es : List (Expr β)} {f : Expr β}
    (hf : f ∈ factorsAll es) : f.isProduct = false := by
  match es with
  | [] => cases hf
  | e :: es =>
    rcases List.mem_append.mp hf with hf | hf
    · exact isProduct_of_mem_factors hf
    · exact isProduct_of_mem_factorsAll hf
end

lemma termsAll_termsAll {β : Type} (es : List (Expr β)) : termsAll (termsAll es) = termsAll es :=
  termsAll_of_isSum fun _ ht => isSum_of_mem_termsAll ht

lemma factorsAll_factorsAll {β : Type} (es : List (Expr β)) :
    factorsAll (factorsAll es) = factorsAll es :=
  factorsAll_of_isProduct fun _ hf => isProduct_of_mem_factorsAll hf

section
variable [UnitScalar α]

lemma add_termsAll (es : List (Expr α)) : add (termsAll es) = add es := by
  rw [add_eq UnitScalar.isOne_one, add_eq UnitScalar.isOne_one, addWith, addWith, collect, collect,
    termsAll_termsAll]

lemma mul_factorsAll (es : List (Expr α)) : mul (factorsAll es) = mul es := by
  rw [mul_eq UnitScalar.isOne_one, mul_eq UnitScalar.isOne_one, mulWith, mulWith, collectPowers,
    collectPowers, factorsAll_factorsAll]

end

noncomputable instance : FaithfulScalar ℝ where
  injective _ _ h := h
  real_add _ _ := rfl
  real_mul _ _ := rfl
  real_zero := rfl
  real_one := rfl
  same_iff _ _ := decide_eq_true_iff

/-- The order of arguments does not matter. Sums are equal up to order if like terms list their
divisions by numbers in the same order. Products are if the powers of numbers to numbers stay in
their order, and powers of one base are merged plainly. -/
theorem equiv_of_reordered {es es' : List (Expr ℝ)} (hperm : es'.Perm es) :
    ((∀ t ∈ termsAll es, Normal t) →
      (∀ s ∈ termsAll es, ∀ t ∈ termsAll es, areLike s t = true → divisions s = divisions t) →
        equiv (add es') (add es) = true) ∧
      ((∀ f ∈ factorsAll es, Normal f) →
        (factorsAll es').filter isNumberPower = (factorsAll es).filter isNumberPower →
          (factorsAll es).Pairwise MergesPlainly → equiv (mul es') (mul es) = true) := by
  refine ⟨fun hnormal hdivisions => ?_, fun hnormal hnumbers hmerge => ?_⟩
  · rw [← add_termsAll es', ← add_termsAll es]
    refine equiv_add_of_perm ?_ hnormal ?_
    · rw [termsAll_eq_flatMap, termsAll_eq_flatMap]
      exact hperm.flatMap_right terms
    · rwa [termsAll_termsAll]
  · rw [← mul_factorsAll es', ← mul_factorsAll es]
    refine equiv_mul_of_perm ?_ hnormal ?_ ?_
    · rw [factorsAll_eq_flatMap, factorsAll_eq_flatMap]
      exact hperm.flatMap_right factors
    · rwa [factorsAll_factorsAll, factorsAll_factorsAll]
    · rwa [factorsAll_factorsAll]

lemma irreducible_third : Irreducible (number (3 : ℝ)) (number (-1)) := by
  have hwhole : RealScalar.whole? (-1) = some (-1) := by
    simpa using RealScalar.whole?_intCast (n := -1) (by decide)
  have hone : (-1 : ℝ) ≠ 1 := by norm_num
  intro mul
  simp [powWith, isZero, isOne, Scalar.isZero, Scalar.isOne, numberPower, hwhole, hone]

/-- A third of `x` is added or multiplied twice, before or after `y`. -/
theorem equiv_of_reordered_thirds :
    let third : Expr ℝ := product [symbol "x", power (number 3) (number (-1))]
    equiv (add [symbol "y", third, third]) (add [third, symbol "y", third]) = true ∧
      equiv (mul [symbol "y", third, third]) (mul [third, symbol "y", third]) = true := by
  intro third
  have hpower : Normal (power (number (3 : ℝ)) (number (-1))) :=
    .power (.number _) (.number _) irreducible_third
  have hthird : Normal third := .product (by simp) (by simpa using ⟨.symbol _, hpower⟩)
    (by simp [isProduct]) (by simp [isNumber]) (by simp [haveOneBase, splitPower, equiv, isNumber])
  have hone : Plain (number (Scalar.one : ℝ)) :=
    ⟨.number _, fun ht hnumber => by rw [List.mem_singleton.mp ht] at hnumber; cases hnumber⟩
  have hperm : [symbol "y", third, third].Perm [third, symbol "y", third] := .swap _ _ _
  obtain ⟨hadd, hmul⟩ := equiv_of_reordered hperm
  refine ⟨hadd ?_ ?_, hmul ?_ rfl (pairwise_mergesPlainly ?_)⟩
  · change ∀ t ∈ [third, symbol "y", third], Normal t
    simpa using ⟨hthird, Normal.symbol _, hthird⟩
  · change ∀ s ∈ [third, symbol "y", third], ∀ t ∈ [third, symbol "y", third], _
    have hunlike : areLike third (symbol "y") = false := rfl
    have hunlike' : areLike (symbol "y") third = false := rfl
    simp [hunlike, hunlike']
  · change ∀ f ∈ [symbol "x", power (number 3) (number (-1)), symbol "y", symbol "x",
      power (number 3) (number (-1))], Normal f
    simpa using ⟨Normal.symbol _, hpower, Normal.symbol _, Normal.symbol _, hpower⟩
  · change ∀ f ∈ [symbol "x", power (number 3) (number (-1)), symbol "y", symbol "x",
      power (number 3) (number (-1))], _
    simpa [isNumberPower, splitPower, isNumber, isPower] using hone

/-- The coefficient is twelve. It absorbs the division by six that comes first, but then not the
one by four, and the other way around. -/
example :
    let a : Expr Float := div (number 2) (number 6)
    let b : Expr Float := div (number 6) (number 4)
    equiv (mul [a, b]) (mul [b, a]) = false := by decide +kernel

end EquationCompiler.Expr
