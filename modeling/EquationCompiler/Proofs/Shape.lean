import EquationCompiler.Proofs.Construction
import EquationCompiler.Proofs.NormalConstructors
import EquationCompiler.Proofs.Recipe

/-!
# The shape of simplified expressions

What the constructors return has none of the forms that they would simplify at the top:
sums and products of one operand, coefficients zero and one, coefficients that are not
in front, powers that fold, functions of an argument where their value is known. This
does not depend on what terms and bases are like, so unlike the normal form it is never
lost.

Products are simplified with products of their exponents. As exponents are nested less
deep, the proof is by induction on the level at which products are formed.
-/
namespace EquationCompiler.Expr
variable {α : Type}

/-- The functions whose value at zero is known. -/
def knownAtZero : List Elementary :=
  [.sin, .tan, .asin, .atan, .sinh, .tanh, .cos, .cosh, .exp]

section
variable [Scalar α]

/-- The power is not simplified. -/
structure Unfolded (b e : Expr α) : Prop where
  exponent_isZero : e.isZero = false
  exponent_isOne : e.isOne = false
  base_isOne : b.isOne = false
  /-- A power of a number that folds is a number. -/
  number {x : α} (h : b = number x) : numberPower x e = power b e
  /-- A whole power of a power multiplies the exponents. -/
  nested (h : b.isPower = true) : wholeExponent? e = none

/-- No constructor would simplify the expression or a part of it at the top. -/
inductive Shaped : Expr α → Prop
  | number (x : α) : Shaped (number x)
  | symbol (s : String) : Shaped (symbol s)
  | constant (c : Constant) : Shaped (constant c)
  | sum {ts : List (Expr α)} (hmany : 2 ≤ ts.length) (hterms : ∀ t ∈ ts, Shaped t) :
      Shaped (sum ts)
  | product {fs : List (Expr α)} (hmany : 2 ≤ fs.length) (hfactors : ∀ f ∈ fs, Shaped f)
      (hcoefficient : ∀ c, fs.head? = some (.number c) →
        Scalar.isZero c = false ∧ Scalar.isOne c = false)
      (hnumber : ∀ f ∈ fs.tail, f.isNumber = false) : Shaped (product fs)
  | power {b e : Expr α} (hb : Shaped b) (he : Shaped e) (h : Unfolded b e) : Shaped (power b e)
  | call {f : Elementary} {args : List (Expr α)} (hargs : ∀ a ∈ args, Shaped a)
      (hzero : f ∈ knownAtZero → ∀ a, args = [a] → a.isZero = false)
      (hone : f = .log → ∀ a, args = [a] → a.isOne = false) : Shaped (call f args)

lemma Unfolded.irreducible {b e : Expr α} (h : Unfolded b e) : Irreducible b e := by
  intro mul
  rw [powWith.eq_def]
  simp only [h.exponent_isZero, h.base_isOne, h.exponent_isOne, Bool.or_self]
  cases b with
  | number x => exact h.number rfl
  | power inner x => simp [h.nested rfl]
  | _ => rfl

lemma passesDown_shaped : PassesDown (Shaped : Expr α → Prop) where
  number := .number
  of_sum h := by cases h; assumption
  of_product h := by cases h; assumption
  of_power h := by cases h; exact ⟨by assumption, by assumption⟩
  of_call h := by cases h; assumption

namespace Shaped

/-- Without its coefficient a term has a product of at least two factors, or is one factor. -/
lemma splitCoefficient {e : Expr α} (h : Shaped e) : Shaped (splitCoefficient e).2 := by
  unfold Expr.splitCoefficient
  split
  · next c rest =>
    cases h with
    | product hmany hfactors hcoefficient hnumber =>
      rw [List.forall_mem_cons] at hfactors
      match rest with
      | [] => simp at hmany
      | [f] => exact hfactors.2 f (by simp)
      | f :: g :: more =>
        refine .product (by simp) hfactors.2 (fun k hk => ?_) fun f hf =>
          hnumber f (List.mem_of_mem_tail hf)
        have hf := hnumber f (by simp)
        rw [Option.some.inj hk] at hf
        cases hf
  · exact h

lemma splitPower {e : Expr α} (h : Shaped e) :
    Shaped (splitPower e).1 ∧ Shaped (splitPower e).2 := by
  cases h with
  | power hb he _ => exact ⟨hb, he⟩
  | _ => exact ⟨by constructor <;> assumption, .number _⟩

/-- A factor is the power of its base to its exponent. -/
lemma pow_splitPower [UnitScalar α] {f : Expr α} (h : Shaped f) (hnumber : f.isNumber = false) :
    pow (Expr.splitPower f).1 (Expr.splitPower f).2 = f := by
  refine pow_splitPower_of_irreducible hnumber fun b e hf => ?_
  subst hf
  cases h with
  | power _ _ h => exact h.irreducible

end Shaped

lemma shaped_collect {ts : List (Expr α)} (h : ∀ t ∈ ts, Shaped t) :
    ∀ t ∈ (collect ts).terms, Shaped t.2 := by
  have hinsert (ts : List (Expr α)) (s : Collected α) (hts : ∀ t ∈ ts, Shaped t)
      (hs : ∀ t ∈ s.terms, Shaped t.2) :
      ∀ t ∈ (ts.foldl Collected.insert s).terms, Shaped t.2 := by
    induction ts generalizing s with
    | nil => exact hs
    | cons t ts ih =>
      rw [List.forall_mem_cons] at hts
      refine ih _ hts.2 ?_
      unfold Collected.insert
      split
      · exact hs
      · exact forall_mem_collectTerm hts.1.splitCoefficient hs
  exact hinsert _ _ (fun t ht => of_mem_termsAll passesDown_shaped.of_sum h ht) (by simp)

lemma shaped_collapse_sum {es : List (Expr α)} (hes : es ≠ []) (h : ∀ t ∈ es, Shaped t) :
    Shaped (collapse sum es) := by
  rcases es with _ | ⟨t, _ | ⟨s, more⟩⟩
  · exact absurd rfl hes
  · exact h t (by simp)
  · exact .sum (by simp) h

section
variable {mul : List (Expr α) → Expr α} {level : ℕ}
  (hmul : ∀ fs, depthAll fs < level → (∀ f ∈ fs, Shaped f) → Shaped (mul fs))
include hmul

lemma shaped_addWith {ts : List (Expr α)} (hlevel : depthAll ts < level)
    (h : ∀ t ∈ ts, Shaped t) : Shaped (addWith mul ts) := by
  have hkept : ∀ t ∈ (collect ts).terms.filterMap (restoreTerm mul), Shaped t := by
    intro t ht
    obtain ⟨⟨c, rest⟩, hmem, hrestore⟩ := List.mem_filterMap.mp ht
    have hrest := shaped_collect h _ hmem
    simp only [restoreTerm] at hrestore
    split_ifs at hrestore
    · rwa [← Option.some.inj hrestore]
    · rw [← Option.some.inj hrestore]
      refine hmul _ ?_ (by simpa using ⟨.number c, hrest⟩)
      have hdepth : rest.depth ≤ depthAll ts := (depth_collect le_rfl _ hmem).1
      simp only [depthAll, depth]
      omega
  unfold addWith
  dsimp only
  split
  · exact .number _
  · next es hes =>
    have hall : ∀ t ∈ (if Scalar.isZero (collect ts).constant = true then
        (collect ts).terms.filterMap (restoreTerm mul)
        else Expr.number (collect ts).constant ::
          (collect ts).terms.filterMap (restoreTerm mul)), Shaped t := by
      split_ifs
      · exact hkept
      · exact List.forall_mem_cons.mpr ⟨.number _, hkept⟩
    exact shaped_collapse_sum hes hall

omit hmul in
lemma shaped_numberPower {x : α} {e : Expr α} (he : Shaped e) (hzero : e.isZero = false)
    (hone : e.isOne = false) (hx : (number x).isOne = false) : Shaped (numberPower x e) := by
  rcases weight_numberPower x e with hpower | hnumber
  · rw [hpower]
    refine .power (.number x) he ⟨hzero, hone, hx, fun hy => ?_, fun h => ?_⟩
    · rw [← Expr.number.inj hy, hpower]
    · cases h
  · obtain ⟨y, hy⟩ := weight_eq_zero.mp hnumber
    rw [hy]
    exact .number y

lemma shaped_powWith (hsmall : Small mul level) {b e : Expr α} (hb : b.depth ≤ level)
    (he : e.depth < level) (hbase : Shaped b) (hexponent : Shaped e) :
    Shaped (powWith mul b e) := by
  fun_induction powWith mul b e with
  | case1 => exact .number _
  | case2 => exact hbase
  | case3 e hone x htrivial =>
    simp only [Bool.or_eq_true, not_or, Bool.not_eq_true] at htrivial hone
    exact shaped_numberPower hexponent htrivial.1 hone htrivial.2
  | case4 e hone inner x p hwhole htrivial ih =>
    obtain ⟨hinner, hx⟩ := passesDown_shaped.of_power hbase
    simp only [depth] at hb
    have hexponents : depthAll [x, e] < level := by
      simp only [depthAll]
      omega
    have hdepth := hsmall.depth hexponents
    exact ih (by omega) (by omega) hinner (hmul _ hexponents (by simpa using ⟨hx, hexponent⟩))
  | case5 e hone inner x hwhole htrivial =>
    simp only [Bool.or_eq_true, not_or, Bool.not_eq_true] at htrivial hone
    exact .power hbase hexponent
      ⟨htrivial.1, hone, htrivial.2, (by cases ·), fun _ => hwhole⟩
  | case6 e hone b hnumber hpower htrivial =>
    simp only [Bool.or_eq_true, not_or, Bool.not_eq_true] at htrivial hone
    refine .power hbase hexponent
      ⟨htrivial.1, hone, htrivial.2, fun hx => (hnumber _ hx).elim, fun h => ?_⟩
    cases b with
    | power inner x => exact (hpower inner x rfl).elim
    | _ => cases h

omit hmul in
lemma shaped_collectPower {add : List (Expr α) → Expr α}
    (hadd : ∀ ts, depthAll ts < level → (∀ t ∈ ts, Shaped t) → Shaped (add ts))
    {b e : Expr α} (hdepth : pairDepth (b, e) ≤ level) (hbase : Shaped b) (hexponent : Shaped e)
    {ps : List (Expr α × Expr α)}
    (h : ∀ p ∈ ps, pairDepth p ≤ level ∧ Shaped p.1 ∧ Shaped p.2) :
    ∀ p ∈ collectPower add b e ps, Shaped p.1 ∧ Shaped p.2 := by
  induction ps with
  | nil => simpa [collectPower] using ⟨hbase, hexponent⟩
  | cons p ps ih =>
    rw [List.forall_mem_cons] at h
    obtain ⟨⟨hp, hpbase, hpexponent⟩, hps⟩ := h
    simp only [collectPower]
    split_ifs
    · refine List.forall_mem_cons.mpr ⟨⟨hpbase, hadd _ ?_ (by simpa using ⟨hpexponent, hexponent⟩)⟩,
        fun q hq => (hps q hq).2⟩
      simp only [pairDepth] at hp hdepth
      simp only [depthAll]
      omega
    · exact List.forall_mem_cons.mpr ⟨⟨hpbase, hpexponent⟩, ih hps⟩

lemma shaped_collectPowers (hsmall : Small mul level) {fs : List (Expr α)}
    (hlevel : depthAll fs ≤ level) (h : ∀ f ∈ fs, Shaped f) :
    ∀ p ∈ (collectPowers (addWith mul) fs).powers,
      pairDepth p ≤ level ∧ Shaped p.1 ∧ Shaped p.2 := by
  have hinsert (fs : List (Expr α)) (p : Powers α)
      (hfs : ∀ f ∈ fs, f.depth ≤ level ∧ Shaped f)
      (hp : ∀ q ∈ p.powers, pairDepth q ≤ level ∧ Shaped q.1 ∧ Shaped q.2) :
      ∀ q ∈ (fs.foldl (Powers.insert (addWith mul)) p).powers,
        pairDepth q ≤ level ∧ Shaped q.1 ∧ Shaped q.2 := by
    induction fs generalizing p with
    | nil => exact hp
    | cons f fs ih =>
      rw [List.forall_mem_cons] at hfs
      obtain ⟨⟨hdepth, hf⟩, hfs⟩ := hfs
      refine ih _ hfs fun q hq => ⟨?_, ?_⟩
      · exact depth_insert (fun _ => depth_addWith_le hsmall) le_rfl hdepth
          (fun q hq => (hp q hq).1) q hq
      · by_cases hnumber : ∃ x, f = number x
        · obtain ⟨x, rfl⟩ := hnumber
          exact (hp q hq).2
        · rw [Powers.insert_of_ne_number (not_exists.mp hnumber)] at hq
          have hweight : f.weight ≠ 0 := fun h0 => hnumber (weight_eq_zero.mp h0)
          exact shaped_collectPower (fun _ => shaped_addWith hmul)
            ((pairDepth_splitPower hweight).trans_le hdepth) hf.splitPower.1 hf.splitPower.2 hp q hq
  exact hinsert _ _ (fun f hf => ⟨(depth_le_of_mem_factorsAll hf).trans hlevel,
    of_mem_factorsAll passesDown_shaped.of_product h hf⟩) (by simp)

omit hmul in
lemma shaped_toExpr {f : Folded α} (h : ∀ g ∈ f.factors, g.isNumber = false ∧ Shaped g) :
    Shaped f.toExpr := by
  have hnumber (gs : List (Expr α)) (hgs : gs.Sublist f.factors) :
      ∀ g ∈ gs, g.isNumber = false := fun g hg => (h g (hgs.subset hg)).1
  unfold Folded.toExpr
  split_ifs with hzero hempty hone
  · exact .number _
  · exact .number _
  · match hfactors : f.factors with
    | [] => simp [hfactors] at hempty
    | [g] => exact (h g (by simp [hfactors])).2
    | g :: k :: more =>
      rw [hfactors] at h
      refine .product (by simp) (fun a ha => (h a ha).2) (fun c hc => ?_) fun a ha =>
        (h a (List.mem_of_mem_tail ha)).1
      have hg := (h g (by simp)).1
      rw [Option.some.inj hc] at hg
      cases hg
  · refine .product ?_ (List.forall_mem_cons.mpr ⟨.number _, fun g hg => (h g hg).2⟩)
      (fun c hc => ?_) fun g hg => (h g hg).1
    · have := List.length_pos_iff.mpr (by simpa using hempty)
      simp only [List.length_cons]
      omega
    · rw [← Expr.number.inj (Option.some.inj hc)]
      simp_all

lemma shaped_mulWith (hsmall : Small mul level) {fs : List (Expr α)} (hlevel : depthAll fs ≤ level)
    (h : ∀ f ∈ fs, Shaped f) : Shaped (mulWith (addWith mul) (powWith mul) fs) := by
  have hpush (ps : List (Expr α × Expr α)) (f : Folded α)
      (hps : ∀ p ∈ ps, pairDepth p ≤ level ∧ Shaped p.1 ∧ Shaped p.2)
      (hf : ∀ g ∈ f.factors, g.isNumber = false ∧ Shaped g) :
      ∀ g ∈ (ps.foldl (Folded.push (powWith mul)) f).factors, g.isNumber = false ∧ Shaped g := by
    induction ps generalizing f with
    | nil => exact hf
    | cons p ps ih =>
      rw [List.forall_mem_cons] at hps
      obtain ⟨⟨hdepth, hbase, hexponent⟩, hps⟩ := hps
      refine ih _ hps fun g hg => ?_
      rcases factors_push (powWith mul) f p with hsame | ⟨hnumber, hnew⟩
      · exact hf g (hsame ▸ hg)
      · rw [hnew] at hg
        rcases List.mem_append.mp hg with hg | hg
        · exact hf g hg
        · simp only [pairDepth] at hdepth
          rw [List.mem_singleton.mp hg]
          exact ⟨hnumber, shaped_powWith hmul hsmall (by omega) (by omega) hbase hexponent⟩
  unfold mulWith
  dsimp only
  split_ifs
  · exact .number _
  · exact shaped_toExpr (hpush _ _ (shaped_collectPowers hmul hsmall hlevel h) (by simp))

end

section
variable [UnitScalar α]

lemma shaped_mulAt {level : ℕ} {fs : List (Expr α)} (hlevel : depthAll fs < level)
    (h : ∀ f ∈ fs, Shaped f) : Shaped (mulAt level fs) := by
  induction level generalizing fs with
  | zero => exact absurd hlevel (Nat.not_lt_zero _)
  | succ level ih =>
    exact shaped_mulWith (fun _ => ih) (small_mulAt UnitScalar.isOne_one level)
      (Nat.le_of_lt_succ hlevel) h

theorem shaped_mul {fs : List (Expr α)} (h : ∀ f ∈ fs, Shaped f) : Shaped (mul fs) :=
  shaped_mulAt (Nat.lt_succ_self _) h

theorem shaped_add {ts : List (Expr α)} (h : ∀ t ∈ ts, Shaped t) : Shaped (add ts) :=
  shaped_addWith (fun _ => shaped_mulAt) (Nat.lt_succ_self _) h

theorem Shaped.pow {b e : Expr α} (hb : Shaped b) (he : Shaped e) : Shaped (pow b e) :=
  shaped_powWith (fun _ => shaped_mulAt) (small_mulAt UnitScalar.isOne_one _) (by omega) (by omega)
    hb he

end

lemma exactValue?_eq_none {f : Elementary} {e : Expr α} (h : exactValue? f e = none) :
    (f ∈ knownAtZero → e.isZero = false) ∧ (f = .log → e.isOne = false) := by
  cases f <;> simp_all [exactValue?, knownAtZero]

theorem shaped_apply {f : Elementary} {args : List (Expr α)} (h : ∀ a ∈ args, Shaped a) :
    Shaped (apply f args) := by
  unfold apply
  split
  · next a =>
    split
    · exact .number _
    · next hvalue =>
      obtain ⟨hzero, hone⟩ := exactValue?_eq_none hvalue
      refine .call h (fun hf b hb => ?_) fun hf b hb => ?_
      · exact (List.singleton_inj.mp hb) ▸ hzero hf
      · exact (List.singleton_inj.mp hb) ▸ hone hf
  · next hmany => exact .call h (fun _ a ha => absurd ha (hmany a)) fun _ a ha => absurd ha (hmany a)

end

end EquationCompiler.Expr

namespace EquationCompiler

namespace Recipe
variable {α : Type} [Scalar α]

mutual
/-- Whatever a recipe makes of expressions of this shape has it, too. -/
theorem shaped_build [UnitScalar α] {r : Recipe α} (h : r.From Expr.Shaped) : r.build.Shaped := by
  match r with
  | given e => exact h
  | sum rs => exact Expr.shaped_add (shaped_buildAll h)
  | product rs => exact Expr.shaped_mul (shaped_buildAll h)
  | power b e => exact (shaped_build h.1).pow (shaped_build h.2)
  | call f rs => exact Expr.shaped_apply (shaped_buildAll h)
theorem shaped_buildAll [UnitScalar α] {rs : List (Recipe α)} (h : FromAll Expr.Shaped rs) :
    ∀ e ∈ buildAll rs, e.Shaped := by
  match rs with
  | [] => exact fun _ he => by cases he
  | r :: rs => exact List.forall_mem_cons.mpr ⟨shaped_build h.1, shaped_buildAll h.2⟩
end

end Recipe

namespace Expr
open Token
variable {α : Type} [Numeral α] [UnitScalar α]

lemma shaped_parse {v : Vocabulary} {text : String} {e : Expr α} (h : parse v text = .ok e) :
    Shaped e := by
  rw [parse_eq_map] at h
  cases hrecipe : (parseRecipe v text : Except ExprFault (Recipe α)) with
  | error cause => simp [hrecipe, Except.map] at h
  | ok r =>
    rw [hrecipe] at h
    cases h
    obtain ⟨f, -, hf⟩ := Formula.bind_eq_ok.mp hrecipe
    refine r.shaped_build (Formula.from_recipe .number (fun s => ?_) hf)
    unfold Formula.identifier
    split_ifs
    · exact .symbol s
    · split
      · exact .constant _
      · exact .symbol s

theorem Shaped.substitute {e r : Expr α} (he : Shaped e) (hr : Shaped r) (name : String) :
    Shaped (e.substitute name r) := by
  rw [← build_substituteRecipe]
  exact Recipe.shaped_build (passesDown_shaped.from_substituteRecipe hr he)

theorem Shaped.derivative {e : Expr α} (he : Shaped e) (name : String) :
    Shaped (derivative name e) := by
  rw [← build_derivativeRecipe]
  exact Recipe.shaped_build (passesDown_shaped.from_derivativeRecipe name he)

theorem Shaped.neg {e : Expr α} (h : Shaped e) : Shaped (neg e) :=
  shaped_mul (by simpa using ⟨.number _, h⟩)

lemma Obtained.shaped {e : Expr α} (h : Obtained e) : Shaped e := by
  induction h with
  | parse h => exact shaped_parse h
  | number x => exact .number x
  | add _ ih => exact shaped_add ih
  | mul _ ih => exact shaped_mul ih
  | pow _ _ hb he => exact hb.pow he
  | apply _ _ ih => exact shaped_apply ih
  | neg _ ih => exact ih.neg
  | sub _ _ ha hb => exact shaped_add (by simpa using ⟨ha, hb.neg⟩)
  | div _ _ ha hb => exact shaped_mul (by simpa using ⟨ha, hb.pow (.number _)⟩)
  | substitute name _ _ he hr => exact he.substitute hr name
  | derivative name _ ih => exact ih.derivative name

/-- Everything that can be obtained is simplified at the top and in all its parts, and its functions
have as many arguments as they take. -/
theorem shaped_and_formed {e : Expr α} (h : Obtained e) :
    Shaped e ∧ Formed (fun s => IsName s.toList) e :=
  ⟨h.shaped, h.formed⟩

/-- The derivative is a sum of products, and the expression itself is substituted into its roots and
logarithms. -/
theorem shaped_and_formed_root :
    ∃ e : Expr Float, parse (.ofList ["x"]) "sqrt(x)*log(x)/3 - 2*x**3" = .ok e ∧
      e.isSum = true ∧ Shaped ((derivative "x" e).substitute "x" e) ∧
        Formed (fun s => IsName s.toList) ((derivative "x" e).substitute "x" e) := by
  have hparse : (parse (.ofList ["x"]) "sqrt(x)*log(x)/3 - 2*x**3" :
      Except ExprFault (Expr Float)).toOption.any isSum = true := by decide +kernel
  obtain ⟨e, he, hsum⟩ := (Option.any_eq_true _ _).mp hparse
  have he := Formula.eq_ok_of_toOption he
  exact ⟨e, he, hsum, shaped_and_formed (.substitute "x" (.derivative "x" (.parse he)) (.parse he))⟩

end Expr

end EquationCompiler
