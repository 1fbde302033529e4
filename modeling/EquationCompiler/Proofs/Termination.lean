import EquationCompiler.Proofs.NormalForm

/-!
# The recursion of the simplifier ends

Sums call products on terms they have collected, products call sums on exponents and
powers on bases, powers call products on exponents and then themselves. All these calls
are made on expressions that have just been built. A call is ranked by how deep
exponents are nested in it, next by the operation and last by the weight of the base, and
every call that it makes has a lower rank.
-/
namespace EquationCompiler.Expr

/-- A call of one of the three operations that call one another. -/
inductive Call (α : Type) where
  | add (ts : List (Expr α))
  | mul (fs : List (Expr α))
  | pow (b e : Expr α)

namespace Call
variable {α : Type} [Scalar α]

def result : Call α → Expr α
  | add ts => Expr.add ts
  | mul fs => Expr.mul fs
  | pow b e => Expr.pow b e

/-- What an operation does itself, when `answer` does the calls that it makes. -/
def perform (answer : Call α → Expr α) : Call α → Expr α
  | add ts => addWith (fun fs => answer (mul fs)) ts
  | mul fs => mulWith (fun ts => answer (add ts)) (fun b e => answer (pow b e)) fs
  | pow b e =>
    if e.isZero || b.isOne then number Scalar.one
    else if e.isOne then b
    else match b with
      | number x => numberPower x e
      | power inner x =>
        match wholeExponent? e with
        | some _ => answer (pow inner (answer (mul [x, e])))
        | none => power (power inner x) e
      | b => power b e

/-- The first call makes the second. -/
inductive Makes : Call α → Call α → Prop
  /-- A sum puts back a term whose coefficient is neither zero nor one. -/
  | restore {ts : List (Expr α)} {c : α} {rest : Expr α} (hterm : (c, rest) ∈ (collect ts).terms)
      (hzero : Scalar.isZero c = false) (hone : Scalar.isOne c = false) :
      Makes (add ts) (mul [number c, rest])
  /-- A product that has collected the factors up to `f` meets a base again. -/
  | merge {fs before after : List (Expr α)} {f c x : Expr α}
      (hfactors : factorsAll fs = before ++ f :: after) (hnumber : f.isNumber = false)
      (hbase : (before.foldl (Powers.insert Expr.add) ⟨Scalar.one, []⟩).powers.find?
        (fun p => equiv p.1 (splitPower f).1) = some (c, x)) :
      Makes (mul fs) (add [x, (splitPower f).2])
  /-- A product puts back a power that has not been folded into the coefficient. -/
  | raise {fs : List (Expr α)} {before after : List (Expr α × Expr α)} {b e : Expr α}
      (hzero : Scalar.isZero (collectPowers Expr.add fs).coefficient = false)
      (hpowers : (collectPowers Expr.add fs).powers = before ++ (b, e) :: after)
      (hfold : foldReciprocal? (before.foldl (Folded.push Expr.pow)
        ⟨(collectPowers Expr.add fs).coefficient, []⟩).coefficient b e = none) :
      Makes (mul fs) (pow b e)
  /-- A whole power of a power multiplies the exponents. -/
  | exponents {inner x e : Expr α} (hzero : e.isZero = false) (hone : e.isOne = false)
      (hwhole : (wholeExponent? e).isSome = true) : Makes (pow (power inner x) e) (mul [x, e])
  /-- Then it raises the inner base. -/
  | inner {inner x e : Expr α} (hzero : e.isZero = false) (hone : e.isOne = false)
      (hwhole : (wholeExponent? e).isSome = true) :
      Makes (pow (power inner x) e) (pow inner (Expr.mul [x, e]))

lemma collectPower_congr_find {add add' : List (Expr α) → Expr α} {b e : Expr α}
    {ps : List (Expr α × Expr α)}
    (h : ∀ c x, ps.find? (fun p => equiv p.1 b) = some (c, x) → add [x, e] = add' [x, e]) :
    collectPower add b e ps = collectPower add' b e ps := by
  induction ps with
  | nil => rfl
  | cons p ps ih =>
    by_cases hp : equiv p.1 b = true
    · simp [collectPower, hp, h p.1 p.2 (by simp [hp])]
    · simp only [collectPower, hp, Bool.false_eq_true, if_false]
      rw [ih fun c x hx => h c x (by simpa [List.find?_cons, hp] using hx)]

/-- The factors are met one after the other, and each merges with what has been collected before. -/
lemma collectPowers_eq {fs : List (Expr α)} {answer : Call α → Expr α}
    (h : ∀ d, Makes (mul fs) d → answer d = d.result) :
    collectPowers (fun ts => answer (add ts)) fs = collectPowers Expr.add fs := by
  have hrest (rest before : List (Expr α)) (hfactors : factorsAll fs = before ++ rest) :
      rest.foldl (Powers.insert fun ts => answer (add ts))
          (before.foldl (Powers.insert Expr.add) ⟨Scalar.one, []⟩) =
        rest.foldl (Powers.insert Expr.add)
          (before.foldl (Powers.insert Expr.add) ⟨Scalar.one, []⟩) := by
    induction rest generalizing before with
    | nil => rfl
    | cons f rest ih =>
      have hnext := ih (before ++ [f]) (by simpa using hfactors)
      simp only [List.foldl_append, List.foldl_cons, List.foldl_nil] at hnext ⊢
      rw [← hnext]
      congr 1
      by_cases hnumber : f.isNumber
      · cases f with
        | number x => rfl
        | _ => cases hnumber
      · rw [Bool.not_eq_true] at hnumber
        have hother := isNumber_eq_false.mp hnumber
        rw [Powers.insert_of_ne_number hother, Powers.insert_of_ne_number hother]
        congr 1
        exact collectPower_congr_find fun c x hx => h _ (.merge hfactors hnumber hx)
  exact hrest _ [] rfl

lemma foldl_push_eq {fs : List (Expr α)} {answer : Call α → Expr α}
    (hzero : Scalar.isZero (collectPowers Expr.add fs).coefficient = false)
    (h : ∀ d, Makes (mul fs) d → answer d = d.result) :
    (collectPowers Expr.add fs).powers.foldl (Folded.push fun b e => answer (pow b e))
        ⟨(collectPowers Expr.add fs).coefficient, []⟩ =
      (collectPowers Expr.add fs).powers.foldl (Folded.push Expr.pow)
        ⟨(collectPowers Expr.add fs).coefficient, []⟩ := by
  have hrest (rest before : List (Expr α × Expr α))
      (hpowers : (collectPowers Expr.add fs).powers = before ++ rest) :
      rest.foldl (Folded.push fun b e => answer (pow b e))
          (before.foldl (Folded.push Expr.pow) ⟨(collectPowers Expr.add fs).coefficient, []⟩) =
        rest.foldl (Folded.push Expr.pow)
          (before.foldl (Folded.push Expr.pow) ⟨(collectPowers Expr.add fs).coefficient, []⟩) := by
    induction rest generalizing before with
    | nil => rfl
    | cons p rest ih =>
      have hnext := ih (before ++ [p]) (by simpa using hpowers)
      simp only [List.foldl_append, List.foldl_cons, List.foldl_nil] at hnext ⊢
      rw [← hnext]
      congr 1
      obtain ⟨b, e⟩ := p
      simp only [Folded.push]
      split
      · rfl
      · next hfold => rw [h _ (.raise hzero hpowers hfold), result]
  exact hrest _ [] rfl

/-- Raising opens as the operation on its own does, and leaves a power of a power to a call. -/
lemma perform_pow (answer : Call α → Expr α) {b e : Expr α}
    (h : ∀ inner x, b = power inner x → e.isZero = false → e.isOne = false →
      (wholeExponent? e).isSome = true →
        answer (pow inner (answer (mul [x, e]))) = powWith Expr.mul inner (Expr.mul [x, e])) :
    (pow b e).perform answer = powWith Expr.mul b e := by
  cases b with
  | power inner x =>
    simp only [perform, powWith]
    split_ifs with htrivial hone
    · rfl
    · rfl
    · cases hwhole : wholeExponent? e with
      | none => rfl
      | some n => exact h inner x rfl (by simp_all) (by simpa using hone) (by rw [hwhole]; rfl)
  | _ => rfl

variable [UnitScalar α]

/-- The result of a call is made from the results of the calls that it makes, and of no others. -/
theorem perform_eq_result {c : Call α} {answer : Call α → Expr α}
    (h : ∀ d, Makes c d → answer d = d.result) : c.perform answer = c.result := by
  cases c with
  | add ts =>
    rw [perform, result, add_eq UnitScalar.isOne_one]
    have hkept : (collect ts).terms.filterMap (restoreTerm fun fs => answer (mul fs)) =
        (collect ts).terms.filterMap (restoreTerm Expr.mul) := by
      refine List.filterMap_congr fun t ht => ?_
      simp only [restoreTerm]
      split_ifs with hzero hone
      · rfl
      · rfl
      · rw [h _ (.restore ht (by simpa using hzero) (by simpa using hone)), result]
    simp only [addWith, hkept]
  | mul fs =>
    rw [perform, result, mul_eq UnitScalar.isOne_one]
    simp only [mulWith, collectPowers_eq h]
    split_ifs with hzero
    · rfl
    · rw [foldl_push_eq (by simpa using hzero) h]
  | pow b e =>
    rw [result, pow_eq UnitScalar.isOne_one]
    refine perform_pow answer fun inner x hpower hzero hone hwhole => ?_
    subst hpower
    rw [h _ (.exponents hzero hone hwhole), result, h _ (.inner hzero hone hwhole), result,
      pow_eq UnitScalar.isOne_one]

omit [UnitScalar α] [Scalar α] in
/-- How deep exponents are nested, then the operation, then the weight of the base. -/
def rank : Call α → ℕ ×ₗ ℕ ×ₗ ℕ
  | add ts => toLex (depthAll ts, toLex (2, 0))
  | mul fs => toLex (depthAll fs, toLex (1, 0))
  | pow b e => toLex (pairDepth (b, e), toLex (0, b.weight))

lemma depth_add_le (ts : List (Expr α)) : (Expr.add ts).depth ≤ depthAll ts :=
  depth_addWith_le (small_mulAt UnitScalar.isOne_one _) (Nat.lt_succ_self _)

lemma depth_mul_le (fs : List (Expr α)) : (Expr.mul fs).depth ≤ depthAll fs :=
  (small_mulAt UnitScalar.isOne_one _).depth (Nat.lt_succ_self _)

/-- What a product has collected is no deeper than its factors. -/
lemma pairDepth_collected {fs before after : List (Expr α)}
    (hfactors : factorsAll fs = before ++ after) {p : Expr α × Expr α}
    (hp : p ∈ (before.foldl (Powers.insert Expr.add) ⟨Scalar.one, []⟩).powers) :
    pairDepth p ≤ depthAll fs := by
  have hsums (ts : List (Expr α)) (_ : depthAll ts < depthAll fs) :
      (Expr.add ts).depth ≤ depthAll ts := depth_add_le ts
  refine depth_foldl_insert hsums le_rfl (fun f hf => ?_) (by simp) p hp
  exact depth_le_of_mem_factorsAll (hfactors ▸ List.mem_append_left after hf)

theorem rank_lt {c d : Call α} (h : Makes c d) : d.rank < c.rank := by
  cases h with
  | restore hterm hzero hone =>
    have hrest := (depth_collect le_rfl _ hterm).1
    simp only at hrest
    simp only [rank, Prod.Lex.toLex_lt_toLex, depthAll, depth]
    omega
  | @merge fs before after f c x hfactors hnumber hbase =>
    have hweight : f.weight ≠ 0 := fun h0 => by
      obtain ⟨y, rfl⟩ := weight_eq_zero.mp h0
      cases hnumber
    have hf : f.depth ≤ depthAll fs := depth_le_of_mem_factorsAll (by simp [hfactors])
    have hnew := (pairDepth_splitPower hweight).trans_le hf
    have hold := pairDepth_collected hfactors (List.mem_of_find?_eq_some hbase)
    simp only [pairDepth] at hnew hold
    simp only [rank, Prod.Lex.toLex_lt_toLex, depthAll]
    omega
  | @raise fs before after b e hzero hpowers hfold =>
    have hall : factorsAll fs = factorsAll fs ++ [] := (List.append_nil _).symm
    have hpair : pairDepth (b, e) ≤ depthAll fs :=
      pairDepth_collected hall (hpowers ▸ List.mem_append_right before List.mem_cons_self)
    simp only [rank, Prod.Lex.toLex_lt_toLex]
    omega
  | @exponents inner x e hzero hone hwhole =>
    simp only [rank, Prod.Lex.toLex_lt_toLex, pairDepth, depthAll, depth]
    omega
  | @inner inner x e hzero hone hwhole =>
    have hmerged := depth_mul_le [x, e]
    have hlevel : pairDepth (inner, Expr.mul [x, e]) ≤ pairDepth (power inner x, e) := by
      simp only [pairDepth, depthAll, depth] at hmerged ⊢
      omega
    have hbase : inner.weight < (power inner x).weight := by
      simp only [weight]
      omega
    simp only [rank, Prod.Lex.toLex_lt_toLex]
    exact hlevel.lt_or_eq.imp_right fun heq => ⟨heq, .inr ⟨trivial, hbase⟩⟩

end Call

/-- No chain of calls goes on for ever, whatever numbers occur, and each call does nothing but put
together the results of the calls that it makes. -/
theorem simplification_ends :
    WellFounded (flip (Call.Makes (α := Float))) ∧
      ∀ (c : Call Float) (answer : Call Float → Expr Float),
        (∀ d, c.Makes d → answer d = d.result) → c.perform answer = c.result :=
  ⟨Subrelation.wf (fun h => Call.rank_lt h) (InvImage.wf Call.rank wellFounded_lt),
    fun _ _ h => Call.perform_eq_result h⟩

lemma mul_half_two : Expr.mul [number 0.5, number (2 : Float)] = number 1 := by
  have hvalue : (Expr.mul [number 0.5, number (2 : Float)]).asNumber? = some 1 := by decide +kernel
  cases hmul : Expr.mul [number 0.5, number (2 : Float)] with
  | number x =>
    rw [hmul, asNumber?_number] at hvalue
    rw [Option.some.inj hvalue]
  | _ => simp [hmul, asNumber?] at hvalue

lemma pow_one (s : String) : Expr.pow (symbol s) (number (1 : Float)) = symbol s := by
  have hzero : Scalar.isZero (1 : Float) = false := UnitScalar.isZero_one
  have hone : Scalar.isOne (1 : Float) = true := UnitScalar.isOne_one
  simp [pow_eq UnitScalar.isOne_one, powWith, isZero, isOne, hzero, hone]

/-- The square of a root multiplies the exponents to one and raises the base to that. -/
theorem simplification_ends_root :
    Acc (flip Call.Makes) (Call.pow (power (symbol "x") (number (0.5 : Float))) (number 2)) ∧
      (Call.pow (power (symbol "x") (number (0.5 : Float))) (number 2)).perform
          (fun | .mul _ => number (1 : Float) | _ => symbol "x") =
        Expr.pow (power (symbol "x") (number 0.5)) (number 2) := by
  obtain ⟨hends, hresult⟩ := simplification_ends
  refine ⟨hends.apply _, hresult _ _ fun d hd => ?_⟩
  cases hd with
  | exponents => exact mul_half_two.symm
  | inner => simp only [Call.result, mul_half_two, pow_one]

end EquationCompiler.Expr
