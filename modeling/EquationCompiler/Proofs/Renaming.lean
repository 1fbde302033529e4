import EquationCompiler.Proofs.Hereditary

/-!
# Names do not matter

Renaming the symbols of an expression one to one commutes with simplification, with
substitution and with derivatives. The simplifier never looks at a name but to ask
whether two are the same, and it keeps everything in the order of first appearance.
-/
namespace EquationCompiler.Expr
variable {α : Type} {r : String → String}

mutual
/-- The expression with the names of its symbols replaced. -/
def rename (r : String → String) : Expr α → Expr α
  | number x => number x
  | symbol s => symbol (r s)
  | constant c => constant c
  | sum ts => sum (renameAll r ts)
  | product fs => product (renameAll r fs)
  | power b e => power (rename r b) (rename r e)
  | call f args => call f (renameAll r args)
def renameAll (r : String → String) : List (Expr α) → List (Expr α)
  | [] => []
  | e :: es => rename r e :: renameAll r es
end

@[simp] lemma renameAll_eq_map (es : List (Expr α)) : renameAll r es = es.map (rename r) := by
  induction es with
  | nil => rfl
  | cons e es ih => rw [renameAll, ih, List.map_cons]

@[simp] lemma rename_number (x : α) : (number x).rename r = number x := rfl

@[simp] lemma rename_symbol (s : String) : (symbol s : Expr α).rename r = symbol (r s) := rfl

@[simp] lemma rename_constant (c : Constant) : (constant c : Expr α).rename r = constant c := rfl

@[simp] lemma rename_sum (ts : List (Expr α)) : (sum ts).rename r = sum (ts.map (rename r)) := by
  rw [rename, renameAll_eq_map]

@[simp] lemma rename_product (fs : List (Expr α)) :
    (product fs).rename r = product (fs.map (rename r)) := by
  rw [rename, renameAll_eq_map]

@[simp] lemma rename_power (b e : Expr α) :
    (power b e).rename r = power (b.rename r) (e.rename r) := rfl

@[simp] lemma rename_call (f : Elementary) (args : List (Expr α)) :
    (call f args).rename r = call f (args.map (rename r)) := by
  rw [rename, renameAll_eq_map]

lemma rename_ne_number {e : Expr α} (h : ∀ x, e ≠ number x) (x : α) : e.rename r ≠ number x := by
  cases e with
  | number y => exact absurd rfl (h y)
  | _ => simp

@[simp] lemma asNumber?_rename (e : Expr α) : (e.rename r).asNumber? = e.asNumber? := by
  cases e <;> simp [asNumber?]

section
variable [Scalar α]

@[simp] lemma isZero_rename (e : Expr α) : (e.rename r).isZero = e.isZero := by
  cases e <;> simp [isZero]

@[simp] lemma isOne_rename (e : Expr α) : (e.rename r).isOne = e.isOne := by
  cases e <;> simp [isOne]

mutual
theorem nonFinite?_rename (e : Expr α) : (e.rename r).nonFinite? = e.nonFinite? := by
  cases e with
  | number x | symbol s | constant c => rfl
  | sum es | product es | call f es => simpa [nonFinite?] using nonFiniteAny?_rename es
  | power b e => simp [nonFinite?, nonFinite?_rename b, nonFinite?_rename e]
theorem nonFiniteAny?_rename (es : List (Expr α)) :
    nonFiniteAny? (es.map (rename r)) = nonFiniteAny? es := by
  match es with
  | [] => rfl
  | e :: es => simp [nonFiniteAny?, nonFinite?_rename e, nonFiniteAny?_rename es]
end

end

mutual
theorem depth_rename (e : Expr α) : (e.rename r).depth = e.depth := by
  cases e with
  | number x | symbol s | constant c => rfl
  | sum es | product es => simpa [depth] using congrArg (max 1) (depthAll_rename es)
  | call f es => simp [depth]
  | power b e => simp [depth, depth_rename b, depth_rename e]
theorem depthAll_rename (es : List (Expr α)) : depthAll (es.map (rename r)) = depthAll es := by
  match es with
  | [] => rfl
  | e :: es => simp [depthAll, depth_rename e, depthAll_rename es]
end

lemma eraseFirst?_map {β γ : Type} (p : γ → Bool) (f : β → γ) (bs : List β) :
    eraseFirst? p (bs.map f) = (eraseFirst? (fun b => p (f b)) bs).map (List.map f) := by
  induction bs with
  | nil => rfl
  | cons b bs ih =>
    simp only [List.map_cons, eraseFirst?, ih]
    split_ifs
    · rfl
    · cases eraseFirst? (fun b => p (f b)) bs <;> rfl

mutual
theorem contains_rename (hr : Function.Injective r) (name : String) (e : Expr α) :
    (e.rename r).contains (r name) = e.contains name := by
  cases e with
  | number x | constant c => rfl
  | symbol s => simp [contains, hr.eq_iff]
  | sum es | product es | call f es => simpa [contains] using containsAny_rename hr name es
  | power b e => simp [contains, contains_rename hr name b, contains_rename hr name e]
theorem containsAny_rename (hr : Function.Injective r) (name : String) (es : List (Expr α)) :
    containsAny (r name) (es.map (rename r)) = containsAny name es := by
  match es with
  | [] => rfl
  | e :: es => simp [containsAny, contains_rename hr name e, containsAny_rename hr name es]
end

section
variable [Scalar α]

mutual
theorem equiv_rename (hr : Function.Injective r) (a b : Expr α) : equiv (a.rename r) (b.rename r) = equiv a b := by
  cases a with
  | number x | constant c => cases b <;> simp [equiv]
  | symbol s => cases b <;> simp [equiv, hr.eq_iff]
  | sum as =>
    cases b with
    | sum bs => simpa [equiv] using matchAll_rename hr as bs
    | _ => simp [equiv]
  | product as =>
    cases b with
    | product bs => simpa [equiv] using matchAll_rename hr as bs
    | _ => simp [equiv]
  | power a x =>
    cases b with
    | power b y => simp [equiv, equiv_rename hr a b, equiv_rename hr x y]
    | _ => simp [equiv]
  | call f as =>
    cases b with
    | call g bs => simp [equiv, equivAll_rename hr as bs]
    | _ => simp [equiv]
theorem matchAll_rename (hr : Function.Injective r) (as bs : List (Expr α)) :
    matchAll (as.map (rename r)) (bs.map (rename r)) = matchAll as bs := by
  match as with
  | [] => cases bs <;> rfl
  | a :: as =>
    have hequiv : (fun b => equiv (a.rename r) (b.rename r)) = fun b => equiv a b :=
      funext (equiv_rename hr a)
    rw [List.map_cons, matchAll, matchAll, eraseFirst?_map, hequiv]
    cases eraseFirst? (fun b => equiv a b) bs with
    | none => rfl
    | some rest => exact matchAll_rename hr as rest
theorem equivAll_rename (hr : Function.Injective r) (as bs : List (Expr α)) :
    equivAll (as.map (rename r)) (bs.map (rename r)) = equivAll as bs := by
  match as, bs with
  | [], [] | [], _ :: _ | _ :: _, [] => rfl
  | a :: as, b :: bs => simp [equivAll, equiv_rename hr a b, equivAll_rename hr as bs]
end

end

mutual
theorem terms_rename (e : Expr α) : (e.rename r).terms = e.terms.map (rename r) := by
  cases e with
  | sum ts => simpa [terms] using termsAll_rename ts
  | _ => simp [terms]
theorem termsAll_rename (es : List (Expr α)) :
    termsAll (es.map (rename r)) = (termsAll es).map (rename r) := by
  match es with
  | [] => rfl
  | e :: es => simp [termsAll, terms_rename e, termsAll_rename es]
end

mutual
theorem factors_rename (e : Expr α) : (e.rename r).factors = e.factors.map (rename r) := by
  cases e with
  | product fs => simpa [factors] using factorsAll_rename fs
  | _ => simp [factors]
theorem factorsAll_rename (es : List (Expr α)) :
    factorsAll (es.map (rename r)) = (factorsAll es).map (rename r) := by
  match es with
  | [] => rfl
  | e :: es => simp [factorsAll, factors_rename e, factorsAll_rename es]
end

lemma collapse_sum_rename (es : List (Expr α)) :
    collapse sum (es.map (rename r)) = (collapse sum es).rename r := by
  match es with
  | [] | [_] | _ :: _ :: _ => simp [collapse]

lemma collapse_product_rename (es : List (Expr α)) :
    collapse product (es.map (rename r)) = (collapse product es).rename r := by
  match es with
  | [] | [_] | _ :: _ :: _ => simp [collapse]

variable [Scalar α]

lemma splitCoefficient_rename (e : Expr α) :
    splitCoefficient (e.rename r) = (splitCoefficient e).map id (rename r) := by
  cases e with
  | product fs =>
    match fs with
    | [] => simp [splitCoefficient]
    | f :: fs =>
      cases f with
      | number c => simp [splitCoefficient, collapse_product_rename]
      | _ => simp [splitCoefficient]
  | _ => simp [splitCoefficient]

lemma collectTerm_rename (hr : Function.Injective r) (c : α) (rest : Expr α)
    (ts : List (α × Expr α)) :
    collectTerm c (rest.rename r) (ts.map (Prod.map id (rename r))) =
      (collectTerm c rest ts).map (Prod.map id (rename r)) := by
  induction ts with
  | nil => rfl
  | cons t ts ih =>
    simp only [List.map_cons, Prod.map, id, collectTerm, equiv_rename hr]
    split_ifs
    · rfl
    · rw [List.map_cons, ← ih]
      rfl

/-- Renames all terms that have been collected. -/
def Collected.rename (r : String → String) (s : Collected α) : Collected α :=
  ⟨s.constant, s.terms.map (Prod.map id (Expr.rename r))⟩

lemma Collected.insert_rename (hr : Function.Injective r) (s : Collected α) (e : Expr α) :
    (s.rename r).insert (e.rename r) = (s.insert e).rename r := by
  by_cases hnumber : ∃ x, e = Expr.number x
  · obtain ⟨x, rfl⟩ := hnumber
    rfl
  · rw [not_exists] at hnumber
    rw [insert_of_ne_number hnumber, insert_of_ne_number (rename_ne_number hnumber),
      splitCoefficient_rename]
    simp [Collected.rename, collectTerm_rename hr]

lemma collect_rename (hr : Function.Injective r) (ts : List (Expr α)) :
    collect (ts.map (rename r)) = (collect ts).rename r := by
  have hfoldl (ts : List (Expr α)) (s : Collected α) :
      (ts.map (rename r)).foldl Collected.insert (s.rename r) =
        (ts.foldl Collected.insert s).rename r := by
    induction ts generalizing s with
    | nil => rfl
    | cons t ts ih => rw [List.map_cons, List.foldl_cons, List.foldl_cons, s.insert_rename hr, ih]
  rw [collect, termsAll_rename]
  exact hfoldl (termsAll ts) ⟨Scalar.zero, []⟩

section
variable {mul : List (Expr α) → Expr α} (hmul : ∀ fs, mul (fs.map (rename r)) = (mul fs).rename r)
include hmul

lemma restoreTerm_rename (t : α × Expr α) :
    restoreTerm mul (t.map id (rename r)) = (restoreTerm mul t).map (rename r) := by
  obtain ⟨c, rest⟩ := t
  simp only [Prod.map, id, restoreTerm]
  split_ifs
  · rfl
  · rfl
  · exact congrArg some (hmul [number c, rest])

lemma addWith_rename (hr : Function.Injective r) (ts : List (Expr α)) :
    addWith mul (ts.map (rename r)) = (addWith mul ts).rename r := by
  have hkept : ((collect ts).rename r).terms.filterMap (restoreTerm mul) =
      ((collect ts).terms.filterMap (restoreTerm mul)).map (rename r) := by
    simp only [Collected.rename, List.filterMap_map, List.map_filterMap]
    exact congrArg (List.filterMap · _) (funext (restoreTerm_rename hmul))
  have hconstant : ((collect ts).rename r).constant = (collect ts).constant := rfl
  simp only [addWith, collect_rename hr, hkept, hconstant]
  generalize (collect ts).terms.filterMap (restoreTerm mul) = kept
  split_ifs
  · match kept with
    | [] => rfl
    | e :: es => exact collapse_sum_rename (e :: es)
  · exact collapse_sum_rename (number _ :: kept)

omit hmul in
lemma wholeExponent?_rename (e : Expr α) : wholeExponent? (e.rename r) = wholeExponent? e := by
  cases e <;> simp [wholeExponent?]

omit hmul in
lemma numberPower_rename (b : α) (e : Expr α) :
    numberPower b (e.rename r) = (numberPower b e).rename r := by
  cases e with
  | number x =>
    simp only [rename_number, numberPower]
    cases Scalar.whole? x with
    | none =>
      dsimp only
      split_ifs <;> rfl
    | some n =>
      dsimp only
      split
      · rfl
      · split_ifs <;> rfl
  | _ => simp [numberPower]

lemma powWith_rename (b e : Expr α) :
    powWith mul (b.rename r) (e.rename r) = (powWith mul b e).rename r := by
  fun_induction powWith mul b e with
  | case1 b e h =>
    conv_lhs => unfold powWith
    rw [isZero_rename, isOne_rename, if_pos h]
    rfl
  | case2 b e h hone =>
    conv_lhs => unfold powWith
    rw [isZero_rename, isOne_rename, isOne_rename, if_neg h, if_pos hone]
  | case3 e hone b h =>
    conv_lhs => unfold powWith
    rw [isZero_rename, isOne_rename, isOne_rename, if_neg h, if_neg hone, rename_number]
    exact numberPower_rename b e
  | case4 e hone inner x p hp h ih =>
    conv_lhs => unfold powWith
    rw [isZero_rename, isOne_rename, isOne_rename, if_neg h, if_neg hone, rename_power]
    simp only [wholeExponent?_rename, hp]
    rw [← ih]
    exact congrArg _ (hmul [x, e])
  | case5 e hone inner x hp h =>
    conv_lhs => unfold powWith
    rw [isZero_rename, isOne_rename, isOne_rename, if_neg h, if_neg hone, rename_power]
    simp only [wholeExponent?_rename, hp]
    rfl
  | case6 e hone b hnumber hpower h =>
    conv_lhs => unfold powWith
    rw [isZero_rename, isOne_rename, isOne_rename, if_neg h, if_neg hone]
    cases b with
    | number x => exact absurd rfl (hnumber x)
    | power b x => exact absurd rfl (hpower b x)
    | _ => simp

end

lemma splitPower_rename (e : Expr α) :
    splitPower (e.rename r) = (splitPower e).map (rename r) (rename r) := by
  cases e <;> simp [splitPower]

/-- Renames all powers that have been collected. -/
def Powers.rename (r : String → String) (p : Powers α) : Powers α :=
  ⟨p.coefficient, p.powers.map (Prod.map (Expr.rename r) (Expr.rename r))⟩

/-- Renames all factors that have been written down. -/
def Folded.rename (r : String → String) (f : Folded α) : Folded α :=
  ⟨f.coefficient, f.factors.map (Expr.rename r)⟩

section
variable {add : List (Expr α) → Expr α}
  (hadd : ∀ ts, add (ts.map (Expr.rename r)) = (add ts).rename r)
include hadd

lemma collectPower_rename (hr : Function.Injective r) (b e : Expr α)
    (ps : List (Expr α × Expr α)) :
    collectPower add (b.rename r) (e.rename r) (ps.map (Prod.map (rename r) (rename r))) =
      (collectPower add b e ps).map (Prod.map (rename r) (rename r)) := by
  induction ps with
  | nil => rfl
  | cons p ps ih =>
    simp only [List.map_cons, Prod.map, collectPower, equiv_rename hr]
    split_ifs
    · exact congrArg (fun x => (p.1.rename r, x) :: ps.map _) (hadd [p.2, e])
    · rw [List.map_cons, ← ih]
      rfl

lemma Powers.insert_rename (hr : Function.Injective r) (p : Powers α) (e : Expr α) :
    (p.rename r).insert add (e.rename r) = (p.insert add e).rename r := by
  by_cases hnumber : ∃ x, e = Expr.number x
  · obtain ⟨x, rfl⟩ := hnumber
    rfl
  · rw [not_exists] at hnumber
    rw [insert_of_ne_number hnumber, insert_of_ne_number (rename_ne_number hnumber),
      splitPower_rename]
    simp [Powers.rename, collectPower_rename hadd hr]

lemma collectPowers_rename (hr : Function.Injective r) (fs : List (Expr α)) :
    collectPowers add (fs.map (rename r)) = (collectPowers add fs).rename r := by
  have hfoldl (fs : List (Expr α)) (p : Powers α) :
      (fs.map (rename r)).foldl (Powers.insert add) (p.rename r) =
        (fs.foldl (Powers.insert add) p).rename r := by
    induction fs generalizing p with
    | nil => rfl
    | cons f fs ih =>
      rw [List.map_cons, List.foldl_cons, List.foldl_cons, p.insert_rename hadd hr, ih]
  rw [collectPowers, factorsAll_rename]
  exact hfoldl (factorsAll fs) ⟨Scalar.one, []⟩

end

lemma foldReciprocal?_rename (c : α) (b e : Expr α) :
    foldReciprocal? c (b.rename r) (e.rename r) = foldReciprocal? c b e := by
  cases b <;> cases e <;> simp [foldReciprocal?]

lemma Folded.push_rename {pow : Expr α → Expr α → Expr α}
    (hpow : ∀ b e, pow (b.rename r) (e.rename r) = (pow b e).rename r) (f : Folded α)
    (p : Expr α × Expr α) :
    (f.rename r).push pow (p.map (Expr.rename r) (Expr.rename r)) = (f.push pow p).rename r := by
  obtain ⟨b, e⟩ := p
  have hcoefficient : (f.rename r).coefficient = f.coefficient := rfl
  simp only [Prod.map, Folded.push, foldReciprocal?_rename, hpow, hcoefficient]
  cases foldReciprocal? f.coefficient b e with
  | some quotient => rfl
  | none =>
    dsimp only
    cases pow b e <;> simp [Folded.rename]

lemma Folded.toExpr_rename (f : Folded α) : (f.rename r).toExpr = f.toExpr.rename r := by
  obtain ⟨c, fs⟩ := f
  show Folded.toExpr ⟨c, fs.map (Expr.rename r)⟩ = _
  simp only [Folded.toExpr, List.isEmpty_map]
  split_ifs
  · rfl
  · rfl
  · exact collapse_product_rename fs
  · rw [rename_product, List.map_cons, rename_number]

lemma mulWith_rename {add : List (Expr α) → Expr α} {pow : Expr α → Expr α → Expr α}
    (hadd : ∀ ts, add (ts.map (rename r)) = (add ts).rename r)
    (hpow : ∀ b e, pow (b.rename r) (e.rename r) = (pow b e).rename r)
    (hr : Function.Injective r) (fs : List (Expr α)) :
    mulWith add pow (fs.map (rename r)) = (mulWith add pow fs).rename r := by
  have hfoldl (ps : List (Expr α × Expr α)) (f : Folded α) :
      (ps.map (Prod.map (rename r) (rename r))).foldl (Folded.push pow) (f.rename r) =
        (ps.foldl (Folded.push pow) f).rename r := by
    induction ps generalizing f with
    | nil => rfl
    | cons p ps ih => rw [List.map_cons, List.foldl_cons, List.foldl_cons, f.push_rename hpow, ih]
  have hcoefficient : ((collectPowers add fs).rename r).coefficient =
      (collectPowers add fs).coefficient := rfl
  simp only [mulWith, collectPowers_rename hadd hr, hcoefficient]
  split_ifs
  · rfl
  · rw [← Folded.toExpr_rename, ← hfoldl]
    rfl

section
variable (hr : Function.Injective r)
include hr

lemma mulAt_rename (level : Nat) (fs : List (Expr α)) :
    mulAt level (fs.map (rename r)) = (mulAt level fs).rename r := by
  induction level generalizing fs with
  | zero => simp [mulAt]
  | succ level ih => exact mulWith_rename (addWith_rename ih hr) (powWith_rename ih) hr fs

theorem mul_rename (fs : List (Expr α)) : mul (fs.map (rename r)) = (mul fs).rename r := by
  rw [mul, depthAll_rename, mulAt_rename hr]
  rfl

theorem add_rename (ts : List (Expr α)) : add (ts.map (rename r)) = (add ts).rename r := by
  rw [add, depthAll_rename]
  exact addWith_rename (mulAt_rename hr _) hr ts

theorem pow_rename (b e : Expr α) : pow (b.rename r) (e.rename r) = (pow b e).rename r := by
  rw [pow, depth_rename, depth_rename]
  exact powWith_rename (mulAt_rename hr _) b e

theorem neg_rename (e : Expr α) : neg (e.rename r) = (neg e).rename r :=
  mul_rename hr [number (-Scalar.one), e]

theorem sub_rename (a b : Expr α) : sub (a.rename r) (b.rename r) = (sub a b).rename r := by
  rw [sub, neg_rename hr]
  exact add_rename hr [a, neg b]

theorem div_rename (a b : Expr α) : div (a.rename r) (b.rename r) = (div a b).rename r := by
  have hpow := pow_rename hr b (number (-Scalar.one))
  rw [rename_number] at hpow
  rw [div, hpow]
  exact mul_rename hr [a, _]

end

lemma exactValue?_rename (f : Elementary) (e : Expr α) :
    exactValue? f (e.rename r) = exactValue? f e := by
  cases f <;> simp [exactValue?]

/-- A function is folded where the value is exact, whatever the names. -/
theorem apply_rename (f : Elementary) (args : List (Expr α)) :
    apply f (args.map (rename r)) = (apply f args).rename r := by
  match args with
  | [] | _ :: _ :: _ => simp [apply]
  | [e] =>
    simp only [List.map_cons, List.map_nil, apply, exactValue?_rename]
    cases exactValue? f e <;> simp

section
variable (hr : Function.Injective r)
include hr

lemma productTerms_rename (before fs ds : List (Expr α)) :
    productTerms (before.map (rename r)) (fs.map (rename r)) (ds.map (rename r)) =
      (productTerms before fs ds).map (rename r) := by
  induction fs generalizing before ds with
  | nil => cases ds <;> rfl
  | cons f fs ih =>
    cases ds with
    | nil => rfl
    | cons d ds =>
      have hlater := ih (before ++ [f]) ds
      have hterm := mul_rename hr (before ++ fs ++ [d])
      simp only [List.map_append, List.map_cons, List.map_nil] at hlater hterm
      simp only [List.map_cons, productTerms, isZero_rename, hlater, hterm]
      split_ifs <;> rfl

lemma square_rename (e : Expr α) : square (e.rename r) = (square e).rename r :=
  pow_rename hr e (number Scalar.two)

lemma powerRule_rename (b e db : Expr α) :
    powerRule (b.rename r) (e.rename r) (db.rename r) = (powerRule b e db).rename r := by
  have hlowered := add_rename hr [e, number (-Scalar.one)]
  simp only [List.map_cons, List.map_nil, rename_number] at hlowered
  rw [powerRule, hlowered, pow_rename hr]
  exact mul_rename hr [e, _, db]

lemma exponentialRule_rename (b e db de : Expr α) :
    exponentialRule (b.rename r) (e.rename r) (db.rename r) (de.rename r) =
      (exponentialRule b e db de).rename r := by
  have hlog : apply .log [b.rename r] = (apply .log [b]).rename r := apply_rename .log [b]
  have hlogTerm := mul_rename hr [de, apply .log [b]]
  have hinverse : pow (b.rename r) (number (-Scalar.one)) = _ := pow_rename hr b (number (-Scalar.one))
  have hratioTerm := mul_rename hr [e, db, pow b (number (-Scalar.one))]
  have hsum := add_rename hr [mul [de, apply .log [b]], mul [e, db, pow b (number (-Scalar.one))]]
  simp only [List.map_cons, List.map_nil] at hlogTerm hratioTerm hsum
  simp only [exponentialRule, hlog, hlogTerm, hinverse, hratioTerm, hsum, pow_rename hr]
  exact mul_rename hr [pow b e, _]

lemma outerDerivative_rename (f : Elementary) (e : Expr α) :
    outerDerivative f (e.rename r) = (outerDerivative f e).rename r := by
  have happly (g : Elementary) : apply g [e.rename r] = (apply g [e]).rename r := apply_rename g [e]
  have hpow (b : Expr α) (x : α) : pow (b.rename r) (number x) = (pow b (number x)).rename r :=
    pow_rename hr b (number x)
  have hsub (b : Expr α) : sub (number Scalar.one) (b.rename r) = (sub (number Scalar.one) b).rename r :=
    sub_rename hr (number Scalar.one) b
  have hadd (b : Expr α) : add [number Scalar.one, b.rename r] = (add [number Scalar.one, b]).rename r :=
    add_rename hr [number Scalar.one, b]
  cases f <;> simp only [outerDerivative, happly, hpow, hsub, hadd, neg_rename hr, square_rename hr,
    div_rename hr, rename_number]

lemma angleRule_rename (y x dy dx : Expr α) :
    angleRule (y.rename r) (x.rename r) (dy.rename r) (dx.rename r) =
      (angleRule y x dy dx).rename r := by
  have hmul (a b : Expr α) : mul [a.rename r, b.rename r] = (mul [a, b]).rename r :=
    mul_rename hr [a, b]
  have hadd (a b : Expr α) : add [a.rename r, b.rename r] = (add [a, b]).rename r :=
    add_rename hr [a, b]
  simp only [angleRule, hmul, hadd, square_rename hr, sub_rename hr, div_rename hr]

lemma chainRule_rename (f : Elementary) (args ds : List (Expr α)) :
    chainRule f (args.map (rename r)) (ds.map (rename r)) = (chainRule f args ds).rename r := by
  have hmul (x d : Expr α) : mul [outerDerivative f (x.rename r), d.rename r] =
      (mul [outerDerivative f x, d]).rename r := by
    rw [outerDerivative_rename hr]
    exact mul_rename hr [_, d]
  match args, ds with
  | [], ds => cases f <;> rfl
  | x :: xs, [] =>
    cases f with
    | atan2 => rcases xs with _ | ⟨x', _ | _⟩ <;> rfl
    | _ => rfl
  | x :: xs, d :: ds =>
    cases f with
    | atan2 =>
      match xs, ds with
      | [x'], [d'] => exact angleRule_rename hr x x' d d'
      | [], _ | [_], [] | [_], _ :: _ :: _ | _ :: _ :: _, _ => rfl
    | _ => exact hmul x d

end

mutual
theorem derivative_rename (hr : Function.Injective r) (name : String) (e : Expr α) :
    derivative (r name) (e.rename r) = (derivative name e).rename r := by
  cases e with
  | number x | constant c => rfl
  | symbol s =>
    have hsame : (r s == r name) = (s == name) := by
      rw [Bool.eq_iff_iff, beq_iff_eq, beq_iff_eq, hr.eq_iff]
    rw [rename_symbol, derivative, derivative, hsame, rename_number]
  | sum ts =>
    rw [rename_sum, derivative, derivative, containsAny_rename hr, derivativeAll_rename hr name ts]
    split_ifs
    · exact add_rename hr _
    · rfl
  | product fs =>
    have hterms := productTerms_rename hr [] fs (derivativeAll name fs)
    rw [List.map_nil] at hterms
    rw [rename_product, derivative, derivative, containsAny_rename hr,
      derivativeAll_rename hr name fs, hterms]
    split_ifs
    · exact add_rename hr _
    · rfl
  | power b e =>
    rw [rename_power, derivative, derivative, contains_rename hr, contains_rename hr,
      derivative_rename hr name b, derivative_rename hr name e]
    split_ifs
    · exact exponentialRule_rename hr b e _ _
    · exact powerRule_rename hr b e _
    · rfl
  | call f args =>
    rw [rename_call, derivative, derivative, containsAny_rename hr,
      derivativeAll_rename hr name args]
    split_ifs
    · exact chainRule_rename hr f args _
    · rfl
theorem derivativeAll_rename (hr : Function.Injective r) (name : String) (es : List (Expr α)) :
    derivativeAll (r name) (es.map (rename r)) = (derivativeAll name es).map (rename r) := by
  match es with
  | [] => rfl
  | e :: es =>
    rw [List.map_cons, derivativeAll, derivativeAll, derivative_rename hr name e,
      derivativeAll_rename hr name es, List.map_cons]
end

mutual
theorem substitute_rename (hr : Function.Injective r) (name : String) (replacement e : Expr α) :
    (e.rename r).substitute (r name) (replacement.rename r) =
      (e.substitute name replacement).rename r := by
  cases e with
  | number x | constant c => rfl
  | symbol s =>
    have hsame : (r s == r name) = (s == name) := by
      rw [Bool.eq_iff_iff, beq_iff_eq, beq_iff_eq, hr.eq_iff]
    rw [rename_symbol, substitute, substitute, hsame]
    split_ifs <;> rfl
  | sum ts =>
    rw [rename_sum, substitute, substitute, containsAny_rename hr,
      substituteAll_rename hr name replacement ts, add_rename hr]
    split_ifs
    · rfl
    · rw [rename_sum]
  | product fs =>
    rw [rename_product, substitute, substitute, containsAny_rename hr,
      substituteAll_rename hr name replacement fs, mul_rename hr]
    split_ifs
    · rfl
    · rw [rename_product]
  | power b e =>
    rw [rename_power, substitute, substitute, contains_rename hr, contains_rename hr,
      substitute_rename hr name replacement b, substitute_rename hr name replacement e,
      pow_rename hr]
    split_ifs <;> rfl
  | call f args =>
    rw [rename_call, substitute, substitute, containsAny_rename hr,
      substituteAll_rename hr name replacement args, apply_rename]
    split_ifs
    · rfl
    · rw [rename_call]
theorem substituteAll_rename (hr : Function.Injective r) (name : String) (replacement : Expr α)
    (es : List (Expr α)) :
    substituteAll (es.map (rename r)) (r name) (replacement.rename r) =
      (substituteAll es name replacement).map (rename r) := by
  match es with
  | [] => rfl
  | e :: es =>
    rw [List.map_cons, substituteAll, substituteAll, substitute_rename hr name replacement e,
      substituteAll_rename hr name replacement es, List.map_cons]
end

end EquationCompiler.Expr
