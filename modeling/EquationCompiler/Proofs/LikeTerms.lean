import EquationCompiler.Proofs.NormalConstructors
import EquationCompiler.Proofs.Reordering

/-!
# Like terms in another order

A sum keeps the first of its like terms as their representative and adds up the
coefficients. Which of them comes first only matters for a division by a number that the
term contains, because the coefficient absorbs divisions one after the other. Two sums
whose numbers and like terms add up to the same amounts are equal up to order, if like
terms list their divisions by numbers in the same order.
-/
namespace EquationCompiler

/-- Scalars that each stand for a real number of their own, and that are added and multiplied as
these are. -/
class FaithfulScalar (α : Type) [Scalar α] [RealValued α] : Prop where
  injective : Function.Injective (toReal : α → ℝ)
  real_add (x y : α) : toReal (x + y) = toReal x + toReal y
  real_mul (x y : α) : toReal (x * y) = toReal x * toReal y
  real_zero : toReal (Scalar.zero : α) = 0
  real_one : toReal (Scalar.one : α) = 1
  same_iff (x y : α) : Scalar.same x y = true ↔ x = y

namespace FaithfulScalar
variable {α : Type} [Scalar α] [RealValued α] [FaithfulScalar α]

attribute [simp] real_add real_mul real_zero real_one

@[simp] theorem isZero_iff (x : α) : Scalar.isZero x = true ↔ toReal x = 0 := by
  rw [Scalar.isZero, same_iff, ← injective.eq_iff, real_zero]

@[simp] theorem isOne_iff (x : α) : Scalar.isOne x = true ↔ x = Scalar.one := same_iff _ _

theorem one_mul (x : α) : Scalar.one * x = x := injective (by simp)

theorem mul_one (x : α) : x * Scalar.one = x := injective (by simp)

end FaithfulScalar

instance {α : Type} [Scalar α] [RealValued α] [FaithfulScalar α] : ComparableScalar α where
  same_symm h := by
    rw [FaithfulScalar.same_iff] at h ⊢
    exact h.symm
  same_trans hxy hyz := by
    rw [FaithfulScalar.same_iff] at hxy hyz ⊢
    exact hxy.trans hyz

instance {α : Type} [Scalar α] [RealValued α] [FaithfulScalar α] : UnitScalar α where
  isOne_one := by simp
  isZero_one := by simp [← Bool.not_eq_true]

namespace Expr
variable {α : Type}

/-- If every element of each list has one with an equivalent key in the other, and related to it,
the lists are related after a permutation. -/
theorem exists_matching [Scalar α] [ComparableScalar α] {γ : Type} (key : γ → Expr α)
    (R : γ → γ → Prop) {as bs : List γ}
    (has : as.Pairwise fun a b => equiv (key a) (key b) = false)
    (hbs : bs.Pairwise fun a b => equiv (key a) (key b) = false)
    (hfind : ∀ a ∈ as, ∃ b ∈ bs, equiv (key a) (key b) = true ∧ R a b)
    (hcover : ∀ b ∈ bs, ∃ a ∈ as, equiv (key a) (key b) = true) :
    ∃ cs, List.Forall₂ R as cs ∧ cs.Perm bs := by
  induction as generalizing bs with
  | nil =>
    cases bs with
    | nil => exact ⟨[], .nil, .refl _⟩
    | cons b bs =>
      obtain ⟨a, ha, -⟩ := hcover b List.mem_cons_self
      cases ha
  | cons a as ih =>
    rw [List.pairwise_cons] at has
    rw [List.forall_mem_cons] at hfind
    obtain ⟨⟨b, hb, hab, hR⟩, hfind⟩ := hfind
    obtain ⟨before, after, rfl⟩ := List.append_of_mem hb
    have hperm : (before ++ b :: after).Perm (b :: (before ++ after)) := List.perm_middle
    have hunlike := (hperm.pairwise_iff fun {a b} hab => by rwa [equiv_comm]).mp hbs
    rw [List.pairwise_cons] at hunlike
    -- The elements left on both sides still find one another.
    have hfind' : ∀ a' ∈ as, ∃ b' ∈ before ++ after, equiv (key a') (key b') = true ∧ R a' b' := by
      intro a' ha'
      obtain ⟨b', hb', hab', hR'⟩ := hfind a' ha'
      refine ⟨b', (List.mem_cons.mp (hperm.subset hb')).resolve_left ?_, hab', hR'⟩
      rintro rfl
      have hlike : equiv (key a) (key a') = true := equiv_trans hab (equiv_symm hab')
      simp [has.1 a' ha'] at hlike
    have hcover' : ∀ b' ∈ before ++ after, ∃ a' ∈ as, equiv (key a') (key b') = true := by
      intro b' hb'
      obtain ⟨a', ha', hab'⟩ := hcover b' (hperm.symm.subset (List.mem_cons_of_mem b hb'))
      refine ⟨a', (List.mem_cons.mp ha').resolve_left ?_, hab'⟩
      rintro rfl
      have hlike : equiv (key b) (key b') = true := equiv_trans (equiv_symm hab) hab'
      simp [hunlike.1 b' hb'] at hlike
    obtain ⟨cs, hcs, hrest⟩ := ih has.2 hunlike.2 hfind' hcover'
    exact ⟨b :: cs, .cons hR hcs, (hrest.cons b).trans hperm.symm⟩

section
variable [Scalar α]

lemma Pairs.length_eq {as bs : List (Expr α)} (h : Pairs as bs) : as.length = bs.length := by
  obtain ⟨cs, hcs, hperm⟩ := h
  rw [hcs.length_eq, hperm.length_eq]

lemma Pairs.cons {as bs : List (Expr α)} {a b : Expr α} (hab : equiv a b = true)
    (h : Pairs as bs) : Pairs (a :: as) (b :: bs) := by
  obtain ⟨cs, hcs, hperm⟩ := h
  exact ⟨b :: cs, .cons hab hcs, hperm.cons b⟩

lemma Pairs.perm {as as' bs bs' : List (Expr α)} (h : Pairs as bs) (has : as'.Perm as)
    (hbs : bs'.Perm bs) : Pairs as' bs' := by
  obtain ⟨cs, hcs, hperm⟩ := h
  obtain ⟨ds, hds, hperm'⟩ := List.perm_comp_forall₂ has hcs
  exact ⟨ds, hds, (hperm'.trans hperm).trans hbs.symm⟩

lemma Pairs.filter {as bs : List (Expr α)} {p : Expr α → Bool}
    (hp : ∀ a b, equiv a b = true → (p a = true ↔ p b = true)) (h : Pairs as bs) :
    Pairs (as.filter p) (bs.filter p) := by
  obtain ⟨cs, hcs, hperm⟩ := h
  exact ⟨cs.filter p, List.rel_filter (fun a b hab => hp a b hab) hcs, hperm.filter p⟩

/-- A list of one element stands for itself, any other is wrapped. -/
lemma Pairs.equiv_collapse {wrap : List (Expr α) → Expr α}
    (hwrap : ∀ as bs, Pairs as bs → equiv (wrap as) (wrap bs) = true) {as bs : List (Expr α)}
    (h : Pairs as bs) : equiv (collapse wrap as) (collapse wrap bs) = true := by
  have hlength := h.length_eq
  match as, bs with
  | [a], [b] =>
    obtain ⟨cs, hcs, hperm⟩ := h
    obtain rfl := List.perm_singleton.mp hperm
    exact (List.forall₂_cons.mp hcs).1
  | [], [] | _ :: _ :: _, _ :: _ :: _ => exact hwrap _ _ h

variable [ComparableScalar α]

lemma equiv_sum {as bs : List (Expr α)} (h : Pairs as bs) : equiv (sum as) (sum bs) = true :=
  matchAll_of_pairs (steady_of_mem as) h

lemma equiv_product {as bs : List (Expr α)} (h : Pairs as bs) :
    equiv (product as) (product bs) = true :=
  matchAll_of_pairs (steady_of_mem as) h

end

section
variable [Scalar α] [RealValued α]

/-- The coefficient of a term that is like `rest`. -/
noncomputable def share (rest : Expr α) (t : α × Expr α) : ℝ :=
  if equiv t.2 rest then toReal t.1 else 0

/-- What a term contributes to the numeric part of a sum, or to the coefficient of the terms that
are like a given one. -/
noncomputable def amount (kind : Option (Expr α)) (t : Expr α) : ℝ :=
  match t.asNumber?, kind with
  | some x, none => toReal x
  | none, some rest => share rest (splitCoefficient t)
  | _, _ => 0

/-- What has been collected. -/
noncomputable def Collected.amount (s : Collected α) : Option (Expr α) → ℝ
  | none => toReal s.constant
  | some rest => (s.terms.map (share rest)).sum

lemma amount_of_isNumber {t : Expr α} (h : t.isNumber = false) (kind : Option (Expr α)) :
    amount kind t = kind.elim 0 fun rest => share rest (splitCoefficient t) := by
  cases t with
  | number x => cases h
  | _ => cases kind <;> rfl

lemma share_of_unlike {rest : Expr α} {t : α × Expr α} (h : equiv t.2 rest = false) :
    share rest t = 0 := by simp [share, h]

lemma exists_like_of_sum_ne_zero {ts : List (α × Expr α)} {rest : Expr α}
    (h : (ts.map (share rest)).sum ≠ 0) : ∃ t ∈ ts, equiv t.2 rest = true := by
  by_contra hnone
  push Not at hnone
  refine h (List.sum_eq_zero fun x hx => ?_)
  obtain ⟨t, ht, rfl⟩ := List.mem_map.mp hx
  exact share_of_unlike (by simpa using hnone t ht)

variable [FaithfulScalar α]

lemma equiv_rfl (e : Expr α) : equiv e e = true :=
  equiv_self fun x _ => (FaithfulScalar.same_iff x x).mpr rfl

lemma Pairs.append_left {as bs : List (Expr α)} (h : Pairs as bs) (cs : List (Expr α)) :
    Pairs (cs ++ as) (cs ++ bs) := by
  induction cs with
  | nil => exact h
  | cons c cs ih => exact ih.cons (equiv_rfl c)

lemma share_congr {t : α × Expr α} {rest rest' : Expr α} (h : equiv rest rest' = true) :
    share rest t = share rest' t := by
  rw [share, share, equiv_comm t.2, steady _ _ h t.2, equiv_comm rest']

lemma sum_collectTerm (c : α) (e rest : Expr α) (ts : List (α × Expr α)) :
    ((collectTerm c e ts).map (share rest)).sum =
      (ts.map (share rest)).sum + share rest (c, e) := by
  induction ts with
  | nil => simp [collectTerm]
  | cons t ts ih =>
    obtain ⟨k, r⟩ := t
    simp only [collectTerm]
    split_ifs with hlike
    · have hsame : equiv r rest = equiv e rest := steady _ _ hlike rest
      simp only [List.map_cons, List.sum_cons, share, hsame]
      split_ifs
      · rw [FaithfulScalar.real_add]
        ring
      · ring
    · rw [List.map_cons, List.sum_cons, ih, List.map_cons, List.sum_cons, add_assoc]

lemma Collected.amount_insert (s : Collected α) (t : Expr α) (kind : Option (Expr α)) :
    (s.insert t).amount kind = s.amount kind + Expr.amount kind t := by
  by_cases hnumber : t.isNumber
  · cases t with
    | number x => cases kind <;> simp [insert, Collected.amount, Expr.amount]
    | _ => cases hnumber
  · rw [Bool.not_eq_true] at hnumber
    rw [Collected.insert_of_ne_number (isNumber_eq_false.mp hnumber), amount_of_isNumber hnumber]
    cases kind with
    | none => simp [Collected.amount]
    | some rest => exact sum_collectTerm _ _ rest s.terms

/-- Collecting keeps all amounts. -/
theorem amount_collect (ts : List (Expr α)) (kind : Option (Expr α)) :
    (collect ts).amount kind = ((termsAll ts).map (amount kind)).sum := by
  have hfold (ts : List (Expr α)) (s : Collected α) :
      (ts.foldl Collected.insert s).amount kind =
        s.amount kind + (ts.map (amount kind)).sum := by
    induction ts generalizing s with
    | nil => simp
    | cons t ts ih =>
      rw [List.foldl_cons, ih, s.amount_insert, List.map_cons, List.sum_cons, add_assoc]
  have hstart : Collected.amount (⟨Scalar.zero, []⟩ : Collected α) kind = 0 := by
    cases kind <;> simp [Collected.amount]
  rw [collect, hfold, hstart, zero_add]

/-- Where terms are unlike, the amount of a term is its coefficient. -/
lemma sum_share_of_mem {ts : List (α × Expr α)}
    (hunlike : ts.Pairwise fun s t => equiv s.2 t.2 = false) {t : α × Expr α} (ht : t ∈ ts) :
    (ts.map (share t.2)).sum = toReal t.1 := by
  induction ts with
  | nil => cases ht
  | cons u ts ih =>
    rw [List.pairwise_cons] at hunlike
    rw [List.map_cons, List.sum_cons]
    rcases List.mem_cons.mp ht with rfl | ht
    · have hothers : (ts.map (share t.2)).sum = 0 := List.sum_eq_zero fun x hx => by
        obtain ⟨v, hv, rfl⟩ := List.mem_map.mp hx
        exact share_of_unlike (by rw [equiv_comm, hunlike.1 v hv])
      rw [hothers, add_zero, share, if_pos (equiv_rfl t.2)]
    · rw [ih hunlike.2 ht, share_of_unlike (hunlike.1 t ht), zero_add]

/-- What a term with a coefficient other than zero is put back as. -/
def restored (t : α × Expr α) : Expr α :=
  if Scalar.isOne t.1 then t.2 else mul [number t.1, t.2]

omit [RealValued α] [FaithfulScalar α] in
lemma filterMap_restoreTerm_eq_map (ts : List (α × Expr α)) :
    ts.filterMap (restoreTerm mul) =
      (ts.filter fun t => !Scalar.isZero t.1).map restored := by
  induction ts with
  | nil => rfl
  | cons t ts ih =>
    cases hzero : Scalar.isZero t.1 with
    | true => simp [restoreTerm, hzero, ih]
    | false => cases hone : Scalar.isOne t.1 <;> simp [restoreTerm, restored, hzero, hone, ih]

/-- The terms of a sum of `ts`. -/
def summands (ts : List (Expr α)) : List (Expr α) :=
  let s := collect ts
  let kept := (s.terms.filter fun t => !Scalar.isZero t.1).map restored
  if Scalar.isZero s.constant then kept else number s.constant :: kept

omit [RealValued α] [FaithfulScalar α] in
lemma add_eq_summands [UnitScalar α] (ts : List (Expr α)) :
    add ts = if (summands ts).isEmpty then number Scalar.zero else collapse sum (summands ts) := by
  rw [add_eq UnitScalar.isOne_one]
  simp only [addWith, filterMap_restoreTerm_eq_map]
  split
  · next hempty =>
    have hsummands : summands ts = [] := hempty
    rw [hsummands]
    rfl
  · next hsome =>
    have hsummands : (summands ts).isEmpty = false := List.isEmpty_eq_false_iff.mpr hsome
    rw [hsummands]
    rfl

/-- A term that is put back has a like term with the same coefficient wherever the amounts are the
same. -/
lemma exists_same_amount {ts us : List (α × Expr α)}
    (hts : ts.Pairwise fun s t => equiv s.2 t.2 = false)
    (hus : us.Pairwise fun s t => equiv s.2 t.2 = false)
    (hsum : ∀ rest, (ts.map (share rest)).sum = (us.map (share rest)).sum) {t : α × Expr α}
    (ht : t ∈ ts.filter fun t => !Scalar.isZero t.1) :
    ∃ u ∈ us.filter fun u => !Scalar.isZero u.1, equiv t.2 u.2 = true ∧ t.1 = u.1 := by
  obtain ⟨hmem, hzero⟩ := List.mem_filter.mp ht
  have hamount : (us.map (share t.2)).sum = toReal t.1 := by rw [← hsum, sum_share_of_mem hts hmem]
  have hnonzero : toReal t.1 ≠ 0 := by simpa [← Bool.not_eq_true] using hzero
  obtain ⟨u, hu, hlike⟩ := exists_like_of_sum_ne_zero (hamount ▸ hnonzero)
  have hsame : t.1 = u.1 := FaithfulScalar.injective <| by
    have hcongr : us.map (share t.2) = us.map (share u.2) :=
      List.map_congr_left fun _ _ => share_congr (equiv_symm hlike)
    rw [← hamount, hcongr, sum_share_of_mem hus hu]
  exact ⟨u, List.mem_filter.mpr ⟨hu, hsame ▸ hzero⟩, equiv_symm hlike, hsame⟩

/-- Sums with the same amounts have equal summands up to order, if like terms with the same
coefficient are put back alike. -/
lemma pairs_summands {ts us : List (Expr α)} (hts : ∀ t ∈ ts, Normal t) (hus : ∀ t ∈ us, Normal t)
    (hamount : ∀ kind,
      ((termsAll ts).map (amount kind)).sum = ((termsAll us).map (amount kind)).sum)
    (hrestored : ∀ t ∈ (collect ts).terms, ∀ u ∈ (collect us).terms, t.1 = u.1 →
      equiv t.2 u.2 = true → equiv (restored t) (restored u) = true) :
    Pairs (summands ts) (summands us) := by
  have hsame (kind : Option (Expr α)) : (collect ts).amount kind = (collect us).amount kind := by
    rw [amount_collect, amount_collect, hamount]
  have hconstant : (collect ts).constant = (collect us).constant :=
    FaithfulScalar.injective (hsame none)
  have htsUnlike := (collect_unlike hts).2
  have husUnlike := (collect_unlike hus).2
  obtain ⟨cs, hcs, hperm⟩ := exists_matching Prod.snd
    (fun t u => equiv (restored t) (restored u) = true)
    (htsUnlike.filter fun t => !Scalar.isZero t.1) (husUnlike.filter fun t => !Scalar.isZero t.1)
    (fun t ht => by
      obtain ⟨u, hu, hlike, hcoefficient⟩ :=
        exists_same_amount htsUnlike husUnlike (fun rest => hsame (some rest)) ht
      exact ⟨u, hu, hlike, hrestored t (List.mem_of_mem_filter ht) u (List.mem_of_mem_filter hu)
        hcoefficient hlike⟩)
    (fun u hu => by
      obtain ⟨t, ht, hlike, -⟩ :=
        exists_same_amount husUnlike htsUnlike (fun rest => (hsame (some rest)).symm) hu
      exact ⟨t, ht, equiv_symm hlike⟩)
  have hkept : Pairs (((collect ts).terms.filter fun t => !Scalar.isZero t.1).map restored)
      (((collect us).terms.filter fun t => !Scalar.isZero t.1).map restored) :=
    ⟨cs.map restored, List.forall₂_map_left_iff.mpr (List.forall₂_map_right_iff.mpr hcs),
      hperm.map restored⟩
  simp only [summands, hconstant]
  split_ifs
  · exact hkept
  · exact hkept.cons (equiv_rfl _)

/-- Sums with the same amounts are equal up to order, if like terms with the same coefficient are
put back alike. -/
theorem equiv_add {ts us : List (Expr α)} (hts : ∀ t ∈ ts, Normal t) (hus : ∀ t ∈ us, Normal t)
    (hamount : ∀ kind,
      ((termsAll ts).map (amount kind)).sum = ((termsAll us).map (amount kind)).sum)
    (hrestored : ∀ t ∈ (collect ts).terms, ∀ u ∈ (collect us).terms, t.1 = u.1 →
      equiv t.2 u.2 = true → equiv (restored t) (restored u) = true) :
    equiv (add ts) (add us) = true := by
  have hpairs := pairs_summands hts hus hamount hrestored
  have hempty : (summands ts).isEmpty = (summands us).isEmpty := by
    rw [Bool.eq_iff_iff, List.isEmpty_iff_length_eq_zero, List.isEmpty_iff_length_eq_zero,
      hpairs.length_eq]
  rw [add_eq_summands, add_eq_summands, hempty]
  split_ifs
  · exact equiv_rfl _
  · exact hpairs.equiv_collapse fun _ _ => equiv_sum

end

end Expr
end EquationCompiler
