import EquationCompiler.Number.Machine
import EquationCompiler.Proofs.EquivalenceValue
import Mathlib

/-!
# Equality up to order is reordering

One expression is turned into another by moving terms and factors around, one sum or
product at a time and at any depth, and by replacing numbers by equal ones. Equality up to
order holds between just these expressions, unless a number occurs that equals nothing.

The matching of terms commits itself to the first candidate and never takes it back. It
loses nothing by this because candidates are interchangeable: what is equal up to order to
one of them is so to the other. This in turn is known for a sum only once the matching of
its terms is known to be complete, so both are proved together along the expression.
-/
namespace EquationCompiler

/-- Scalars whose comparison is symmetric and transitive. A value that is not a number may still
differ from itself. -/
class ComparableScalar (α : Type) [Scalar α] : Prop where
  same_symm {x y : α} (h : Scalar.same x y = true) : Scalar.same y x = true
  same_trans {x y z : α} (hxy : Scalar.same x y = true) (hyz : Scalar.same y z = true) :
    Scalar.same x z = true

instance {α : Type} [ExactScalar α] : ComparableScalar α where
  same_symm h := (ExactScalar.same_iff _ _).mpr ((ExactScalar.same_iff _ _).mp h).symm
  same_trans hxy hyz := (ExactScalar.same_iff _ _).mpr
    (((ExactScalar.same_iff _ _).mp hxy).trans ((ExactScalar.same_iff _ _).mp hyz))

namespace Binary64
open Float.Model (UnpackedFloat)

/-- Two machine numbers are equal if both are zero, or if they are the same and not undefined. -/
lemma beq_iff {u v : UnpackedFloat} :
    u.beq v = true ↔
      (u = v ∧ u ≠ .notANumber) ∨ ∃ s t, u = .zero s ∧ v = .zero t := by
  rcases u with (_ | _) | _ | _ | ⟨_ | _, m, e, hm⟩ <;>
    rcases v with (_ | _) | _ | _ | ⟨_ | _, n, f, hn⟩ <;>
    simp [UnpackedFloat.beq, UnpackedFloat.compare, Ordering.then_eq_eq]
  case infinity.negative.infinity.negative | infinity.positive.infinity.positive => rfl
  case finite.negative.finite.negative | finite.positive.finite.positive => exact and_comm

lemma same_iff {x y : Float} :
    Scalar.same x y = true ↔
      (x.toModel.unpack = y.toModel.unpack ∧ x.toModel.unpack ≠ .notANumber) ∨
        ∃ s t, x.toModel.unpack = .zero s ∧ y.toModel.unpack = .zero t :=
  beq_iff

lemma same_self {x : Float} : Scalar.same x x = true ↔ x.isNaN = false := by
  rw [same_iff]
  show _ ↔ x.toModel.unpack.isNaN = false
  cases x.toModel.unpack <;> simp [UnpackedFloat.isNaN]

end Binary64

instance : ComparableScalar Float where
  same_symm h := by
    rw [Binary64.same_iff] at h ⊢
    obtain ⟨hxy, hx⟩ | ⟨s, t, hx, hy⟩ := h
    · exact .inl ⟨hxy.symm, hxy ▸ hx⟩
    · exact .inr ⟨t, s, hy, hx⟩
  same_trans hxy hyz := by
    rw [Binary64.same_iff] at hxy hyz ⊢
    obtain ⟨hxy, hx⟩ | ⟨s, t, hx, hy⟩ := hxy
    · rwa [hxy]
    · obtain ⟨hyz, -⟩ | ⟨-, u, -, hz⟩ := hyz
      · exact .inr ⟨s, t, hx, hyz.symm.trans hy⟩
      · exact .inr ⟨s, u, hx, hz⟩

theorem exists_eraseFirst? {β : Type} {p : β → Bool} {bs : List β} {b : β} (hmem : b ∈ bs)
    (hb : p b = true) : ∃ cs, eraseFirst? p bs = some cs := by
  induction bs with
  | nil => cases hmem
  | cons a bs ih =>
    simp only [eraseFirst?]
    split_ifs with ha
    · exact ⟨bs, rfl⟩
    · have htail : b ∈ bs := (List.mem_cons.mp hmem).resolve_left (by rintro rfl; exact ha hb)
      obtain ⟨cs, hcs⟩ := ih htail
      exact ⟨a :: cs, by rw [hcs]; rfl⟩

namespace Expr
open scoped List
variable {α : Type} [Scalar α]

/-- The expressions of the lists can be paired so that those of each pair are equal up to order. -/
def Pairs (as bs : List (Expr α)) : Prop :=
  ∃ cs, List.Forall₂ (fun a c => equiv a c = true) as cs ∧ cs.Perm bs

theorem pairs_of_matchAll {as bs : List (Expr α)} (h : matchAll as bs = true) : Pairs as bs := by
  induction as generalizing bs with
  | nil =>
    obtain rfl : bs = [] := by simpa [matchAll] using h
    exact ⟨[], .nil, .refl _⟩
  | cons a as ih =>
    simp only [matchAll] at h
    cases he : eraseFirst? (fun b => equiv a b) bs with
    | none => simp [he] at h
    | some rest =>
      obtain ⟨b, hb, hperm⟩ := eraseFirst?_perm he
      simp only [he] at h
      obtain ⟨cs, hcs, hrest⟩ := ih h
      exact ⟨b :: cs, .cons hb hcs, (hrest.cons b).trans hperm.symm⟩

theorem equivAll_iff {as bs : List (Expr α)} :
    equivAll as bs = true ↔ List.Forall₂ (fun a b => equiv a b = true) as bs := by
  induction as generalizing bs with
  | nil => cases bs <;> simp [equivAll]
  | cons a as ih => cases bs <;> simp [equivAll, ih]

/-- Whatever is equal up to order to the expression can stand for it. -/
def Steady (a : Expr α) : Prop := ∀ b, equiv a b = true → ∀ c, equiv a c = equiv b c

omit [Scalar α] in
lemma forall₂_replace {R : Expr α → Expr α → Prop} {as before after : List (Expr α)} {b c : Expr α}
    (hR : ∀ a ∈ as, R a b → R a c) (h : List.Forall₂ R as (before ++ b :: after)) :
    List.Forall₂ R as (before ++ c :: after) := by
  induction before generalizing as with
  | nil =>
    cases h with
    | cons hab hrest => exact .cons (hR _ List.mem_cons_self hab) hrest
  | cons d before ih =>
    cases h with
    | cons had hrest => exact .cons had (ih (fun a ha => hR a (List.mem_cons_of_mem _ ha)) hrest)

/-- The greedy matching finds a pairing if there is one. -/
theorem matchAll_of_pairs {as bs : List (Expr α)} (hsteady : ∀ a ∈ as, a.Steady)
    (h : Pairs as bs) : matchAll as bs = true := by
  induction as generalizing bs with
  | nil =>
    obtain ⟨cs, hcs, hperm⟩ := h
    cases hcs
    simp [hperm.symm.eq_nil, matchAll]
  | cons a as ih =>
    rw [List.forall_mem_cons] at hsteady
    obtain ⟨_, hcs, hperm⟩ := h
    obtain ⟨c, cs, hac, htail, rfl⟩ := List.forall₂_cons_left_iff.mp hcs
    obtain ⟨rest, hrest⟩ := exists_eraseFirst? (p := fun b => equiv a b)
      (hperm.subset List.mem_cons_self) hac
    obtain ⟨b, hab, hbs⟩ := eraseFirst?_perm hrest
    simp only [matchAll, hrest]
    refine ih hsteady.2 ?_
    have hleft : (c :: cs).Perm (b :: rest) := hperm.trans hbs
    -- the pairing may give `a` another partner than the first candidate `b`
    rcases List.mem_cons.mp (hleft.symm.subset List.mem_cons_self) with rfl | hb
    · exact ⟨cs, htail, hleft.cons_inv⟩
    · obtain ⟨before, after, rfl⟩ := List.append_of_mem hb
      have hbc : equiv b c = true := (hsteady.1 b hab c).symm.trans hac
      have hexchanged : List.Forall₂ (fun a c => equiv a c = true) as (before ++ c :: after) :=
        forall₂_replace (fun a' ha' hb' => (hsteady.2 a' ha' b hb' c).trans hbc) htail
      refine ⟨_, hexchanged, List.Perm.cons_inv (a := b) (.trans ?_ hleft)⟩
      calc b :: (before ++ c :: after)
        _ ~ b :: c :: (before ++ after) := List.perm_middle.cons b
        _ ~ c :: b :: (before ++ after) := .swap c b _
        _ ~ c :: (before ++ b :: after) := List.perm_middle.symm.cons c

theorem matchAll_iff {as bs : List (Expr α)} (hsteady : ∀ a ∈ as, a.Steady) :
    matchAll as bs = true ↔ Pairs as bs :=
  ⟨pairs_of_matchAll, matchAll_of_pairs hsteady⟩

theorem Steady.of_equiv {a b : Expr α} (ha : a.Steady) (h : equiv a b = true) : b.Steady :=
  fun c hbc d => by
    rw [← ha b h d]
    exact ha c ((ha b h c).trans hbc) d

lemma forall₂_equiv_congr {as bs cs : List (Expr α)} (hsteady : ∀ a ∈ as, a.Steady)
    (h : List.Forall₂ (fun a b => equiv a b = true) as bs) :
    List.Forall₂ (fun a c => equiv a c = true) as cs ↔
      List.Forall₂ (fun b c => equiv b c = true) bs cs := by
  induction h generalizing cs with
  | nil => exact Iff.rfl
  | cons hab hrest ih =>
    rw [List.forall_mem_cons] at hsteady
    cases cs with
    | nil => simp
    | cons c cs => rw [List.forall₂_cons, List.forall₂_cons, hsteady.1 _ hab, ih hsteady.2]

/-- Lists that can be paired can be paired with the same lists. -/
theorem Pairs.congr {as bs : List (Expr α)} (hsteady : ∀ a ∈ as, a.Steady) (h : Pairs as bs)
    (cs : List (Expr α)) : Pairs as cs ↔ Pairs bs cs := by
  obtain ⟨bs', hbs', hperm⟩ := h
  constructor
  · rintro ⟨cs', hcs', hcs⟩
    obtain ⟨ds, hds, hperm'⟩ :=
      List.perm_comp_forall₂ hperm.symm ((forall₂_equiv_congr hsteady hbs').mp hcs')
    exact ⟨ds, hds, hperm'.trans hcs⟩
  · rintro ⟨cs', hcs', hcs⟩
    obtain ⟨ds, hds, hperm'⟩ := List.perm_comp_forall₂ hperm hcs'
    exact ⟨ds, (forall₂_equiv_congr hsteady hbs').mpr hds, hperm'.trans hcs⟩

lemma Pairs.steady {as bs : List (Expr α)} (hsteady : ∀ a ∈ as, a.Steady) (h : Pairs as bs) :
    ∀ b ∈ bs, b.Steady := by
  obtain ⟨cs, hcs, hperm⟩ := h
  intro b hb
  obtain ⟨i, hi, rfl⟩ := List.getElem_of_mem (hperm.symm.subset hb)
  obtain ⟨hlen, hget⟩ := List.forall₂_iff_get.mp hcs
  exact (hsteady _ (List.getElem_mem (hlen ▸ hi))).of_equiv (hget i (hlen ▸ hi) hi)

lemma matchAll_congr {as bs : List (Expr α)} (hsteady : ∀ a ∈ as, a.Steady)
    (h : matchAll as bs = true) (cs : List (Expr α)) : matchAll as cs = matchAll bs cs := by
  have hpairs := pairs_of_matchAll h
  rw [Bool.eq_iff_iff, matchAll_iff hsteady, matchAll_iff (hpairs.steady hsteady)]
  exact hpairs.congr hsteady cs

mutual
theorem steady [ComparableScalar α] (a : Expr α) : a.Steady := by
  intro b h c
  match a, b with
  | number x, number y =>
    cases c with
    | number z =>
      rw [equiv] at h
      rw [equiv, equiv, Bool.eq_iff_iff]
      exact ⟨ComparableScalar.same_trans (ComparableScalar.same_symm h),
        ComparableScalar.same_trans h⟩
    | _ => rfl
  | symbol s, symbol t =>
    obtain rfl : s = t := by simpa [equiv] using h
    rfl
  | constant k, constant l =>
    obtain rfl : k = l := by simpa [equiv] using h
    rfl
  | sum as, sum bs =>
    cases c with
    | sum cs => exact matchAll_congr (steady_of_mem as) h cs
    | _ => rfl
  | product as, product bs =>
    cases c with
    | product cs => exact matchAll_congr (steady_of_mem as) h cs
    | _ => rfl
  | power a x, power b y =>
    cases c with
    | power c z =>
      rw [equiv, Bool.and_eq_true] at h
      rw [equiv, equiv, steady a b h.1, steady x y h.2]
    | _ => rfl
  | call f as, call g bs =>
    cases c with
    | call k cs =>
      rw [equiv, Bool.and_eq_true, beq_iff_eq, equivAll_iff] at h
      rw [equiv, equiv, h.1, Bool.eq_iff_iff, Bool.and_eq_true, Bool.and_eq_true, equivAll_iff,
        equivAll_iff, forall₂_equiv_congr (steady_of_mem as) h.2]
    | _ => rfl
theorem steady_of_mem [ComparableScalar α] (as : List (Expr α)) : ∀ a ∈ as, a.Steady := by
  match as with
  | [] => exact fun a ha => absurd ha List.not_mem_nil
  | a :: as => exact List.forall_mem_cons.mpr ⟨steady a, steady_of_mem as⟩
end

mutual
/-- The numbers that occur, from left to right. -/
def numbers : Expr α → List α
  | number x => [x]
  | symbol _ | constant _ => []
  | sum es | product es | call _ es => numbersAll es
  | power b e => b.numbers ++ e.numbers
def numbersAll : List (Expr α) → List α
  | [] => []
  | e :: es => e.numbers ++ numbersAll es
end

omit [Scalar α] in
lemma mem_numbersAll {es : List (Expr α)} {x : α} :
    x ∈ numbersAll es ↔ ∃ e ∈ es, x ∈ e.numbers := by
  induction es with
  | nil => simp [numbersAll]
  | cons e es ih => simp [numbersAll, ih]

/-- Every number that occurs equals itself. -/
def Comparable (e : Expr α) : Prop := ∀ x ∈ e.numbers, Scalar.same x x = true

lemma comparable_of_mem {es : List (Expr α)} :
    (∀ x ∈ numbersAll es, Scalar.same x x = true) ↔ ∀ e ∈ es, e.Comparable := by
  simp only [mem_numbersAll, Comparable]
  exact ⟨fun h e he x hx => h x ⟨e, he, hx⟩, fun h x ⟨e, he, hx⟩ => h e he x hx⟩

section Comparable

variable (es : List (Expr α))

@[simp] theorem comparable_number (x : α) :
    (number x).Comparable ↔ Scalar.same x x = true := by simp [Comparable, numbers]

@[simp] theorem comparable_sum : (sum es).Comparable ↔ ∀ e ∈ es, e.Comparable := comparable_of_mem

@[simp] theorem comparable_product : (product es).Comparable ↔ ∀ e ∈ es, e.Comparable :=
  comparable_of_mem

@[simp] theorem comparable_call (f : Elementary) :
    (call f es).Comparable ↔ ∀ e ∈ es, e.Comparable := comparable_of_mem

@[simp] theorem comparable_power (b e : Expr α) :
    (power b e).Comparable ↔ b.Comparable ∧ e.Comparable := List.forall_mem_append

end Comparable

mutual
theorem equiv_self {a : Expr α} [ComparableScalar α] (h : a.Comparable) : equiv a a = true := by
  match a with
  | number x => simpa [equiv] using h
  | symbol s => simp [equiv]
  | constant c => simp [equiv]
  | sum as =>
    rw [comparable_sum] at h
    exact matchAll_of_pairs (steady_of_mem as) ⟨as, equiv_self_of_mem h, .refl _⟩
  | product as =>
    rw [comparable_product] at h
    exact matchAll_of_pairs (steady_of_mem as) ⟨as, equiv_self_of_mem h, .refl _⟩
  | power b e =>
    rw [comparable_power] at h
    rw [equiv, equiv_self h.1, equiv_self h.2, Bool.true_and]
  | call f as =>
    rw [comparable_call] at h
    rw [equiv, beq_self_eq_true, Bool.true_and, equivAll_iff]
    exact equiv_self_of_mem h
theorem equiv_self_of_mem {as : List (Expr α)} [ComparableScalar α] (h : ∀ a ∈ as, a.Comparable) :
    List.Forall₂ (fun a b => equiv a b = true) as as := by
  match as with
  | [] => exact .nil
  | a :: as =>
    rw [List.forall_mem_cons] at h
    exact .cons (equiv_self h.1) (equiv_self_of_mem h.2)
end

lemma Pairs.exists_equiv {as bs : List (Expr α)} (h : Pairs as bs) {a : Expr α} (ha : a ∈ as) :
    ∃ b, equiv a b = true := by
  obtain ⟨cs, hcs, -⟩ := h
  obtain ⟨i, hi, rfl⟩ := List.getElem_of_mem ha
  obtain ⟨hlen, hget⟩ := List.forall₂_iff_get.mp hcs
  exact ⟨_, hget i hi (hlen ▸ hi)⟩

mutual
/-- Nothing is equal up to order to an expression in which a number differs from itself. -/
theorem comparable_of_equiv [ComparableScalar α] {a b : Expr α} (h : equiv a b = true) :
    a.Comparable := by
  match a, b with
  | number x, number y =>
    rw [equiv] at h
    rw [comparable_number]
    exact ComparableScalar.same_trans h (ComparableScalar.same_symm h)
  | symbol s, symbol t => exact fun x hx => absurd hx List.not_mem_nil
  | constant k, constant l => exact fun x hx => absurd hx List.not_mem_nil
  | sum as, sum bs =>
    rw [comparable_sum]
    exact comparable_of_mem_of_equiv as fun a ha => (pairs_of_matchAll h).exists_equiv ha
  | product as, product bs =>
    rw [comparable_product]
    exact comparable_of_mem_of_equiv as fun a ha => (pairs_of_matchAll h).exists_equiv ha
  | power b e, power c x =>
    rw [equiv, Bool.and_eq_true] at h
    exact (comparable_power b e).mpr ⟨comparable_of_equiv h.1, comparable_of_equiv h.2⟩
  | call f as, call g bs =>
    rw [equiv, Bool.and_eq_true, equivAll_iff] at h
    rw [comparable_call]
    exact comparable_of_mem_of_equiv as fun a ha => Pairs.exists_equiv ⟨bs, h.2, .refl _⟩ ha
theorem comparable_of_mem_of_equiv [ComparableScalar α] (as : List (Expr α))
    (h : ∀ a ∈ as, ∃ b, equiv a b = true) : ∀ a ∈ as, a.Comparable := by
  match as with
  | [] => exact fun a ha => absurd ha List.not_mem_nil
  | a :: as =>
    rw [List.forall_mem_cons] at h ⊢
    obtain ⟨b, hb⟩ := h.1
    exact ⟨comparable_of_equiv hb, comparable_of_mem_of_equiv as h.2⟩
end

section
variable [ComparableScalar α] {a b c : Expr α}

theorem equiv_symm (h : equiv a b = true) : equiv b a = true :=
  (steady a b h a).symm.trans (equiv_self (comparable_of_equiv h))

theorem equiv_comm (a b : Expr α) : equiv a b = equiv b a :=
  Bool.eq_iff_iff.mpr ⟨equiv_symm, equiv_symm⟩

theorem equiv_trans (hab : equiv a b = true) (hbc : equiv b c = true) : equiv a c = true :=
  (steady a b hab c).trans hbc

end

/-- One step: a number gives way to an equal one, or the terms of one sum or the factors of one
product are permuted. -/
inductive Rearranges : Expr α → Expr α → Prop
  | number {x y : α} (h : Scalar.same x y = true) : Rearranges (number x) (number y)
  | sum {ts ts' : List (Expr α)} (h : ts.Perm ts') : Rearranges (sum ts) (sum ts')
  | product {fs fs' : List (Expr α)} (h : fs.Perm fs') : Rearranges (product fs) (product fs')
  | inSum {before after : List (Expr α)} {a b : Expr α} (h : Rearranges a b) :
      Rearranges (sum (before ++ a :: after)) (sum (before ++ b :: after))
  | inProduct {before after : List (Expr α)} {a b : Expr α} (h : Rearranges a b) :
      Rearranges (product (before ++ a :: after)) (product (before ++ b :: after))
  | inBase {a b e : Expr α} (h : Rearranges a b) : Rearranges (power a e) (power b e)
  | inExponent {b x y : Expr α} (h : Rearranges x y) : Rearranges (power b x) (power b y)
  | inCall {f : Elementary} {before after : List (Expr α)} {a b : Expr α} (h : Rearranges a b) :
      Rearranges (call f (before ++ a :: after)) (call f (before ++ b :: after))

/-- Any number of steps. -/
def Reorders : Expr α → Expr α → Prop := Relation.ReflTransGen Rearranges

lemma Reorders.lift (wrap : Expr α → Expr α) {a b : Expr α}
    (hwrap : ∀ a b, Rearranges a b → Rearranges (wrap a) (wrap b)) (h : Reorders a b) :
    Reorders (wrap a) (wrap b) :=
  Relation.ReflTransGen.lift wrap hwrap a b h

/-- Children are reordered one after the other. -/
lemma reorders_children {wrap : List (Expr α) → Expr α}
    (hwrap : ∀ before after a b, Rearranges a b →
      Rearranges (wrap (before ++ a :: after)) (wrap (before ++ b :: after)))
    {as bs : List (Expr α)} (h : List.Forall₂ Reorders as bs) : Reorders (wrap as) (wrap bs) := by
  have hrest (before : List (Expr α)) : Reorders (wrap (before ++ as)) (wrap (before ++ bs)) := by
    induction h generalizing before with
    | nil => exact .refl
    | @cons a b as bs hab _ ih =>
      have hhead : Reorders (wrap (before ++ a :: as)) (wrap (before ++ b :: as)) :=
        hab.lift (fun e => wrap (before ++ e :: as)) (hwrap before as)
      have hrest := ih (before ++ [b])
      simp only [List.append_assoc, List.singleton_append] at hrest
      exact hhead.trans hrest
  exact hrest []

/-- Children are reordered one after the other and then permuted. -/
lemma reorders_of_pairs {wrap : List (Expr α) → Expr α}
    (hwrap : ∀ before after a b, Rearranges a b →
      Rearranges (wrap (before ++ a :: after)) (wrap (before ++ b :: after)))
    (hperm : ∀ as bs, as.Perm bs → Rearranges (wrap as) (wrap bs)) {as bs : List (Expr α)}
    (hchild : ∀ a ∈ as, ∀ b, equiv a b = true → Reorders a b) (h : Pairs as bs) :
    Reorders (wrap as) (wrap bs) := by
  obtain ⟨cs, hcs, hbs⟩ := h
  have hordered : List.Forall₂ Reorders as cs :=
    ((List.forall₂_and_left as cs).mpr ⟨hchild, hcs⟩).imp fun _ _ h => h.1 _ h.2
  exact (reorders_children hwrap hordered).tail (hperm _ _ hbs)

mutual
theorem reorders_of_equiv {a b : Expr α} (h : equiv a b = true) : Reorders a b := by
  match a, b with
  | number x, number y => exact .single (.number h)
  | symbol s, symbol t =>
    obtain rfl : s = t := by simpa [equiv] using h
    exact .refl
  | constant k, constant l =>
    obtain rfl : k = l := by simpa [equiv] using h
    exact .refl
  | sum as, sum bs =>
    exact reorders_of_pairs (fun _ _ _ _ => .inSum) (fun _ _ => .sum)
      (reorders_of_mem as) (pairs_of_matchAll h)
  | product as, product bs =>
    exact reorders_of_pairs (fun _ _ _ _ => .inProduct) (fun _ _ => .product)
      (reorders_of_mem as) (pairs_of_matchAll h)
  | power b e, power c x =>
    rw [equiv, Bool.and_eq_true] at h
    have hbase : Reorders (power b e) (power c e) :=
      (reorders_of_equiv h.1).lift (fun a => power a e) fun _ _ => .inBase
    exact hbase.trans ((reorders_of_equiv h.2).lift (power c) fun _ _ => .inExponent)
  | call f as, call g bs =>
    rw [equiv, Bool.and_eq_true, beq_iff_eq, equivAll_iff] at h
    obtain ⟨rfl, hargs⟩ := h
    exact reorders_children (fun _ _ _ _ => .inCall)
      (((List.forall₂_and_left as bs).mpr ⟨reorders_of_mem as, hargs⟩).imp fun _ _ h => h.1 _ h.2)
theorem reorders_of_mem (as : List (Expr α)) :
    ∀ a ∈ as, ∀ b, equiv a b = true → Reorders a b := by
  match as with
  | [] => exact fun a ha => absurd ha List.not_mem_nil
  | a :: as =>
    exact List.forall_mem_cons.mpr ⟨fun b hb => reorders_of_equiv hb, reorders_of_mem as⟩
end

section
variable [ComparableScalar α]

/-- One child is changed and the others stay as they are. -/
lemma forall₂_equiv_replace {before after : List (Expr α)} {a b : Expr α}
    (h : ∀ e ∈ before ++ a :: after, e.Comparable) (hab : equiv a b = true) :
    List.Forall₂ (fun a b => equiv a b = true) (before ++ a :: after) (before ++ b :: after) := by
  rw [List.forall_mem_append, List.forall_mem_cons] at h
  exact List.rel_append (equiv_self_of_mem h.1) (.cons hab (equiv_self_of_mem h.2.2))

theorem Rearranges.equiv_of_comparable {a b : Expr α} (h : Rearranges a b) (ha : a.Comparable) :
    equiv a b = true := by
  induction h with
  | number h => exact h
  | sum h =>
    rw [comparable_sum] at ha
    exact matchAll_of_pairs (steady_of_mem _) ⟨_, equiv_self_of_mem ha, h⟩
  | product h =>
    rw [comparable_product] at ha
    exact matchAll_of_pairs (steady_of_mem _) ⟨_, equiv_self_of_mem ha, h⟩
  | inSum _ ih =>
    rw [comparable_sum] at ha
    exact matchAll_of_pairs (steady_of_mem _)
      ⟨_, forall₂_equiv_replace ha (ih (ha _ (by simp))), .refl _⟩
  | inProduct _ ih =>
    rw [comparable_product] at ha
    exact matchAll_of_pairs (steady_of_mem _)
      ⟨_, forall₂_equiv_replace ha (ih (ha _ (by simp))), .refl _⟩
  | inBase _ ih =>
    rw [comparable_power] at ha
    rw [equiv, ih ha.1, equiv_self ha.2, Bool.true_and]
  | inExponent _ ih =>
    rw [comparable_power] at ha
    rw [equiv, ih ha.2, equiv_self ha.1, Bool.true_and]
  | inCall _ ih =>
    rw [comparable_call] at ha
    rw [equiv, beq_self_eq_true, Bool.true_and, equivAll_iff]
    exact forall₂_equiv_replace ha (ih (ha _ (by simp)))

theorem equiv_iff_reorders {a b : Expr α} (ha : a.Comparable) :
    equiv a b = true ↔ Reorders a b := by
  refine ⟨reorders_of_equiv, fun h => ?_⟩
  induction h with
  | refl => exact equiv_self ha
  | tail _ hstep ih =>
    have hcomparable := comparable_of_equiv (equiv_symm ih)
    exact equiv_trans ih (hstep.equiv_of_comparable hcomparable)

end

/-- Expressions without an undefined number are equal up to order if one is turned into the other by
permuting the terms of sums and the factors of products at any depth. This is an equivalence
relation, and the greedy matching finds a pairing of two lists whenever there is one. -/
theorem equivalence_is_reordering :
    (∀ a b : Expr Float, (∀ x ∈ a.numbers, x.isNaN = false) → (equiv a b = true ↔ Reorders a b)) ∧
      (∀ a : Expr Float, (∀ x ∈ a.numbers, x.isNaN = false) → equiv a a = true) ∧
      (∀ a b : Expr Float, equiv a b = true → equiv b a = true) ∧
      (∀ a b c : Expr Float, equiv a b = true → equiv b c = true → equiv a c = true) ∧
      ∀ as bs cs : List (Expr Float), List.Forall₂ (fun a c => equiv a c = true) as cs →
        cs.Perm bs → matchAll as bs = true := by
  have hcomparable {a : Expr Float} (ha : ∀ x ∈ a.numbers, x.isNaN = false) : a.Comparable :=
    fun x hx => Binary64.same_self.mpr (ha x hx)
  exact ⟨fun a b ha => equiv_iff_reorders (hcomparable ha), fun a ha => equiv_self (hcomparable ha),
    fun a b => equiv_symm, fun a b c => equiv_trans,
    fun as bs cs hcs hperm => matchAll_of_pairs (steady_of_mem as) ⟨cs, hcs, hperm⟩⟩

/-- The sum is turned around, a product in it too, and the two zeros stand for each other. -/
theorem equivalence_is_reordering_turned :
    let a : Expr Float := sum [number 0, product [symbol "x", symbol "y"], symbol "y"]
    let b : Expr Float := sum [symbol "y", product [symbol "y", symbol "x"], number (-0)]
    equiv a b = true ∧ Reorders a b := by
  intro a b
  have hnan : ∀ x ∈ a.numbers, x.isNaN = false := by
    intro x hx
    obtain rfl : x = 0 := by simpa [a, numbers, numbersAll] using hx
    decide +kernel
  have hequiv : equiv a b = true := by decide +kernel
  exact ⟨hequiv, (equivalence_is_reordering.1 a b hnan).mp hequiv⟩

end Expr

end EquationCompiler
