import EquationCompiler.Number.Machine
import EquationCompiler.Proofs.Recursion

/-!
# Normal forms

A sum in normal form has no sums among its terms and no like terms, a product no
products among its factors and no equal bases. What the simplifier has collected is
unlike in the same way: terms up to their coefficients, powers up to their exponents.
-/
namespace EquationCompiler

/-- One is recognised. -/
class UnitScalar (α : Type) [Scalar α] : Prop where
  isOne_one : Scalar.isOne (Scalar.one : α) = true
  isZero_one : Scalar.isZero (Scalar.one : α) = false

instance : UnitScalar Float where
  isOne_one := by decide +kernel
  isZero_one := by decide +kernel

namespace Expr
variable {α : Type}

def isNumber : Expr α → Bool
  | number _ => true
  | _ => false

def isSum : Expr α → Bool
  | sum _ => true
  | _ => false

def isProduct : Expr α → Bool
  | product _ => true
  | _ => false

def isPower : Expr α → Bool
  | power _ _ => true
  | _ => false

lemma isNumber_eq_false {e : Expr α} : e.isNumber = false ↔ ∀ x, e ≠ number x := by
  cases e <;> simp [isNumber]

lemma isNumber_eq_true {e : Expr α} : e.isNumber = true ↔ ∃ x, e = number x := by
  cases e <;> simp [isNumber]

lemma terms_of_isSum {e : Expr α} (h : e.isSum = false) : e.terms = [e] := by
  cases e with
  | sum ts => cases h
  | _ => rfl

lemma factors_of_isProduct {e : Expr α} (h : e.isProduct = false) : e.factors = [e] := by
  cases e with
  | product fs => cases h
  | _ => rfl

lemma termsAll_of_isSum {ts : List (Expr α)} (h : ∀ t ∈ ts, t.isSum = false) :
    termsAll ts = ts := by
  induction ts with
  | nil => rfl
  | cons t ts ih =>
    rw [List.forall_mem_cons] at h
    rw [termsAll, terms_of_isSum h.1, ih h.2, List.singleton_append]

lemma factorsAll_of_isProduct {fs : List (Expr α)} (h : ∀ f ∈ fs, f.isProduct = false) :
    factorsAll fs = fs := by
  induction fs with
  | nil => rfl
  | cons f fs ih =>
    rw [List.forall_mem_cons] at h
    rw [factorsAll, factors_of_isProduct h.1, ih h.2, List.singleton_append]

lemma mem_termsAll {ts : List (Expr α)} {t : Expr α} : t ∈ termsAll ts ↔ ∃ u ∈ ts, t ∈ u.terms := by
  induction ts with
  | nil => simp [termsAll]
  | cons u ts ih => simp [termsAll, ih]

lemma mem_factorsAll {fs : List (Expr α)} {f : Expr α} :
    f ∈ factorsAll fs ↔ ∃ g ∈ fs, f ∈ g.factors := by
  induction fs with
  | nil => simp [factorsAll]
  | cons g fs ih => simp [factorsAll, ih]

variable [Scalar α]

/-- Equal up to a numeric coefficient and the order of terms and factors. -/
def areLike (s t : Expr α) : Bool := equiv (splitCoefficient s).2 (splitCoefficient t).2

/-- Powers of one base, up to the order of terms and factors. -/
def haveOneBase (f g : Expr α) : Bool := equiv (splitPower f).1 (splitPower g).1

/-- The power cannot be simplified, however exponents are multiplied. -/
def Irreducible (b e : Expr α) : Prop := ∀ mul, powWith mul b e = power b e

/-- Numbers come first in sums and in products, sums are not terms of sums and products are not
factors of products. There are no like terms and, the coefficient apart, no equal bases. -/
inductive Normal : Expr α → Prop
  | number (x : α) : Normal (number x)
  | symbol (s : String) : Normal (symbol s)
  | constant (c : Constant) : Normal (constant c)
  | sum {ts : List (Expr α)} (hmany : 2 ≤ ts.length) (hterms : ∀ t ∈ ts, Normal t)
      (hflat : ∀ t ∈ ts, t.isSum = false) (hnumber : ∀ t ∈ ts.tail, t.isNumber = false)
      (hunlike : ts.Pairwise fun s t => areLike s t = false) : Normal (sum ts)
  | product {fs : List (Expr α)} (hmany : 2 ≤ fs.length) (hfactors : ∀ f ∈ fs, Normal f)
      (hflat : ∀ f ∈ fs, f.isProduct = false) (hnumber : ∀ f ∈ fs.tail, f.isNumber = false)
      (hunlike : fs.Pairwise fun f g => f.isNumber = false → haveOneBase f g = false) :
      Normal (product fs)
  | power {b e : Expr α} (hb : Normal b) (he : Normal e) (hreduced : Irreducible b e) :
      Normal (power b e)
  | call {f : Elementary} {args : List (Expr α)} (h : ∀ a ∈ args, Normal a) :
      Normal (call f args)

namespace Normal

lemma of_mem_terms {e t : Expr α} (h : Normal e) (ht : t ∈ e.terms) :
    Normal t ∧ t.isSum = false := by
  cases h with
  | sum hmany hterms hflat hnumber hunlike =>
    rw [terms, termsAll_of_isSum hflat] at ht
    exact ⟨hterms t ht, hflat t ht⟩
  | _ =>
    rw [List.mem_singleton.mp ht]
    exact ⟨by constructor <;> assumption, rfl⟩

lemma of_mem_factors {e f : Expr α} (h : Normal e) (hf : f ∈ e.factors) :
    Normal f ∧ f.isProduct = false := by
  cases h with
  | product hmany hfactors hflat hnumber hunlike =>
    rw [factors, factorsAll_of_isProduct hflat] at hf
    exact ⟨hfactors f hf, hflat f hf⟩
  | _ =>
    rw [List.mem_singleton.mp hf]
    exact ⟨by constructor <;> assumption, rfl⟩

lemma factors_ne_nil {e : Expr α} (h : Normal e) : e.factors ≠ [] := by
  cases h with
  | product hmany hfactors hflat hnumber hunlike =>
    rw [factors, factorsAll_of_isProduct hflat]
    rintro rfl
    simp at hmany
  | _ => exact List.cons_ne_nil _ _

lemma pairwise_factors {e : Expr α} (h : Normal e) :
    e.factors.Pairwise fun f g => f.isNumber = false → haveOneBase f g = false := by
  cases h with
  | product hmany hfactors hflat hnumber hunlike =>
    rwa [factors, factorsAll_of_isProduct hflat]
  | _ => exact List.pairwise_singleton _ _

end Normal

/-- A base is what is left of a factor without its exponent. -/
lemma Normal.splitPower {f : Expr α} (h : Normal f) :
    Normal (splitPower f).1 ∧ Normal (splitPower f).2 := by
  cases h with
  | power hb he hreduced => exact ⟨hb, he⟩
  | _ => exact ⟨by constructor <;> assumption, .number _⟩

/-- Adding a term changes a coefficient, unless the term is unlike all others. -/
lemma map_snd_collectTerm (c : α) (rest : Expr α) (ts : List (α × Expr α)) :
    (collectTerm c rest ts).map Prod.snd = ts.map Prod.snd ∨
      (∀ t ∈ ts, equiv t.2 rest = false) ∧ collectTerm c rest ts = ts ++ [(c, rest)] := by
  induction ts with
  | nil => simp [collectTerm]
  | cons t ts ih =>
    simp only [collectTerm]
    split_ifs with hlike
    · exact .inl rfl
    · rcases ih with hsame | ⟨hunlike, hnew⟩
      · exact .inl (by simp [hsame])
      · exact .inr ⟨List.forall_mem_cons.mpr ⟨by simpa using hlike, hunlike⟩, by simp [hnew]⟩

/-- What is left of a term without its coefficient. -/
structure Bare (e : Expr α) : Prop where
  normal : Normal e
  isNumber {f : Expr α} (hf : f ∈ e.factors) : f.isNumber = false

lemma Normal.bare {e : Expr α} (h : Normal e) (hproduct : e.isProduct = false)
    (hnumber : e.isNumber = false) : Bare e := by
  refine ⟨h, fun {f} hf => ?_⟩
  rw [factors_of_isProduct hproduct, List.mem_singleton] at hf
  rwa [hf]

lemma Normal.bare_splitCoefficient {t : Expr α} (h : Normal t) (ht : t.isNumber = false) :
    Bare (splitCoefficient t).2 := by
  cases h with
  | @product fs hmany hfactors hflat hnumber hunlike =>
    have hproduct (gs : List (Expr α)) (hgs : gs.Sublist fs) (hlength : 2 ≤ gs.length)
        (hnone : ∀ g ∈ gs, g.isNumber = false) : Bare (Expr.product gs) := by
      refine ⟨.product hlength (fun g hg => hfactors g (hgs.subset hg))
        (fun g hg => hflat g (hgs.subset hg)) (fun g hg => hnone g (List.mem_of_mem_tail hg))
        (hunlike.sublist hgs), fun hf => hnone _ ?_⟩
      rwa [factors, factorsAll_of_isProduct fun g hg => hflat g (hgs.subset hg)] at hf
    match fs with
    | [] | [f] => simp at hmany
    | [.number c, f] =>
      exact (hfactors f (by simp)).bare (hflat f (by simp)) (hnumber f (by simp))
    | .number c :: f :: g :: rest =>
      exact hproduct (f :: g :: rest) (List.sublist_cons_self _ _) (by simp) hnumber
    | .symbol _ :: f :: rest | .constant _ :: f :: rest | .sum _ :: f :: rest
    | .product _ :: f :: rest | .power _ _ :: f :: rest | .call _ _ :: f :: rest =>
      exact hproduct _ (List.Sublist.refl _) hmany (List.forall_mem_cons.mpr ⟨rfl, hnumber⟩)
  | number x => cases ht
  | _ => exact Normal.bare (by constructor <;> assumption) rfl rfl

namespace Bare

lemma isNumber_eq_false {e : Expr α} (h : Bare e) : e.isNumber = false := by
  cases e with
  | number x => exact h.isNumber (List.mem_singleton.mpr rfl)
  | _ => rfl

lemma splitCoefficient {e : Expr α} (h : Bare e) : splitCoefficient e = (Scalar.one, e) := by
  unfold Expr.splitCoefficient
  split
  · next c rest =>
    have hnumber : (number c).isNumber = false := h.isNumber (by simp [factors, factorsAll])
    cases hnumber
  · rfl

lemma collapse_factors {e : Expr α} (h : Bare e) : collapse product e.factors = e := by
  cases h.normal with
  | product hmany hfactors hflat hnumber hunlike =>
    rw [factors, factorsAll_of_isProduct hflat]
    unfold collapse
    split
    · simp at hmany
    · rfl
  | _ => rfl

end Bare

/-- Collected terms are unlike. -/
lemma collect_unlike {ts : List (Expr α)} (h : ∀ t ∈ ts, Normal t) :
    (∀ t ∈ (collect ts).terms, Bare t.2) ∧
      (collect ts).terms.Pairwise fun s t => equiv s.2 t.2 = false := by
  have hinsert (ts : List (Expr α)) (s : Collected α) (hts : ∀ t ∈ ts, Normal t)
      (hbare : ∀ t ∈ s.terms, Bare t.2)
      (hunlike : s.terms.Pairwise fun s t => equiv s.2 t.2 = false) :
      (∀ t ∈ (ts.foldl Collected.insert s).terms, Bare t.2) ∧
        (ts.foldl Collected.insert s).terms.Pairwise fun s t => equiv s.2 t.2 = false := by
    induction ts generalizing s with
    | nil => exact ⟨hbare, hunlike⟩
    | cons t ts ih =>
      rw [List.forall_mem_cons] at hts
      by_cases hnumber : t.isNumber
      · cases t with
        | number x => exact ih _ hts.2 hbare hunlike
        | _ => cases hnumber
      · rw [Bool.not_eq_true] at hnumber
        rw [List.foldl_cons, Collected.insert_of_ne_number (Expr.isNumber_eq_false.mp hnumber)]
        refine ih _ hts.2 (forall_mem_collectTerm (hts.1.bare_splitCoefficient hnumber) hbare) ?_
        rcases map_snd_collectTerm (splitCoefficient t).1 (splitCoefficient t).2 s.terms with
          hsame | ⟨hnew, happend⟩
        · rw [← List.pairwise_map (f := Prod.snd) (R := fun a b => equiv a b = false)] at hunlike ⊢
          rwa [hsame]
        · simpa only [happend, List.pairwise_append, List.pairwise_singleton,
            List.mem_singleton, forall_eq, true_and] using ⟨hunlike, hnew⟩
  refine hinsert _ _ (fun t ht => ?_) (by simp) .nil
  obtain ⟨u, hu, ht⟩ := mem_termsAll.mp ht
  exact ((h u hu).of_mem_terms ht).1

/-- Adding a power changes an exponent, unless the base is unlike all others. -/
lemma map_fst_collectPower (add : List (Expr α) → Expr α) (b e : Expr α)
    (ps : List (Expr α × Expr α)) :
    (collectPower add b e ps).map Prod.fst = ps.map Prod.fst ∨
      (∀ p ∈ ps, equiv p.1 b = false) ∧ collectPower add b e ps = ps ++ [(b, e)] := by
  induction ps with
  | nil => simp [collectPower]
  | cons p ps ih =>
    simp only [collectPower]
    split_ifs with hlike
    · exact .inl rfl
    · rcases ih with hsame | ⟨hunlike, hnew⟩
      · exact .inl (by simp [hsame])
      · exact .inr ⟨List.forall_mem_cons.mpr ⟨by simpa using hlike, hunlike⟩, by simp [hnew]⟩

lemma collectPower_of_unlike (add : List (Expr α) → Expr α) {b e : Expr α}
    {ps : List (Expr α × Expr α)} (h : ∀ p ∈ ps, equiv p.1 b = false) :
    collectPower add b e ps = ps ++ [(b, e)] := by
  induction ps with
  | nil => rfl
  | cons p ps ih =>
    rw [List.forall_mem_cons] at h
    simp [collectPower, h.1, ih h.2]

/-- Collected powers have unlike bases. -/
lemma collectPowers_unlike (add : List (Expr α) → Expr α) (fs : List (Expr α)) :
    (collectPowers add fs).powers.Pairwise fun p q => equiv p.1 q.1 = false := by
  have hinsert (fs : List (Expr α)) (p : Powers α)
      (hp : p.powers.Pairwise fun p q => equiv p.1 q.1 = false) :
      (fs.foldl (Powers.insert add) p).powers.Pairwise fun p q => equiv p.1 q.1 = false := by
    induction fs generalizing p with
    | nil => exact hp
    | cons f fs ih =>
      by_cases hnumber : f.isNumber
      · cases f with
        | number x => exact ih _ hp
        | _ => cases hnumber
      · rw [Bool.not_eq_true] at hnumber
        rw [List.foldl_cons, Powers.insert_of_ne_number (isNumber_eq_false.mp hnumber)]
        refine ih _ ?_
        rcases map_fst_collectPower add (splitPower f).1 (splitPower f).2 p.powers with
          hsame | ⟨hnew, happend⟩
        · rw [← List.pairwise_map (f := Prod.fst) (R := fun a b => equiv a b = false)] at hp ⊢
          rwa [hsame]
        · simpa only [happend, List.pairwise_append, List.pairwise_singleton,
            List.mem_singleton, forall_eq, true_and] using ⟨hp, hnew⟩
  exact hinsert _ _ .nil

/-- Factors with unlike bases are collected as they are. -/
lemma powers_foldl_insert (add : List (Expr α) → Expr α) {fs : List (Expr α)} (p : Powers α)
    (hfs : fs.Pairwise fun f g => f.isNumber = false → haveOneBase f g = false)
    (hp : ∀ q ∈ p.powers, ∀ f ∈ fs, equiv q.1 (splitPower f).1 = false) :
    (fs.foldl (Powers.insert add) p).powers =
      p.powers ++ (fs.filter fun f => !f.isNumber).map splitPower := by
  induction fs generalizing p with
  | nil => simp
  | cons f fs ih =>
    rw [List.pairwise_cons] at hfs
    have hlater (q : Expr α × Expr α) (hq : q ∈ p.powers) := List.forall_mem_cons.mp (hp q hq)
    by_cases hnumber : f.isNumber
    · cases f with
      | number x => exact ih _ hfs.2 fun q hq => (hlater q hq).2
      | _ => cases hnumber
    · rw [Bool.not_eq_true] at hnumber
      have hnew : collectPower add (splitPower f).1 (splitPower f).2 p.powers =
          p.powers ++ [splitPower f] := collectPower_of_unlike add fun q hq => (hlater q hq).1
      rw [List.foldl_cons, Powers.insert_of_ne_number (isNumber_eq_false.mp hnumber), hnew,
        ih _ hfs.2]
      · simp [hnumber]
      · intro q hq
        rcases List.mem_append.mp hq with hq | hq
        · exact (hlater q hq).2
        · rw [List.mem_singleton.mp hq]
          exact fun g hg => hfs.1 g hg hnumber

/-- Factors that are no numbers leave the coefficient as it is. -/
lemma coefficient_foldl_insert (add : List (Expr α) → Expr α) {fs : List (Expr α)} (p : Powers α)
    (h : ∀ f ∈ fs, f.isNumber = false) :
    (fs.foldl (Powers.insert add) p).coefficient = p.coefficient := by
  induction fs generalizing p with
  | nil => rfl
  | cons f fs ih =>
    rw [List.forall_mem_cons] at h
    rw [List.foldl_cons, Powers.insert_of_ne_number (isNumber_eq_false.mp h.1), ih _ h.2]

lemma collectPowers_number_of_bare {rest : Expr α} (h : Bare rest) (c : α) :
    collectPowers add [number c, rest] = ⟨Scalar.one * c, rest.factors.map splitPower⟩ := by
  have hcoefficient := coefficient_foldl_insert add ⟨Scalar.one * c, []⟩ fun f hf => h.isNumber hf
  have hpowers := powers_foldl_insert add ⟨Scalar.one * c, []⟩ h.normal.pairwise_factors (by simp)
  have hall : rest.factors.filter (fun f => !f.isNumber) = rest.factors :=
    List.filter_eq_self.mpr fun f hf => by simp [h.isNumber hf]
  rw [hall, List.nil_append] at hpowers
  simp only [collectPowers, factorsAll, factors, List.append_nil, List.singleton_append,
    List.foldl_cons, Powers.insert]
  exact congrArg₂ Powers.mk hcoefficient hpowers

end Expr

end EquationCompiler
