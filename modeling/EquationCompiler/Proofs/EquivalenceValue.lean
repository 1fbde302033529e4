import EquationCompiler.Expr.Equivalence
import EquationCompiler.Proofs.Value

/-!
# Equality up to order keeps the value

Expressions that differ only in the order of terms and factors have the same
value, whether or not it is defined: the paired lists are permutations of each
other.
-/
namespace EquationCompiler

theorem eraseFirst?_perm {β : Type} {p : β → Bool} {bs cs : List β}
    (h : eraseFirst? p bs = some cs) : ∃ b, p b = true ∧ bs.Perm (b :: cs) := by
  induction bs generalizing cs with
  | nil => simp [eraseFirst?] at h
  | cons b bs ih =>
    simp only [eraseFirst?] at h
    split_ifs at h with hb
    · obtain rfl := Option.some.inj h
      exact ⟨b, hb, .refl _⟩
    · obtain ⟨ds, hd, rfl⟩ := Option.map_eq_some_iff.mp h
      obtain ⟨a, ha, hperm⟩ := ih hd
      exact ⟨a, ha, (hperm.cons b).trans (.swap a b ds)⟩

namespace Expr
variable {α : Type} [ExactScalar α] (ρ : String → Option ℝ)

mutual
theorem value_eq_of_equiv {a b : Expr α} (h : equiv a b = true) : a.value ρ = b.value ρ := by
  cases a <;> cases b <;> simp only [equiv, Bool.and_eq_true, beq_iff_eq, Bool.false_eq_true] at h
  case number.number x y => simpa using (ExactScalar.same_iff x y).mp h
  case symbol.symbol => rw [h]
  case constant.constant => rw [h]
  case sum.sum as bs => simpa using (perm_values_of_matchAll h).sum_eq
  case product.product as bs => simpa using (perm_values_of_matchAll h).prod_eq
  case power.power a x b y =>
    rw [value_power, value_power, value_eq_of_equiv h.1, value_eq_of_equiv h.2]
  case call.call f as g bs => rw [value_call, value_call, h.1, map_value_of_equivAll h.2]
theorem perm_values_of_matchAll {as bs : List (Expr α)} (h : matchAll as bs = true) :
    (as.map (value ρ)).Perm (bs.map (value ρ)) := by
  match as with
  | [] =>
    obtain rfl : bs = [] := by simpa [matchAll] using h
    exact .refl _
  | a :: as =>
    simp only [matchAll] at h
    cases he : eraseFirst? (fun b => equiv a b) bs with
    | none => simp [he] at h
    | some rest =>
      obtain ⟨b, hb, hperm⟩ := eraseFirst?_perm he
      simp only [he] at h
      have hrest : (as.map (value ρ)).Perm (rest.map (value ρ)) := perm_values_of_matchAll h
      have hpaired := (hrest.cons (a.value ρ)).trans (.of_eq (by
        rw [value_eq_of_equiv hb, ← List.map_cons]))
      exact hpaired.trans (hperm.map (value ρ)).symm
theorem map_value_of_equivAll {as bs : List (Expr α)} (h : equivAll as bs = true) :
    as.map (value ρ) = bs.map (value ρ) := by
  match as, bs with
  | [], [] => rfl
  | [], _ :: _ => simp [equivAll] at h
  | _ :: _, [] => simp [equivAll] at h
  | a :: as, b :: bs =>
    simp only [equivAll, Bool.and_eq_true] at h
    rw [List.map_cons, List.map_cons, value_eq_of_equiv h.1, map_value_of_equivAll h.2]
end

end Expr

end EquationCompiler
