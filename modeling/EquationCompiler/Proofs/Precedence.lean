import EquationCompiler.Formula.Reader
import Mathlib.Data.List.Basic

/-!
# Grouping by precedence

What climbing makes of items in a row, level by level. A signed operand is complete
before whatever binds no more tightly than a factor, a term before whatever binds no
more tightly than a sum. So each level can be put together from the one below it
without a look at what comes later.
-/
namespace EquationCompiler.Formula

/-- Nothing follows, or an operator that binds at most with the given strength. -/
def Loose (strength : ℕ) (items : List Item) : Prop :=
  ∀ i ∈ items.head?, ∃ r affix s, i = .operator r ∧ r.binding? = some (affix, s) ∧ s ≤ strength

/-- Climbing from any bound below `upper`, the items are read as the operand `f`, unless something
follows that binds more tightly than `strength`. -/
def Climbs (upper strength : ℕ) (items : List Item) (f : Formula) : Prop :=
  ∀ (rounds bound : ℕ) (more : List Item), (items ++ more).length ≤ rounds → bound < upper →
    Loose strength more → ∃ left, more.length ≤ left ∧
      climb rounds bound (items ++ more) = extend left bound f more

/-- From any bound below `strength` the items continue the operand `f` to `g`, unless something
follows that binds as tightly as they do. -/
structure Extends (strength : ℕ) (f : Formula) (items : List Item) (g : Formula) : Prop where
  loose {more : List Item} (h : Loose (strength - 10) more) : Loose strength (items ++ more)
  eq (rounds bound : ℕ) (more : List Item) (hrounds : (items ++ more).length ≤ rounds)
    (hbound : bound < strength) (hmore : Loose (strength - 10) more) :
    ∃ left, more.length ≤ left ∧ extend rounds bound f (items ++ more) = extend left bound g more

lemma Loose.mono {s s' : ℕ} {items : List Item} (h : Loose s items) (hs : s ≤ s') :
    Loose s' items := by
  intro i hi
  obtain ⟨r, affix, strength, hr, hbinding, hle⟩ := h i hi
  exact ⟨r, affix, strength, hr, hbinding, Nat.le_trans hle hs⟩

lemma loose_nil (s : ℕ) : Loose s [] := by simp [Loose]

/-- An operand is complete before a looser operator. -/
lemma extend_of_loose {bound rounds : ℕ} {items : List Item} (h : Loose bound items)
    (hrounds : items.length ≤ rounds) (f : Formula) :
    extend rounds bound f items = some (f, items) := by
  cases items with
  | nil => cases rounds <;> rfl
  | cons i items =>
    obtain ⟨r, affix, strength, rfl, hbinding, hle⟩ := h i rfl
    rw [List.length_cons] at hrounds
    obtain ⟨rounds, rfl⟩ : ∃ n, rounds = n + 1 := ⟨rounds - 1, by omega⟩
    rw [extend, hbinding]
    exact if_neg (Nat.not_lt.mpr hle)

namespace Climbs

lemma operand (f : Formula) (upper strength : ℕ) : Climbs upper strength [.operand f] f := by
  intro rounds bound more hrounds _ _
  rw [List.singleton_append, List.length_cons] at hrounds
  obtain ⟨rounds, rfl⟩ : ∃ n, rounds = n + 1 := ⟨rounds - 1, by omega⟩
  exact ⟨rounds, by omega, rfl⟩

/-- What is complete when climbing from a bound is its operand there. -/
lemma eq_some {upper strength : ℕ} {items : List Item} {f : Formula}
    (h : Climbs upper strength items f) (rounds bound : ℕ) {more : List Item}
    (hrounds : (items ++ more).length ≤ rounds) (hbound : bound < upper)
    (hstrength : strength ≤ bound) (hmore : Loose strength more) :
    climb rounds bound (items ++ more) = some (f, more) := by
  obtain ⟨left, hleft, hclimb⟩ := h rounds bound more hrounds hbound hmore
  rw [hclimb, extend_of_loose (hmore.mono hstrength) hleft]

/-- A sign binds more tightly than factors, and less tightly than a power. -/
lemma sign {items : List Item} {f : Formula} (h : Climbs 50 30 items f) {r : Rule}
    (hr : r.binding? = some (.before, 40)) : Climbs 50 30 (.operator r :: items) (signed r f) := by
  intro rounds bound more hrounds hbound hmore
  rw [List.cons_append, List.length_cons] at hrounds
  obtain ⟨rounds, rfl⟩ : ∃ n, rounds = n + 1 := ⟨rounds - 1, by omega⟩
  refine ⟨rounds, by simp at hrounds; omega, ?_⟩
  rw [List.cons_append, climb, hr]
  dsimp only
  rw [h.eq_some rounds (40 - 1) (Nat.le_of_succ_le_succ hrounds) (by decide) (by decide) hmore]
  rfl

/-- Powers group to the right: the exponent may be a power again. -/
lemma power (f : Formula) {items : List Item} {g : Formula} (h : Climbs 50 30 items g) :
    Climbs 50 30 (.operand f :: .operator .pow :: items) (power f g) := by
  intro rounds bound more hrounds hbound hmore
  simp only [List.cons_append, List.length_cons] at hrounds
  obtain ⟨rounds, rfl⟩ : ∃ n, rounds = n + 2 := ⟨rounds - 2, by omega⟩
  refine ⟨rounds, by simp at hrounds; omega, ?_⟩
  have hr : Rule.pow.binding? = some (.right, 50) := rfl
  have hinner := h.eq_some rounds (50 - 1) (by omega) (by decide) (by decide)
    hmore
  rw [List.cons_append, List.cons_append, climb, Formula.extend, hr]
  simp only [bind, Option.bind, if_pos hbound, hinner, joined?]

/-- An operand with what continues it is an operand of the next level. -/
lemma extend {upper strength : ℕ} {items more : List Item} {f g : Formula}
    (h : Climbs upper strength items f) (hupper : strength ≤ upper)
    (hmore : Extends strength f more g) : Climbs strength (strength - 10) (items ++ more) g := by
  intro rounds bound rest hrounds hbound hrest
  rw [List.append_assoc] at hrounds ⊢
  obtain ⟨left, hleft, hclimb⟩ := h rounds bound (more ++ rest) hrounds
    (Nat.lt_of_lt_of_le hbound hupper) (hmore.loose hrest)
  obtain ⟨last, hlast, hextend⟩ := hmore.eq left bound rest hleft hbound hrest
  exact ⟨last, hlast, hclimb.trans hextend⟩

end Climbs

namespace Extends

lemma nil (strength : ℕ) (f : Formula) : Extends strength f [] f where
  loose h := h.mono (Nat.sub_le _ _)
  eq _ _ _ hrounds _ _ := ⟨_, hrounds, rfl⟩

/-- Operators of one level group to the left. -/
lemma cons {upper strength : ℕ} {r : Rule} {items more : List Item} {f g h k : Formula}
    (hr : r.binding? = some (.left, strength)) (hupper : strength < upper)
    (hoperand : Climbs upper strength items g) (hjoined : joined? r f g = some h)
    (hmore : Extends strength h more k) :
    Extends strength f (.operator r :: (items ++ more)) k where
  loose _ := by
    rintro _ ⟨⟩
    exact ⟨r, .left, strength, rfl, hr, Nat.le_refl _⟩
  eq := by
    intro rounds bound rest hrounds hbound hrest
    rw [List.cons_append, List.append_assoc] at hrounds ⊢
    rw [List.length_cons] at hrounds
    obtain ⟨rounds, rfl⟩ : ∃ n, rounds = n + 1 := ⟨rounds - 1, by omega⟩
    have hinner := hoperand.eq_some rounds strength (by omega) hupper (Nat.le_refl _)
      (hmore.loose hrest)
    have hleft : (more ++ rest).length ≤ rounds := by
      rw [List.length_append] at hrounds
      omega
    obtain ⟨left, hlast, hextend⟩ := hmore.eq rounds bound rest hleft hbound hrest
    refine ⟨left, hlast, ?_⟩
    rw [Formula.extend, hr]
    simp only [bind, Option.bind, if_pos hbound, hinner, hjoined]
    exact hextend

end Extends

/-- Items that are read as one sum are the items of its formula. -/
theorem ofItems?_of_climbs {items : List Item} {f : Formula} (h : Climbs 20 10 items f) :
    ofItems? items = some f := by
  obtain ⟨left, -, hclimb⟩ := h items.length 0 [] (by simp) (by omega) (loose_nil _)
  rw [List.append_nil] at hclimb
  rw [ofItems?, hclimb, extend_of_loose (loose_nil _) (Nat.zero_le _)]
  rfl

end EquationCompiler.Formula
