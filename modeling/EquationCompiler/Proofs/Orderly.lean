import EquationCompiler.Proofs.NormalConstructors
import EquationCompiler.Proofs.Recipe

/-!
# Orderly recipes

A recipe is orderly if every sum on the way keeps its terms and every product its
bases. Orderly recipes make normal forms out of normal forms. So texts have normal
forms, and substituting and differentiating lead from normal forms to normal forms, as
long as the recipes that they follow are orderly.
-/
namespace EquationCompiler

namespace Recipe
variable {α : Type} [Scalar α]

mutual
/-- Whether every sum on the way keeps its terms, and every product its bases. -/
def isOrderly : Recipe α → Bool
  | given _ => true
  | sum rs => areOrderly rs && Expr.keepsTerms (buildAll rs)
  | product rs => areOrderly rs && Expr.keepsBases (buildAll rs)
  | power b e => b.isOrderly && e.isOrderly
  | call _ rs => areOrderly rs
def areOrderly : List (Recipe α) → Bool
  | [] => true
  | r :: rs => r.isOrderly && areOrderly rs
end

mutual
/-- An orderly recipe makes a normal form out of normal forms. -/
theorem normal_build [UnitScalar α] {r : Recipe α} (h : r.From Expr.Normal)
    (horderly : r.isOrderly = true) : r.build.Normal := by
  match r with
  | given e => exact h
  | sum rs =>
    rw [isOrderly, Bool.and_eq_true] at horderly
    exact Expr.normal_add (normal_buildAll h horderly.1) horderly.2
  | product rs =>
    rw [isOrderly, Bool.and_eq_true] at horderly
    exact Expr.normal_mul (normal_buildAll h horderly.1) horderly.2
  | power b e =>
    rw [isOrderly, Bool.and_eq_true] at horderly
    exact (normal_build h.1 horderly.1).pow (normal_build h.2 horderly.2)
  | call f rs => exact Expr.normal_apply (normal_buildAll h horderly)
theorem normal_buildAll [UnitScalar α] {rs : List (Recipe α)} (h : FromAll Expr.Normal rs)
    (horderly : areOrderly rs = true) : ∀ e ∈ buildAll rs, e.Normal := by
  match rs with
  | [] => exact fun _ he => by cases he
  | r :: rs =>
    rw [areOrderly, Bool.and_eq_true] at horderly
    exact List.forall_mem_cons.mpr
      ⟨normal_build h.1 horderly.1, normal_buildAll h.2 horderly.2⟩
end

end Recipe

namespace Expr
variable {α : Type}

lemma passesDown_normal [Scalar α] : PassesDown (Normal : Expr α → Prop) where
  number := .number
  of_sum h := by cases h; assumption
  of_product h := by cases h; assumption
  of_power h := by cases h; exact ⟨by assumption, by assumption⟩
  of_call h := by cases h; assumption

/-- What can be had by parsing, substituting and differentiating when every sum on the way keeps
its terms and every product its bases. -/
inductive Orderly [Numeral α] : Expr α → Prop
  | parse {v : Vocabulary} {text : String} {e : Expr α} {r : Recipe α} (h : parse v text = .ok e)
      (hr : parseRecipe v text = .ok r) (horderly : r.isOrderly = true) : Orderly e
  | substitute {e r : Expr α} (name : String) (he : Orderly e) (hr : Orderly r)
      (horderly : (e.substituteRecipe name r).isOrderly = true) : Orderly (e.substitute name r)
  | derivative {e : Expr α} (name : String) (he : Orderly e)
      (horderly : (derivativeRecipe name e).isOrderly = true) : Orderly (derivative name e)

section
variable [Numeral α] [UnitScalar α]

lemma normal_parse {v : Vocabulary} {text : String} {e : Expr α} {r : Recipe α}
    (h : parse v text = .ok e) (hr : parseRecipe v text = .ok r) (horderly : r.isOrderly = true) :
    Normal e := by
  rw [parse_eq_map, hr] at h
  cases h
  obtain ⟨f, -, hrecipe⟩ := Formula.bind_eq_ok.mp hr
  refine r.normal_build (Formula.from_recipe .number (fun s => ?_) hrecipe) horderly
  unfold Formula.identifier
  split_ifs
  · exact .symbol s
  · split
    · exact .constant _
    · exact .symbol s

lemma Normal.substitute {e r : Expr α} (he : Normal e) (hr : Normal r) {name : String}
    (horderly : (e.substituteRecipe name r).isOrderly = true) : Normal (e.substitute name r) := by
  rw [← build_substituteRecipe]
  exact Recipe.normal_build (passesDown_normal.from_substituteRecipe hr he) horderly

lemma Normal.derivative {e : Expr α} (he : Normal e) {name : String}
    (horderly : (derivativeRecipe name e).isOrderly = true) : Normal (derivative name e) := by
  rw [← build_derivativeRecipe]
  exact Recipe.normal_build (passesDown_normal.from_derivativeRecipe name he) horderly

/-- Orderly expressions are in normal form. -/
theorem normal_of_orderly {e : Expr α} (h : Orderly e) : Normal e := by
  induction h with
  | parse h hr horderly => exact normal_parse h hr horderly
  | substitute name _ _ horderly he hr => exact he.substitute hr horderly
  | derivative name _ horderly he => exact he.derivative horderly

end

/-- Two thirds of `x` are collected, and `1/3` is left as it stands. What is parsed is orderly, and so
is its derivative with the expression itself substituted for `x`. -/
theorem normal_of_orderly_thirds :
    ∃ e : Expr Float, parse (.ofList ["x"]) "1/3 + x/3 + sqrt(x)*sin(x)/3 + x/3" = .ok e ∧
      Orderly ((derivative "x" e).substitute "x" e) ∧
        Normal ((derivative "x" e).substitute "x" e) := by
  have hrecipe : (parseRecipe (.ofList ["x"]) "1/3 + x/3 + sqrt(x)*sin(x)/3 + x/3" :
      Except ExprFault (Recipe Float)).toOption.any (fun r =>
        r.isOrderly && (derivativeRecipe "x" r.build).isOrderly &&
          ((derivative "x" r.build).substituteRecipe "x" r.build).isOrderly) = true := by
    decide +kernel
  obtain ⟨r, hr, horderly⟩ := (Option.any_eq_true _ _).mp hrecipe
  have hr := Formula.eq_ok_of_toOption hr
  rw [Bool.and_eq_true, Bool.and_eq_true] at horderly
  have hparse : parse (.ofList ["x"]) "1/3 + x/3 + sqrt(x)*sin(x)/3 + x/3" = .ok r.build := by
    rw [parse_eq_map, hr]
    rfl
  have he : Orderly r.build := .parse hparse hr horderly.1.1
  have hsubstitute : Orderly ((derivative "x" r.build).substitute "x" r.build) :=
    .substitute "x" (.derivative "x" he horderly.1.2) he horderly.2
  exact ⟨r.build, hparse, hsubstitute, normal_of_orderly hsubstitute⟩

/-- The three thirds are collected to one only after five has been taken for the number of the
sum. -/
example : ∃ e : Expr Float, parse (.ofList []) "5 + 1/3 + 1/3 + 1/3" = .ok e ∧ ¬Normal e := by
  have hlate : (parse (.ofList []) "5 + 1/3 + 1/3 + 1/3" : Except ExprFault (Expr Float)).toOption.any
      (fun | sum ts => ts.tail.any isNumber | _ => false) = true := by decide +kernel
  obtain ⟨e, he, hlate⟩ := (Option.any_eq_true _ _).mp hlate
  refine ⟨e, Formula.eq_ok_of_toOption he, fun hnormal => ?_⟩
  cases hnormal with
  | sum hmany hterms hflat hnumber hunlike =>
    obtain ⟨t, ht, hlate⟩ := List.any_eq_true.mp hlate
    rw [hnumber t ht] at hlate
    cases hlate
  | _ => cases hlate

end Expr

end EquationCompiler
