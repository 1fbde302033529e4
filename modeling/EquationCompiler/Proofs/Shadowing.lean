import EquationCompiler.Proofs.Reread

/-!
# What a vocabulary shadows

A vocabulary has a say only in names that mean something else without it: constants,
and names that are applied. Vocabularies that agree on these read a text alike, with
the same expression or the same fault. What a vocabulary does shadow is not read as a
constant or as a function.
-/
namespace EquationCompiler

namespace Vocabulary

/-- The vocabularies shadow the same constants. -/
def AgreeOnConstants (v w : Vocabulary) : Prop :=
  ∀ c : Constant, v.contains c.name = w.contains c.name

end Vocabulary

namespace Formula
variable {α : Type} {v w : Vocabulary}

/-- Outside the vocabulary a name that is no constant is a symbol as well. -/
lemma identifier_congr (hconstants : v.AgreeOnConstants w) (s : String) :
    (identifier v s : Expr α) = identifier w s := by
  unfold identifier
  cases hs : Constant.ofName? s with
  | none => simp
  | some c =>
    have hc := hconstants c
    rw [name_of_constant_ofName? hs] at hc
    rw [hc]

variable [Numeral α]

lemma application_congr {f : String} (hf : v.contains f = w.contains f) (args : List (Expr α)) :
    application v f args = application w f args := by
  unfold application
  rw [hf]

mutual
/-- What is built depends on the vocabulary only through constants and the names that are applied,
and so does the first fault. -/
theorem compile_congr (hconstants : v.AgreeOnConstants w) (f : Formula)
    (hcalls : f.OnlyCalls fun s => v.contains s = w.contains s) :
    (compile v f : Except ExprFault (Expr α)) = compile w f := by
  match f with
  | number literal => rfl
  | name s => rw [compile, compile, identifier_congr hconstants]
  | call s args =>
    obtain ⟨hs, hargs⟩ := onlyCalls_call.mp hcalls
    simp only [compile, compileAll_congr hconstants args hargs, application_congr hs]
  | negation f =>
    simp only [compile, compile_congr hconstants f (onlyCalls_negation.mp hcalls)]
  | sum f g | difference f g | product f g | quotient f g | power f g =>
    simp only [onlyCalls_sum, onlyCalls_difference, onlyCalls_product, onlyCalls_quotient,
      onlyCalls_power] at hcalls
    simp only [compile, compile_congr hconstants f hcalls.1, compile_congr hconstants g hcalls.2]
theorem compileAll_congr (hconstants : v.AgreeOnConstants w) (fs : List Formula)
    (hcalls : ∀ f ∈ fs, f.OnlyCalls fun s => v.contains s = w.contains s) :
    (compileAll v fs : Except ExprFault (List (Expr α))) = compileAll w fs := by
  match fs with
  | [] => rfl
  | f :: fs =>
    rw [List.forall_mem_cons] at hcalls
    simp only [compileAll, compile_congr hconstants f hcalls.1,
      compileAll_congr hconstants fs hcalls.2]
end

end Formula

namespace Expr
variable {α : Type} [Numeral α]

/-- A text that is no formula is refused before the vocabulary is asked. -/
theorem parse_congr {v w : Vocabulary} {text : String} (hconstants : v.AgreeOnConstants w)
    (hcalls : ∀ s, ⟨s, true⟩ ∈ Token.uses (Token.tokens text.toList) →
      v.contains s = w.contains s) :
    (parse v text : Except ExprFault (Expr α)) = parse w text := by
  unfold parse
  cases hread : Formula.read text with
  | error fault => rfl
  | ok f =>
    refine Formula.compile_congr hconstants f fun s hs => hcalls s ?_
    rwa [Formula.uses_of_isSum (Formula.isSum_of_read hread)]

/-- A vocabulary changes the meaning of nothing but constants and names that are applied, and those
that are in it do not have their meaning as such. -/
theorem vocabulary_only_shadows (text : String) :
    (∀ v w : Vocabulary, v.contains "pi" = w.contains "pi" → v.contains "E" = w.contains "E" →
      (∀ s, ⟨s, true⟩ ∈ Token.uses (Token.tokens text.toList) → v.contains s = w.contains s) →
      (parse v text : Except ExprFault (Expr α)) = parse w text) ∧
    ∀ v (e : Expr α), parse v text = .ok e →
      (e.OnlyConstants fun c => v.contains c.name = false) ∧
        e.OnlyApplies fun f => v.contains f.name = false := by
  constructor
  · intro v w hpi he hcalls
    refine parse_congr (fun c => ?_) hcalls
    cases c with
    | pi => exact hpi
    | e => exact he
  · exact fun v e hparse => ⟨onlyConstants_parse hparse, onlyApplies_parse hparse⟩

/-- The name `cos` is in one vocabulary only, but is not applied; the constant `E` is in both. -/
theorem vocabulary_only_shadows_unapplied :
    ∃ e : Expr Float, parse (.ofList ["cos", "E", "x"]) "sin(x) + cos*pi**E" = .ok e ∧
      parse (.ofList ["E"]) "sin(x) + cos*pi**E" = .ok e ∧
      (e.OnlyConstants fun c => (Vocabulary.ofList ["E"]).contains c.name = false) ∧
      e.OnlyApplies fun f => (Vocabulary.ofList ["cos", "E", "x"]).contains f.name = false := by
  have huses : Token.uses (Token.tokens "sin(x) + cos*pi**E".toList) =
      [⟨"sin", true⟩, ⟨"x", false⟩, ⟨"cos", false⟩, ⟨"pi", false⟩, ⟨"E", false⟩] := by
    decide +kernel
  have hparse : (parse (.ofList ["E"]) "sin(x) + cos*pi**E" :
      Except ExprFault (Expr Float)).toOption.isSome = true := by decide +kernel
  obtain ⟨e, he⟩ := Option.isSome_iff_exists.mp hparse
  have he := Formula.eq_ok_of_toOption he
  obtain ⟨hagree, hshadow⟩ := vocabulary_only_shadows (α := Float) "sin(x) + cos*pi**E"
  have hequal := hagree (.ofList ["cos", "E", "x"]) (.ofList ["E"]) (by decide) (by decide) <| by
    rw [huses]
    simp
  have hother := hequal.trans he
  exact ⟨e, hother, he, (hshadow _ e he).1, (hshadow _ e hother).2⟩

end Expr

end EquationCompiler
