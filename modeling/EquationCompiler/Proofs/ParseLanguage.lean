import EquationCompiler.Proofs.PrintRead
import EquationCompiler.Proofs.SpelledNumber

/-!
# The language of formulas

A text spells a formula if it can be cut into tokens from which the grammar
derives the formula. `Yields` says what building its expression comes to, part
after part: operands before operators, from left to right, arguments before the
name that is applied to them. Literals come to the machine numbers nearest to
their values. Parsing a text builds the formula that the text spells, and finds a
text that spells none unreadable.
-/
namespace EquationCompiler

namespace Formula
open Token
open Binary64 (Rounds)

/-- The tokens are known, no star comes before a star or a power, and none comes last. -/
structure Regular (ts : List Token) : Prop where
  known : ∀ c, unknown c ∉ ts
  apart : ts.IsChain Apart
  ends : ∀ t ∈ ts.getLast?, t ≠ star

lemma regular_nil : Regular [] := ⟨by simp, .nil, by simp⟩

lemma regular_singleton {t : Token} (hstar : t ≠ star) (hknown : ∀ c, t ≠ unknown c) :
    Regular [t] :=
  ⟨fun c hc => hknown c (List.mem_singleton.mp hc).symm, .singleton t, by simpa using hstar⟩

lemma Regular.append {ts us : List Token} (hts : Regular ts) (hus : Regular us) :
    Regular (ts ++ us) where
  known c hc := (List.mem_append.mp hc).elim (hts.known c) (hus.known c)
  apart := List.isChain_append.mpr
    ⟨hts.apart, hus.apart, fun t ht _ _ hstar => absurd hstar (hts.ends t ht)⟩
  ends t ht := by
    rw [List.getLast?_append, Option.mem_def, Option.or_eq_some_iff] at ht
    rcases ht with ht | ⟨-, ht⟩
    · exact hus.ends t ht
    · exact hts.ends t ht

lemma Regular.cons {ts : List Token} (h : Regular ts) {t : Token} (hstar : t ≠ star)
    (hknown : ∀ c, t ≠ unknown c) : Regular (t :: ts) :=
  (regular_singleton hstar hknown).append h

/-- A star may stand before a signed factor. -/
lemma Regular.star {ts : List Token} {f : Formula} (h : Regular ts) (hsigned : IsSigned ts f) :
    Regular (star :: ts) := by
  obtain ⟨t, more, rfl, hstar, hpower⟩ := hsigned.starts
  exact ⟨fun c hc => h.known c ((List.mem_cons.mp hc).resolve_left (by simp)),
    h.apart.cons_cons fun _ => ⟨hstar, hpower⟩, fun u hu => h.ends u (by simpa using hu)⟩

mutual
theorem IsSum.regular {ts : List Token} {f : Formula} (h : IsSum ts f) : Regular ts :=
  match h with
  | .mk hterm hmore => hterm.regular.append hmore.regular
theorem MoreTerms.regular {ts : List Token} {f g : Formula} (h : MoreTerms f ts g) : Regular ts :=
  match h with
  | .nil _ => regular_nil
  | .plus hterm hmore | .minus hterm hmore =>
    (hterm.regular.append hmore.regular).cons (by simp) (by simp)
theorem IsTerm.regular {ts : List Token} {f : Formula} (h : IsTerm ts f) : Regular ts :=
  match h with
  | .mk hsigned hmore => hsigned.regular.append hmore.regular
theorem MoreFactors.regular {ts : List Token} {f g : Formula} (h : MoreFactors f ts g) :
    Regular ts :=
  match h with
  | .nil _ => regular_nil
  | .star hsigned hmore => (hsigned.regular.star hsigned).append hmore.regular
  | .slash hsigned hmore => (hsigned.regular.append hmore.regular).cons (by simp) (by simp)
theorem IsSigned.regular {ts : List Token} {f : Formula} (h : IsSigned ts f) : Regular ts :=
  match h with
  | .minus h | .plus h => h.regular.cons (by simp) (by simp)
  | .power h => h.regular
theorem IsPower.regular {ts : List Token} {f : Formula} (h : IsPower ts f) : Regular ts :=
  match h with
  | .operand h => h.regular
  | .power hbase hexponent => hbase.regular.append (hexponent.regular.cons (by simp) (by simp))
theorem IsOperand.regular {ts : List Token} {f : Formula} (h : IsOperand ts f) : Regular ts :=
  match h with
  | .number _ | .name _ => regular_singleton (by simp) (by simp)
  | .call _ harg hmore =>
    ((harg.regular.append hmore.regular).cons (by simp) (by simp)).cons (by simp) (by simp)
  | .group h =>
    (h.regular.append (regular_singleton (by simp) (by simp))).cons (by simp) (by simp)
theorem MoreArguments.regular {ts : List Token} {args : List Formula} (h : MoreArguments ts args) :
    Regular ts :=
  match h with
  | .closing => regular_singleton (by simp) (by simp)
  | .comma harg hmore => (harg.regular.append hmore.regular).cons (by simp) (by simp)
end

/-- The text can be cut into tokens from which the grammar derives the formula. -/
def SpelledBy (f : Formula) (text : String) : Prop := ∃ ts, Cuts text.toList ts ∧ IsSum ts f

/-- The reader returns the formula that a text spells, if there is one. -/
theorem read_eq_ok_iff {text : String} {f : Formula} : read text = .ok f ↔ f.SpelledBy text := by
  rw [read_eq_ok]
  constructor
  · intro h
    exact ⟨_, cuts_tokens h.regular.known, h⟩
  · rintro ⟨ts, hcuts, hsum⟩
    rwa [tokens_of_cuts hcuts hsum.regular.apart]

/-- The language is unambiguous. -/
theorem SpelledBy.unique {text : String} {f g : Formula} (hf : f.SpelledBy text)
    (hg : g.SpelledBy text) : f = g := by
  have h := read_eq_ok_iff.mpr hf
  rwa [read_eq_ok_iff.mpr hg, Except.ok.injEq, eq_comm] at h

/-- A text that spells no formula is unreadable from some column on. -/
theorem read_of_not_spelled {text : String} (h : ¬∃ f : Formula, f.SpelledBy text) :
    ∃ expected column, read text = .error (.unreadable expected column) := by
  rw [read_eq_descend, descend]
  cases hread : ofTokens (tokens text.toList) with
  | ok f => exact absurd ⟨f, read_eq_ok_iff.mp (read_eq_ok.mpr (ofTokens_eq_ok.mp hread))⟩ h
  | error obstacle => exact ⟨obstacle.expected, _, rfl⟩

section
variable {α : Type} [Numeral α]

/-- A formula joins two others by an operator, which combines their expressions. -/
inductive Joins : Formula → Formula → Formula → (Expr α → Expr α → Expr α) → Prop
  | sum (f g : Formula) : Joins (sum f g) f g fun a b => .add [a, b]
  | difference (f g : Formula) : Joins (difference f g) f g .sub
  | product (f g : Formula) : Joins (product f g) f g fun a b => .mul [a, b]
  | quotient (f g : Formula) : Joins (quotient f g) f g .div
  | power (f g : Formula) : Joins (power f g) f g .pow

/-- What it comes to if a name is applied to expressions. A name of the vocabulary cannot be
applied, and a square root is a power. -/
inductive Applies (v : Vocabulary) (f : String) (args : List (Expr α)) :
    Except ExprFault (Expr α) → Prop
  | notCallable (hname : v.contains f = true) : Applies v f args (.error (.notCallable f))
  | root {e : Expr α} (hname : v.contains f = false) (hf : f = "sqrt") (hargs : args = [e]) :
    Applies v f args (.ok (e.pow (.number Scalar.half)))
  | rootArity (hname : v.contains f = false) (hf : f = "sqrt") (hargs : args.length ≠ 1) :
    Applies v f args (.error (.arity f 1 args.length))
  | unknownFunction (hname : v.contains f = false) (hroot : f ≠ "sqrt")
      (hf : ∀ g : Elementary, g.name ≠ f) : Applies v f args (.error (.unknownFunction f))
  | function (hname : v.contains f = false) (hroot : f ≠ "sqrt") {g : Elementary}
      (hf : g.name = f) (hargs : args.length = g.arity) : Applies v f args (.ok (.apply g args))
  | arity (hname : v.contains f = false) (hroot : f ≠ "sqrt") {g : Elementary}
      (hf : g.name = f) (hargs : args.length ≠ g.arity) :
    Applies v f args (.error (.arity f g.arity args.length))

mutual
/-- What building the expression of a formula comes to: the expression or the first fault. -/
inductive Yields (v : Vocabulary) : Formula → Except ExprFault (Expr Float) → Prop
  | number {literal : String} {q : ℚ} {x : Float} (hvalue : LiteralValue literal.toList q)
      (hround : Rounds q (some x)) : Yields v (number literal) (.ok (.number x))
  | invalidNumber {literal : String} {q : ℚ} (hvalue : LiteralValue literal.toList q)
      (hround : Rounds q none) : Yields v (number literal) (.error (.invalidNumber literal))
  | symbol {s : String} (hname : v.contains s = true ∨ ∀ c : Constant, c.name ≠ s) :
    Yields v (name s) (.ok (.symbol s))
  | constant {c : Constant} (hname : v.contains c.name = false) :
    Yields v (name c.name) (.ok (.constant c))
  | negation {f : Formula} {a : Expr Float} (hf : Yields v f (.ok a)) :
    Yields v (negation f) (.ok a.neg)
  | negationFault {f : Formula} {fault : ExprFault} (hf : Yields v f (.error fault)) :
    Yields v (negation f) (.error fault)
  | binary {h f g : Formula} {combine : Expr Float → Expr Float → Expr Float} {a b : Expr Float}
      (hop : Joins h f g combine) (hf : Yields v f (.ok a)) (hg : Yields v g (.ok b)) :
    Yields v h (.ok (combine a b))
  | leftFault {h f g : Formula} {combine : Expr Float → Expr Float → Expr Float} {fault : ExprFault}
      (hop : Joins h f g combine) (hf : Yields v f (.error fault)) : Yields v h (.error fault)
  | rightFault {h f g : Formula} {combine : Expr Float → Expr Float → Expr Float} {a : Expr Float}
      {fault : ExprFault} (hop : Joins h f g combine) (hf : Yields v f (.ok a))
      (hg : Yields v g (.error fault)) : Yields v h (.error fault)
  | call {f : String} {args : List Formula} {es : List (Expr Float)}
      {result : Except ExprFault (Expr Float)} (hargs : YieldsAll v args (.ok es))
      (hcall : Applies v f es result) : Yields v (call f args) result
  | argumentFault {f : String} {args : List Formula} {fault : ExprFault}
      (hargs : YieldsAll v args (.error fault)) : Yields v (call f args) (.error fault)
/-- What building the expressions of several formulas comes to. -/
inductive YieldsAll (v : Vocabulary) : List Formula → Except ExprFault (List (Expr Float)) → Prop
  | nil : YieldsAll v [] (.ok [])
  | cons {f : Formula} {fs : List Formula} {e : Expr Float} {es : List (Expr Float)}
      (hf : Yields v f (.ok e)) (hfs : YieldsAll v fs (.ok es)) :
    YieldsAll v (f :: fs) (.ok (e :: es))
  | headFault {f : Formula} {fs : List Formula} {fault : ExprFault}
      (hf : Yields v f (.error fault)) : YieldsAll v (f :: fs) (.error fault)
  | tailFault {f : Formula} {fs : List Formula} {e : Expr Float} {fault : ExprFault}
      (hf : Yields v f (.ok e)) (hfs : YieldsAll v fs (.error fault)) :
    YieldsAll v (f :: fs) (.error fault)
end

lemma constant_ofName?_eq_none {s : String} (h : ∀ c : Constant, c.name ≠ s) :
    Constant.ofName? s = none := by
  unfold Constant.ofName?
  rw [if_neg fun hs => h .pi hs.symm, if_neg fun hs => h .e hs.symm]

lemma name_of_constant_ofName? {s : String} {c : Constant} (h : Constant.ofName? s = some c) :
    c.name = s := by
  unfold Constant.ofName? at h
  split_ifs at h with hpi he <;> cases h
  · exact hpi.symm
  · exact he.symm

lemma elementary_ofName?_eq_none_iff {f : String} :
    Elementary.ofName? f = none ↔ ∀ g : Elementary, g.name ≠ f := by
  simp [Elementary.ofName?, Elementary.mem_all]

theorem applies_iff {v : Vocabulary} {f : String} {args : List (Expr α)}
    {result : Except ExprFault (Expr α)} :
    Applies v f args result ↔ application v f args = result := by
  constructor
  · intro h
    cases h with
    | notCallable hname => simp [application, hname]
    | root hname hf hargs =>
      subst hf
      simp [application, hname, hargs]
    | rootArity hname hf hargs =>
      subst hf
      simp only [application, hname, Bool.false_eq_true, if_false, if_true]
      split
      · exact absurd rfl hargs
      · rfl
    | unknownFunction hname hroot hf =>
      simp [application, hname, hroot, elementary_ofName?_eq_none_iff.mpr hf]
    | function hname hroot hf hargs =>
      subst hf
      simp [application, hname, hroot, hargs]
    | arity hname hroot hf hargs =>
      subst hf
      simp [application, hname, hroot, hargs]
  · rintro rfl
    unfold application
    split_ifs with hname hf
    · exact .notCallable hname
    · rw [Bool.not_eq_true] at hname
      split
      · exact .root hname hf rfl
      · next hargs =>
        refine .rootArity hname hf fun hlength => ?_
        obtain ⟨e, he⟩ := List.length_eq_one_iff.mp hlength
        exact hargs e he
    · rw [Bool.not_eq_true] at hname
      split
      · next hnone => exact .unknownFunction hname hf (elementary_ofName?_eq_none_iff.mp hnone)
      · next g hsome =>
        split_ifs with hargs
        · exact .function hname hf (name_of_elementary_ofName? hsome) hargs
        · exact .arity hname hf (name_of_elementary_ofName? hsome) hargs

/-- An operator combines the expressions of its operands unless one of them is faulty. -/
lemma compile_joins {h f g : Formula} {combine : Expr α → Expr α → Expr α}
    (hop : Joins h f g combine) (v : Vocabulary) :
    compile v h = compile v f >>= fun a => compile v g >>= fun b => .ok (combine a b) := by
  cases hop <;> rfl

end

lemma yields_joins {h f g : Formula} {combine : Expr Float → Expr Float → Expr Float}
    (hop : Joins h f g combine) {v : Vocabulary}
    (hf : Yields v f (compile v f : Except ExprFault (Expr Float)))
    (hg : Yields v g (compile v g : Except ExprFault (Expr Float))) :
    Yields v h (compile v h : Except ExprFault (Expr Float)) := by
  rw [compile_joins hop]
  cases hleft : compile (α := Float) v f with
  | error fault => exact .leftFault hop (hleft ▸ hf)
  | ok a =>
    cases hright : compile (α := Float) v g with
    | error fault => exact .rightFault hop (hleft ▸ hf) (hright ▸ hg)
    | ok b => exact .binary hop (hleft ▸ hf) (hright ▸ hg)

mutual
theorem compile_of_yields {v : Vocabulary} {f : Formula} {result : Except ExprFault (Expr Float)}
    (h : Yields v f result) : compile v f = result :=
  match h with
  | .number hvalue hround | .invalidNumber hvalue hround => by
    simp only [compile, (rounds_literalValue? hvalue).unique hround]
  | .symbol hname => by
    simp only [compile, identifier]
    split_ifs with hv
    · rfl
    · rw [constant_ofName?_eq_none (hname.resolve_left hv)]
  | .constant hname => by simp [compile, identifier, hname]
  | .negation hf | .negationFault hf => by
    simp only [compile, compile_of_yields hf]
    rfl
  | .binary hop hf hg => by
    rw [compile_joins hop, compile_of_yields hf, compile_of_yields hg]
    rfl
  | .leftFault hop hf => by
    rw [compile_joins hop, compile_of_yields hf]
    rfl
  | .rightFault hop hf hg => by
    rw [compile_joins hop, compile_of_yields hf, compile_of_yields hg]
    rfl
  | .call hargs hcall => by
    simp only [compile, compileAll_of_yieldsAll hargs]
    exact applies_iff.mp hcall
  | .argumentFault hargs => by
    simp only [compile, compileAll_of_yieldsAll hargs]
    rfl
theorem compileAll_of_yieldsAll {v : Vocabulary} {fs : List Formula}
    {result : Except ExprFault (List (Expr Float))} (h : YieldsAll v fs result) :
    compileAll v fs = result :=
  match h with
  | .nil => rfl
  | .cons hf hfs | .tailFault hf hfs => by
    simp only [compileAll, compile_of_yields hf, compileAll_of_yieldsAll hfs]
    rfl
  | .headFault hf => by
    simp only [compileAll, compile_of_yields hf]
    rfl
end

mutual
theorem yields_compile (v : Vocabulary) :
    (f : Formula) → f.LiteralsAre HasValue →
      Yields v f (compile v f : Except ExprFault (Expr Float))
  | number literal, ⟨q, hvalue⟩ => by
    have hround := rounds_literalValue? hvalue
    simp only [compile]
    split
    · next h => exact .number hvalue (h ▸ hround)
    · next h => exact .invalidNumber hvalue (h ▸ hround)
  | name s, _ => by
    simp only [compile, identifier]
    split_ifs with hv
    · exact .symbol (.inl hv)
    · rw [Bool.not_eq_true] at hv
      split
      · next c hc =>
        obtain rfl := name_of_constant_ofName? hc
        exact .constant hv
      · next hnone =>
        refine .symbol (.inr fun c hc => ?_)
        rw [← hc, Constant.ofName?_name] at hnone
        cases hnone
  | negation f, h => by
    have hf := yields_compile v f h
    simp only [compile]
    cases hresult : compile (α := Float) v f with
    | error fault => exact .negationFault (hresult ▸ hf)
    | ok a => exact .negation (hresult ▸ hf)
  | sum f g, h => yields_joins (.sum f g) (yields_compile v f h.1) (yields_compile v g h.2)
  | difference f g, h =>
    yields_joins (.difference f g) (yields_compile v f h.1) (yields_compile v g h.2)
  | product f g, h => yields_joins (.product f g) (yields_compile v f h.1) (yields_compile v g h.2)
  | quotient f g, h =>
    yields_joins (.quotient f g) (yields_compile v f h.1) (yields_compile v g h.2)
  | power f g, h => yields_joins (.power f g) (yields_compile v f h.1) (yields_compile v g h.2)
  | call f args, h => by
    have hargs := yieldsAll_compileAll v args h
    simp only [compile]
    cases hresult : compileAll (α := Float) v args with
    | error fault => exact .argumentFault (hresult ▸ hargs)
    | ok es => exact .call (hresult ▸ hargs) (applies_iff.mpr rfl)
theorem yieldsAll_compileAll (v : Vocabulary) :
    (fs : List Formula) → AllLiteralsAre HasValue fs →
      YieldsAll v fs (compileAll v fs : Except ExprFault (List (Expr Float)))
  | [], _ => .nil
  | f :: fs, h => by
    have hf := yields_compile v f h.1
    have hfs := yieldsAll_compileAll v fs h.2
    simp only [compileAll]
    cases hhead : compile (α := Float) v f with
    | error fault => exact .headFault (hhead ▸ hf)
    | ok e =>
      cases htail : compileAll (α := Float) v fs with
      | error fault => exact .tailFault (hhead ▸ hf) (htail ▸ hfs)
      | ok es => exact .cons (hhead ▸ hf) (htail ▸ hfs)
end

/-- Building comes to one thing only. -/
theorem yields_iff {v : Vocabulary} {f : Formula} (h : f.LiteralsAre HasValue)
    {result : Except ExprFault (Expr Float)} : Yields v f result ↔ compile v f = result :=
  ⟨compile_of_yields, fun hresult => hresult ▸ yields_compile v f h⟩

lemma SpelledBy.literalsAre {f : Formula} {text : String} (h : f.SpelledBy text) :
    f.LiteralsAre HasValue := by
  obtain ⟨ts, hcuts, hsum⟩ := h
  exact hsum.literalsAre (numbersAre_of_cuts hcuts)

end Formula

namespace Expr

/-- Parsing comes to what building the formula comes to that the text spells; a text that spells
none is unreadable. -/
theorem parse_follows_grammar (v : Vocabulary) (text : String) :
    (∀ f : Formula, f.SpelledBy text → ∀ result : Except ExprFault (Expr Float),
      parse v text = result ↔ f.Yields v result) ∧
    ((¬∃ f : Formula, f.SpelledBy text) →
      ∃ expected column, (parse v text : Except ExprFault (Expr Float)) =
        .error (.unreadable expected column)) := by
  refine ⟨fun f hf result => ?_, fun h => ?_⟩
  · rw [Formula.yields_iff hf.literalsAre, parse, Formula.read_eq_ok_iff.mpr hf]
    rfl
  · obtain ⟨expected, column, hread⟩ := Formula.read_of_not_spelled h
    exact ⟨expected, column, by rw [parse, hread]; rfl⟩

/-- A sign after two stars belongs to the exponent, a sign at the start to the whole power. -/
theorem parse_follows_grammar_signs :
    (∃ f : Formula, f = .product (.negation (.power (.name "a") (.negation (.name "b"))))
        (.number "1.e5") ∧ f.SpelledBy " -a** -b*1.e5" ∧
      f.Yields ⟨["a"]⟩ (parse ⟨["a"]⟩ " -a** -b*1.e5" : Except ExprFault (Expr Float))) ∧
    (¬∃ f : Formula, f.SpelledBy "a b") ∧
    ∃ expected column, (parse ⟨["a"]⟩ "a b" : Except ExprFault (Expr Float)) =
      .error (.unreadable expected column) := by
  have htokens : Token.tokens " -a** -b*1.e5".toList =
      [.minus, .name "a", .power, .minus, .name "b", .star, .number "1.e5"] := by decide +kernel
  have hcuts : Token.Cuts " -a** -b*1.e5".toList _ :=
    Token.cuts_tokens (by rw [htokens]; simp)
  rw [htokens] at hcuts
  have hspelled : (Formula.product (.negation (.power (.name "a") (.negation (.name "b"))))
      (.number "1.e5")).SpelledBy " -a** -b*1.e5" :=
    ⟨_, hcuts, (Formula.IsTerm.mk
      (.minus (.power (.power (.name "a") (.minus (.power (.operand (.name "b")))))))
      (.star (.power (.operand (.number "1.e5"))) (.nil _))).isSum⟩
  have hnone : ¬∃ f : Formula, f.SpelledBy "a b" := by
    rintro ⟨f, hf⟩
    have hread : (Formula.read "a b").toOption.isNone = true := by decide +kernel
    rw [Formula.read_eq_ok_iff.mpr hf] at hread
    cases hread
  exact ⟨⟨_, rfl, hspelled, ((parse_follows_grammar ⟨["a"]⟩ _).1 _ hspelled _).mp rfl⟩, hnone,
    (parse_follows_grammar ⟨["a"]⟩ _).2 hnone⟩

end Expr

end EquationCompiler
