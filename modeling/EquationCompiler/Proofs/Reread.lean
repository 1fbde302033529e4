import EquationCompiler.Proofs.CalledNames
import EquationCompiler.Proofs.ParseLanguage
import EquationCompiler.Proofs.ReadableNumber

/-!
# Reading an equation again

The text of the expression of an equation is read again under its parameters. These
shadow no constant and no function that is in the expression; only the square root,
which is no function of its own, may be written although a parameter has its name.
Other symbols than those of the expression come from numbers that are not finite.
-/
namespace EquationCompiler

namespace Expr
variable {α : Type}

lemma Inherited.and {P Q : Expr α → Prop} (hP : Inherited P) (hQ : Inherited Q) :
    Inherited fun e => P e ∧ Q e where
  number x := ⟨hP.number x, hQ.number x⟩
  sum hne h := ⟨hP.sum hne fun t ht => (h t ht).1, hQ.sum hne fun t ht => (h t ht).2⟩
  of_sum h t ht := ⟨hP.of_sum h.1 t ht, hQ.of_sum h.2 t ht⟩
  product h := ⟨hP.product fun f hf => (h f hf).1, hQ.product fun f hf => (h f hf).2⟩
  of_product h f hf := ⟨hP.of_product h.1 f hf, hQ.of_product h.2 f hf⟩
  power hb he := ⟨hP.power hb.1 he.1, hQ.power hb.2 he.2⟩
  of_power h := ⟨⟨(hP.of_power h.1).1, (hQ.of_power h.2).1⟩,
    (hP.of_power h.1).2, (hQ.of_power h.2).2⟩
  of_call h a ha := ⟨hP.of_call h.1 a ha, hQ.of_call h.2 a ha⟩

/-- All constants in the expression have a property. -/
inductive OnlyConstants (C : Constant → Prop) : Expr α → Prop
  | number (x : α) : OnlyConstants C (number x)
  | symbol (s : String) : OnlyConstants C (symbol s)
  | constant {c : Constant} (h : C c) : OnlyConstants C (constant c)
  | sum {ts : List (Expr α)} (h : ∀ t ∈ ts, OnlyConstants C t) : OnlyConstants C (sum ts)
  | product {fs : List (Expr α)} (h : ∀ f ∈ fs, OnlyConstants C f) : OnlyConstants C (product fs)
  | power {b e : Expr α} (hb : OnlyConstants C b) (he : OnlyConstants C e) :
    OnlyConstants C (power b e)
  | call {f : Elementary} {args : List (Expr α)} (h : ∀ a ∈ args, OnlyConstants C a) :
    OnlyConstants C (call f args)

lemma hereditary_onlyConstants (C : Constant → Prop) :
    Hereditary (OnlyConstants C : Expr α → Prop) where
  number := .number
  sum _ := .sum
  of_sum h := by cases h; assumption
  product := .product
  of_product h := by cases h; assumption
  power := .power
  of_power h := by cases h; exact ⟨by assumption, by assumption⟩
  call _ := .call
  of_call h := by cases h; assumption

lemma OnlyConstants.mono {C D : Constant → Prop} {e : Expr α} (h : e.OnlyConstants C)
    (hCD : ∀ c, C c → D c) : e.OnlyConstants D := by
  induction h with
  | number x => exact .number x
  | symbol s => exact .symbol s
  | constant h => exact .constant (hCD _ h)
  | sum _ ih => exact .sum ih
  | product _ ih => exact .product ih
  | power _ _ hb he => exact .power hb he
  | call _ ih => exact .call ih

lemma OnlyConstants.substitute [Scalar α] {C : Constant → Prop} {name : String} {e r : Expr α}
    (he : e.OnlyConstants C) (hr : r.OnlyConstants C) : (e.substitute name r).OnlyConstants C :=
  (hereditary_onlyConstants C).substitute (hereditary_onlyConstants C).toInherited
    (fun _ _ h => .call h) (fun h _ => h) hr he

/-- No constant has been read whose name is in the vocabulary. -/
lemma onlyConstants_parse [Numeral α] {v : Vocabulary} {text : String} {e : Expr α}
    (h : parse v text = .ok e) : e.OnlyConstants fun c => v.contains c.name = false := by
  obtain ⟨f, -, hcompile⟩ := Formula.bind_eq_ok.mp h
  have H := hereditary_onlyConstants (α := α) fun c => v.contains c.name = false
  refine Formula.algebraic_compile H.toAlgebraic (Formula.hereditary_application H) ?_ hcompile
  intro s _
  unfold Formula.identifier
  split_ifs with hv
  · exact .symbol s
  · split
    · next c hc =>
      refine .constant ?_
      rw [Formula.name_of_constant_ofName? hc]
      exact Bool.eq_false_iff.mpr hv
    · exact .symbol s

end Expr

namespace Formula

/-- The square root is called only if the vocabulary leaves its name to it. -/
def RootUnshadowed (v : Vocabulary) (f : Formula) : Prop :=
  f.OnlyCalls fun s => s = "sqrt" → v.contains s = false

/-- The formula is compiled to an expression all of whose symbols have the property, unless it calls
a square root whose name the vocabulary takes. Then this is the fault. -/
def Recompiles (α : Type) [Numeral α] (v : Vocabulary) (S : String → Prop) (f : Formula) : Prop :=
  f.RootUnshadowed v ∧ f.CompilesWith α v S ∨
    ¬f.RootUnshadowed v ∧ (f.compile v : Except ExprFault (Expr α)) = .error (.notCallable "sqrt")

variable {α : Type} [Numeral α] {v : Vocabulary} {S : String → Prop}

lemma onlyCalls_joins {A : String → Prop} {f g h : Formula}
    {combine : Expr α → Expr α → Expr α} (hop : Joins h f g combine) :
    h.OnlyCalls A ↔ f.OnlyCalls A ∧ g.OnlyCalls A := by
  cases hop <;> simp

namespace Recompiles

lemma negation {f : Formula} (h : f.Recompiles α v S) : (Formula.negation f).Recompiles α v S := by
  obtain ⟨hroot, h⟩ | ⟨hroot, h⟩ := h
  · exact .inl ⟨hroot, h.negation⟩
  · exact .inr ⟨hroot, by rw [compile, h]; rfl⟩

/-- The left operand is compiled first, and either fault is the same. -/
lemma joins {f g h : Formula} {combine : Expr α → Expr α → Expr α}
    (hcombine : ∀ {a b : Expr α}, (∀ s ∈ a.symbols, S s) → (∀ s ∈ b.symbols, S s) →
      ∀ s ∈ (combine a b).symbols, S s)
    (hf : f.Recompiles α v S) (hg : g.Recompiles α v S) (hop : Joins h f g combine) :
    h.Recompiles α v S := by
  have hroots : h.RootUnshadowed v ↔ f.RootUnshadowed v ∧ g.RootUnshadowed v := onlyCalls_joins hop
  obtain ⟨hfroot, a, ha, hasymbols⟩ | ⟨hfroot, ha⟩ := hf
  · obtain ⟨hgroot, b, hb, hbsymbols⟩ | ⟨hgroot, hb⟩ := hg
    · exact .inl ⟨hroots.mpr ⟨hfroot, hgroot⟩, combine a b,
        by rw [compile_joins hop, ha, hb]; rfl, hcombine hasymbols hbsymbols⟩
    · exact .inr ⟨fun h => hgroot (hroots.mp h).2, by rw [compile_joins hop, ha, hb]; rfl⟩
  · exact .inr ⟨fun h => hfroot (hroots.mp h).1, by rw [compile_joins hop, ha]; rfl⟩

/-- Arguments are compiled one after the other. -/
lemma all {fs : List Formula} (h : ∀ f ∈ fs, f.Recompiles α v S) :
    ((∀ f ∈ fs, f.RootUnshadowed v) ∧ ∃ es : List (Expr α), compileAll v fs = .ok es ∧
      es.length = fs.length ∧ ∀ e ∈ es, ∀ s ∈ e.symbols, S s) ∨
    ¬(∀ f ∈ fs, f.RootUnshadowed v) ∧
      (compileAll v fs : Except ExprFault (List (Expr α))) = .error (.notCallable "sqrt") := by
  induction fs with
  | nil => exact .inl ⟨by simp, [], rfl, rfl, by simp⟩
  | cons f fs ih =>
    rw [List.forall_mem_cons] at h
    obtain ⟨hroot, e, he, hsymbols⟩ | ⟨hroot, he⟩ := h.1
    · obtain ⟨hroots, es, hes, hlength, hall⟩ | ⟨hroots, hes⟩ := ih h.2
      · exact .inl ⟨List.forall_mem_cons.mpr ⟨hroot, hroots⟩, e :: es,
          by rw [compileAll, he, hes]; rfl, by simp [hlength],
          List.forall_mem_cons.mpr ⟨hsymbols, hall⟩⟩
      · exact .inr ⟨fun h => hroots (List.forall_mem_cons.mp h).2,
          by rw [compileAll, he, hes]; rfl⟩
    · exact .inr ⟨fun h => hroot (List.forall_mem_cons.mp h).1, by rw [compileAll, he]; rfl⟩

/-- A root that the vocabulary shadows is refused, whatever its argument is. -/
lemma root {f : Formula} (h : f.Recompiles α v S) : (call "sqrt" [f]).Recompiles α v S := by
  have H := Expr.hereditary_symbols (α := α) S
  have hroots : (call "sqrt" [f]).RootUnshadowed v ↔
      v.contains "sqrt" = false ∧ f.RootUnshadowed v := by
    simp [RootUnshadowed]
  obtain ⟨hroot, e, he, hsymbols⟩ | ⟨hroot, he⟩ := h
  · cases hv : v.contains "sqrt" with
    | false =>
      refine .inl ⟨hroots.mpr ⟨hv, hroot⟩, e.pow (.number Scalar.half), ?_,
        H.pow hsymbols (H.number _)⟩
      simp [compile, compileAll, he, bind, Except.bind, pure, Except.pure, application, hv]
    | true =>
      refine .inr ⟨fun h => by simp [hv] at hroots; exact hroots h, ?_⟩
      simp [compile, compileAll, he, bind, Except.bind, pure, Except.pure, application, hv]
  · refine .inr ⟨fun h => hroot (hroots.mp h).2, ?_⟩
    simp [compile, compileAll, he, bind, Except.bind]

lemma apply {f : Elementary} (hv : v.contains f.name = false) {fs : List Formula}
    (hlength : fs.length = f.arity) (h : ∀ g ∈ fs, g.Recompiles α v S) :
    (call f.name fs).Recompiles α v S := by
  have hname : f.name ≠ "sqrt" := by cases f <;> decide
  have hroots : (call f.name fs).RootUnshadowed v ↔ ∀ g ∈ fs, g.RootUnshadowed v := by
    simp [RootUnshadowed, hname]
  obtain ⟨hroot, es, hes, heslength, hsymbols⟩ | ⟨hroot, hes⟩ := all h
  · have harity : es.length = f.arity := heslength.trans hlength
    refine .inl ⟨hroots.mpr hroot, .apply f es, ?_,
      (Expr.hereditary_symbols S).apply harity hsymbols⟩
    simp [compile, hes, bind, Except.bind, application, hv, hname, harity]
  · exact .inr ⟨fun h => hroot (hroots.mp h), by rw [compile, hes]; rfl⟩

lemma symbol {s : String} (hs : S s) : (name s).Recompiles α v S := by
  refine .inl ⟨by simp [RootUnshadowed], identifier v s, rfl, ?_⟩
  unfold identifier
  split_ifs
  · simpa [Expr.symbols] using hs
  · split <;> simp [Expr.symbols, hs]

lemma constant {c : Constant} (hv : v.contains c.name = false) :
    (name c.name).Recompiles α v S := by
  refine .inl ⟨by simp [RootUnshadowed], .constant c, ?_, by simp [Expr.symbols]⟩
  rw [compile, identifier, hv, Constant.ofName?_name]
  rfl

lemma compositional : Compositional (Recompiles α v S) where
  negation h := h.negation
  sum hf hg := hf.joins (fun ha hb => (Expr.hereditary_symbols S).add (by simpa using ⟨ha, hb⟩)) hg
    (.sum _ _)
  difference hf hg := hf.joins (Expr.hereditary_symbols S).sub hg (.difference _ _)
  product hf hg :=
    hf.joins (fun ha hb => (Expr.hereditary_symbols S).mul (by simpa using ⟨ha, hb⟩)) hg
      (.product _ _)
  quotient hf hg := hf.joins (Expr.hereditary_symbols S).div hg (.quotient _ _)

end Recompiles

end Formula

namespace Expr
variable {α : Type} [Numeral α] {v : Vocabulary} {S : String → Prop}
open Formula

/-- The symbols have a property, and the constants and functions keep their meanings in the
vocabulary. -/
def Keeps (v : Vocabulary) (S : String → Prop) (e : Expr α) : Prop :=
  Formed S e ∧ (e.OnlyConstants fun c => v.contains c.name = false) ∧
    e.OnlyApplies fun f => v.contains f.name = false

omit [Numeral α] in
lemma inherited_keeps : Inherited (Keeps v S : Expr α → Prop) :=
  hereditary_formed.toInherited.and
    ((hereditary_onlyConstants _).toInherited.and (inherited_onlyApplies _))

lemma writing_recompiles
    (hnumeral : ∀ (x : α) divides, (Dialect.formula.numeral x divides).CompilesWith α v S) :
    Writing .formula (Keeps v S : Expr α → Prop) (Recompiles α v S) where
  toCompositional := Recompiles.compositional
  inherited := inherited_keeps
  numeral x divides := .inl ⟨onlyCalls_numeral x divides, hnumeral x divides⟩
  symbol h := by
    cases h.1 with
    | symbol hs => exact .symbol hs
  constant h := by
    cases h.2.1 with
    | constant hc => exact .constant hc
  empty h := by
    cases h.1 with
    | sum hne _ => exact absurd rfl hne
  root h := h.root
  power hf hg := hf.joins (hereditary_symbols S).pow hg (.power _ _)
  call h hlength hgs := by
    cases h.1 with
    | call harity _ =>
      exact .apply (onlyApplies_call.mp h.2.2).1 (hlength.trans harity) hgs

/-- What an expression is written as is parsed again, unless it calls a root that is shadowed. -/
theorem parse_toFormula_keeps [Legible α] {e : Expr α}
    (hnumeral : ∀ (x : α) divides, (Dialect.formula.numeral x divides).CompilesWith α v S)
    (hwritable : e.Writable) (he : e.Keeps v S) :
    (∃ again : Expr α, parse v e.toFormula = .ok again ∧ (∀ s ∈ again.symbols, S s) ∧
      (v.contains "sqrt" = true →
        ⟨"sqrt", true⟩ ∉ Token.uses (Token.tokens e.toFormula.toList))) ∨
    (parse v e.toFormula : Except ExprFault (Expr α)) = .error (.notCallable "sqrt") ∧
      v.contains "sqrt" = true ∧
      ⟨"sqrt", true⟩ ∈ Token.uses (Token.tokens e.toFormula.toList) := by
  have hread : Formula.read e.toFormula = .ok (e.written .formula) := read_print .formula hwritable
  have hroot : (e.written .formula).RootUnshadowed v ↔ (v.contains "sqrt" = true →
      ⟨"sqrt", true⟩ ∉ Token.uses (Token.tokens e.toFormula.toList)) := by
    rw [Formula.uses_of_isSum (Formula.isSum_of_read hread)]
    constructor
    · intro h hv hs
      rw [h _ hs rfl] at hv
      cases hv
    · rintro h s hs rfl
      exact Bool.eq_false_iff.mpr fun hv => h hv hs
  rw [parse, hread]
  obtain ⟨h, again, hcompile, hsymbols⟩ | ⟨h, hcompile⟩ := (writing_recompiles hnumeral).written he
  · exact .inl ⟨again, hcompile, hsymbols, hroot.mp h⟩
  · rw [hroot, Classical.not_imp, not_not] at h
    exact .inr ⟨hcompile, h⟩

end Expr

namespace Equation

variable {α : Type} [Numeral α]

/-- The expression as it is read from its text under the parameters. -/
def reread (e : Equation α) : Except ExprFault (Expr α) :=
  Expr.parse (Vocabulary.ofList e.parameters) e.expression.toFormula

/-- The text of the expression calls a square root although a parameter has its name. -/
def ShadowsRoot (e : Equation α) : Prop :=
  "sqrt" ∈ e.parameters ∧
    ⟨"sqrt", true⟩ ∈ Token.uses (Token.tokens e.expression.toFormula.toList)

/-- No constant of the expression is called like a parameter. -/
lemma onlyConstants_resolve {r : Record} {e : Equation α} (h : resolve r = .ok e) :
    e.expression.OnlyConstants fun c => c.name ∉ e.parameters := by
  rw [parameters_resolve h]
  refine resolve_induction (fun _ hv hparse => ?_) (fun he hr => he.substitute hr) h
  refine (Expr.onlyConstants_parse hparse).mono fun c hc hmem => ?_
  rw [hv _ hmem] at hc
  cases hc

/-- Under the parameters all constants and functions of the expression keep their meanings. -/
lemma keeps_resolve {r : Record} {e : Equation α} {S : String → Prop} (h : resolve r = .ok e)
    (hS : ∀ s ∈ e.expression.symbols, S s) :
    e.expression.Keeps (Vocabulary.ofList e.parameters) S := by
  refine ⟨(formed_resolve h).of_contains fun s hs _ => ?_, ?_, ?_⟩
  · exact hS s (Expr.contains_iff_mem_symbols.mp hs)
  · exact (onlyConstants_resolve h).mono fun c hc => by simpa using hc
  · exact (onlyApplies_resolve h).mono fun f hf => by simpa using hf

/-- The text of the expression can be read again, unless it calls a square root that a parameter
shadows. The symbols are those that the expression had, and names of numbers that are not finite. -/
theorem reread_resolve {r : Record} {e : Equation Float} (h : resolve r = .ok e) :
    (¬e.ShadowsRoot → ∃ again, e.reread = .ok again ∧
      ∀ s ∈ again.symbols, s ∈ e.expression.symbols ∨ s ∈ nonFiniteNames) ∧
    (e.ShadowsRoot → e.reread = .error (.notCallable "sqrt")) := by
  let S (s : String) : Prop := s ∈ e.expression.symbols ∨ s ∈ nonFiniteNames
  have hparse := Expr.parse_toFormula_keeps (S := S)
    (fun x divides => (compilesWith_numeral _ x divides).mono fun s => .inr) (writable_resolve h)
    (keeps_resolve h fun s => .inl)
  simp only [Vocabulary.contains_ofList, List.contains_eq_mem, decide_eq_true_eq] at hparse
  obtain ⟨again, hagain, hsymbols, hroot⟩ | ⟨hfault, hroot⟩ := hparse
  · exact ⟨fun _ => ⟨again, hagain, hsymbols⟩, fun h => absurd h.2 (hroot h.1)⟩
  · exact ⟨fun h => absurd hroot h, fun _ => hfault⟩

end Equation

end EquationCompiler
