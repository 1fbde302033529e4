import EquationCompiler.Proofs.CppValue
import EquationCompiler.Proofs.WrittenFormula

/-!
# Formulas are read back

The formula that an expression is written as is compiled again without a fault,
whether or not the expression is defined anywhere: all that is applied in it are
functions and square roots, to as many arguments as they take. Where the formula
denotes a number, the expression that it is compiled to is defined and has this
number for its value. Together with what the formula denotes this gives back the
values of the first expression.
-/
namespace EquationCompiler

/-- The meaning of formulas: names of the vocabulary are symbols, other names may be constants. -/
noncomputable def Interpretation.formula (v : Vocabulary) (ρ : String → Option ℝ) :
    Interpretation where
  name s :=
    if v.contains s then ρ s
    else match Constant.ofName? s with
      | some c => some c.real
      | none => ρ s
  call f xs := if f = "sqrt" then root? xs else (Elementary.ofName? f).bind fun g => g.real? xs
  power := power?

/-- The vocabulary leaves their meanings to constants, functions and the square root. -/
structure Vocabulary.LeavesNames (v : Vocabulary) : Prop where
  constant (c : Constant) : v.contains c.name = false
  root : v.contains "sqrt" = false
  function (f : Elementary) : v.contains f.name = false

namespace Expr

lemma suits_formula {v : Vocabulary} (hv : v.LeavesNames) (ρ : String → Option ℝ) :
    Suits (.formula v ρ) .formula ρ fun s => v.contains s = true where
  symbol h := if_pos h
  constant c := by
    have hname : v.contains (Dialect.formula.constant c) = false := hv.constant c
    have hconstant : Constant.ofName? (Dialect.formula.constant c) = some c :=
      Constant.ofName?_name c
    simp [Interpretation.formula, hname, hconstant]
  call {f xs} h := by
    have hreal := Elementary.real?_eq h
    cases f <;> exact hreal
  root h := root?_eq h
  power h := power?_eq h

end Expr

namespace Formula
variable {α : Type} [ExactNumeral α] {v : Vocabulary} {ρ : String → Option ℝ}

/-- The expression is defined and has the number for its value. -/
def Keeps (ρ : String → Option ℝ) (e : Expr α) (x : ℝ) : Prop := e.Defined ρ ∧ e.value ρ = x

lemma power?_eq_some {x y z : ℝ} (h : power? x y = some z) : PowerDefined x y ∧ x ^ y = z := by
  unfold power? at h
  split_ifs at h with hpower
  exact ⟨hpower, Option.some.inj h⟩

lemma root?_eq_some {x y : ℝ} (h : root? [x] = some y) : 0 ≤ x ∧ Real.sqrt x = y := by
  simp only [root?] at h
  split_ifs at h with hnonneg
  exact ⟨hnonneg, Option.some.inj h⟩

lemma keeps_all {es : List (Expr α)} {xs : List ℝ} (h : List.Forall₂ (Keeps ρ) es xs) :
    (∀ a ∈ es, a.Defined ρ) ∧ es.map (Expr.value ρ) = xs := by
  induction h with
  | nil => simp
  | cons he _ ih => exact ⟨List.forall_mem_cons.mpr ⟨he.1, ih.1⟩, by simp [he.2, ih.2]⟩

/-- An operator keeps numbers if both operands do and it does so for expressions that are defined. -/
lemma keeps_operands {f g : Formula} {e : Expr α} {op : Expr α → Expr α → Expr α}
    {I : Interpretation} {act : ℝ → ℝ → Option ℝ} {x : ℝ}
    (hf : ∀ {a : Expr α} {u : ℝ}, compile v f = .ok a → f.denote I = some u → Keeps ρ a u)
    (hg : ∀ {b : Expr α} {w : ℝ}, compile v g = .ok b → g.denote I = some w → Keeps ρ b w)
    (hop : ∀ {a b : Expr α} {y : ℝ}, a.Defined ρ → b.Defined ρ → act (a.value ρ) (b.value ρ) = some y →
      Keeps ρ (op a b) y)
    (hcompile : (do let a ← compile v f; let b ← compile v g; return op a b) = Except.ok e)
    (hdenote : (do let u ← f.denote I; let w ← g.denote I; act u w) = some x) : Keeps ρ e x := by
  obtain ⟨a, b, ha, hb, rfl⟩ := operands_of_compile hcompile
  obtain ⟨u, hu, hrest⟩ := Option.bind_eq_some_iff.mp hdenote
  obtain ⟨w, hw, hvalue⟩ := Option.bind_eq_some_iff.mp hrest
  obtain ⟨hda, rfl⟩ := hf ha hu
  obtain ⟨hdb, rfl⟩ := hg hb hw
  exact hop hda hdb hvalue

lemma keeps_add {a b : Expr α} (ha : a.Defined ρ) (hb : b.Defined ρ) :
    Keeps ρ (.add [a, b]) (a.value ρ + b.value ρ) := by
  have hterms : ∀ t ∈ [a, b], t.Defined ρ := by simpa using ⟨ha, hb⟩
  exact ⟨Expr.defined_add hterms, by rw [Expr.value_add hterms]; simp⟩

lemma keeps_mul {a b : Expr α} (ha : a.Defined ρ) (hb : b.Defined ρ) :
    Keeps ρ (.mul [a, b]) (a.value ρ * b.value ρ) := by
  have hfactors : ∀ t ∈ [a, b], t.Defined ρ := by simpa using ⟨ha, hb⟩
  exact ⟨Expr.defined_mul hfactors, by rw [Expr.value_mul hfactors]; simp⟩

lemma keeps_name {s : String} {x : ℝ} (h : (Interpretation.formula v ρ).name s = some x) :
    Keeps ρ (identifier v s : Expr α) x := by
  have hsymbol (hs : ρ s = some x) : Keeps ρ (.symbol s : Expr α) x :=
    ⟨(Expr.defined_symbol ρ s).mpr (by simp [hs]), by simp [hs]⟩
  simp only [Interpretation.formula] at h
  unfold identifier
  split_ifs at h ⊢
  · exact hsymbol h
  · cases hc : Constant.ofName? s with
    | some c =>
      simp only [hc, Option.some.injEq] at h
      exact ⟨Expr.defined_constant ρ c, (Expr.value_constant ρ c).trans h⟩
    | none =>
      simp only [hc] at h
      exact hsymbol h

lemma keeps_application {f : String} {es : List (Expr α)} {e : Expr α} {xs : List ℝ} {x : ℝ}
    (hes : List.Forall₂ (Keeps ρ) es xs) (hcompile : application v f es = .ok e)
    (hdenote : (Interpretation.formula v ρ).call f xs = some x) : Keeps ρ e x := by
  unfold application at hcompile
  simp only [Interpretation.formula] at hdenote
  split_ifs at hcompile hdenote with hv hroot
  · split at hcompile
    · next b =>
      cases hcompile
      obtain ⟨u, us, ⟨hb, rfl⟩, hnil, rfl⟩ := List.forall₂_cons_left_iff.mp hes
      obtain rfl := List.forall₂_nil_left_iff.mp hnil
      obtain ⟨hnonneg, rfl⟩ := root?_eq_some hdenote
      have hpower : PowerDefined (b.value ρ) ((.number Scalar.half : Expr α).value ρ) :=
        ⟨fun hneg => absurd hneg hnonneg.not_gt, fun _ => by simp⟩
      refine ⟨Expr.defined_pow hb (Expr.defined_number ρ _) hpower, ?_⟩
      rw [Expr.value_pow hb (Expr.defined_number ρ _) hpower, Real.sqrt_eq_rpow]
      simp
    · cases hcompile
  · split at hcompile
    · cases hcompile
    · next g hg =>
      split_ifs at hcompile
      cases hcompile
      rw [hg, Option.bind_some, Elementary.real?] at hdenote
      split_ifs at hdenote with hdefined
      obtain ⟨hd, rfl⟩ := keeps_all hes
      exact ⟨Expr.defined_apply hd hdefined,
        (Expr.value_apply hd hdefined).trans (Option.some.inj hdenote)⟩

mutual
theorem keeps_compile {f : Formula} {e : Expr α} {x : ℝ} (hcompile : compile v f = .ok e)
    (hdenote : f.denote (.formula v ρ) = some x) : Keeps ρ e x := by
  cases f with
  | number literal =>
    rw [compile] at hcompile
    split at hcompile
    · next y hy =>
      cases hcompile
      rw [denote] at hdenote
      refine ⟨Expr.defined_number ρ _, ?_⟩
      rw [Expr.value_number, ExactNumeral.toReal_ofDecimal hy]
      exact Option.some.inj hdenote
    · cases hcompile
  | name s =>
    rw [compile] at hcompile
    cases hcompile
    rw [denote] at hdenote
    exact keeps_name hdenote
  | call f args =>
    rw [compile] at hcompile
    obtain ⟨es, hes, hcall⟩ := bind_eq_ok.mp hcompile
    obtain ⟨xs, hxs, hvalue⟩ := Option.bind_eq_some_iff.mp (by rwa [denote] at hdenote)
    exact keeps_application (keeps_compileAll hes hxs) hcall hvalue
  | negation f =>
    rw [compile] at hcompile
    obtain ⟨a, ha, hresult⟩ := bind_eq_ok.mp hcompile
    cases hresult
    obtain ⟨u, hu, hvalue⟩ := Option.bind_eq_some_iff.mp (by rwa [denote] at hdenote)
    cases hvalue
    obtain ⟨hda, rfl⟩ := keeps_compile ha hu
    exact ⟨Expr.defined_neg hda, Expr.value_neg hda⟩
  | sum f g =>
    rw [denote] at hdenote
    refine keeps_operands keeps_compile keeps_compile (fun ha hb hy => ?_) hcompile hdenote
    cases hy
    exact keeps_add ha hb
  | difference f g =>
    rw [denote] at hdenote
    refine keeps_operands keeps_compile keeps_compile (fun ha hb hy => ?_) hcompile hdenote
    cases hy
    exact ⟨Expr.defined_sub ha hb, Expr.value_sub ha hb⟩
  | product f g =>
    rw [denote] at hdenote
    refine keeps_operands keeps_compile keeps_compile (fun ha hb hy => ?_) hcompile hdenote
    cases hy
    exact keeps_mul ha hb
  | quotient f g =>
    rw [denote] at hdenote
    refine keeps_operands keeps_compile keeps_compile (fun ha hb hy => ?_) hcompile hdenote
    split_ifs at hy with hzero
    cases hy
    exact ⟨Expr.defined_div ha hb hzero, Expr.value_div ha hb hzero⟩
  | power f g =>
    rw [denote] at hdenote
    refine keeps_operands keeps_compile keeps_compile (fun ha hb hy => ?_) hcompile hdenote
    obtain ⟨hpower, rfl⟩ := power?_eq_some hy
    exact ⟨Expr.defined_pow ha hb hpower, Expr.value_pow ha hb hpower⟩
theorem keeps_compileAll {fs : List Formula} {es : List (Expr α)} {xs : List ℝ}
    (hcompile : compileAll v fs = .ok es) (hdenote : denoteAll (.formula v ρ) fs = some xs) :
    List.Forall₂ (Keeps ρ) es xs := by
  match fs with
  | [] =>
    cases hcompile
    cases hdenote
    exact .nil
  | f :: fs =>
    rw [compileAll] at hcompile
    rw [denoteAll] at hdenote
    obtain ⟨a, ha, hrest⟩ := bind_eq_ok.mp hcompile
    obtain ⟨bs, hbs, hresult⟩ := bind_eq_ok.mp hrest
    obtain ⟨u, hu, hmore⟩ := Option.bind_eq_some_iff.mp hdenote
    obtain ⟨ws, hws, hvalue⟩ := Option.bind_eq_some_iff.mp hmore
    cases hresult
    cases hvalue
    exact .cons (keeps_compile ha hu) (keeps_compileAll hbs hws)
end

/-- The formula is compiled without a fault. -/
def Compiles (α : Type) [Numeral α] (v : Vocabulary) (f : Formula) : Prop :=
  ∃ e : Expr α, compile v f = .ok e

lemma compiles_name (s : String) : Compiles α v (name s) := ⟨identifier v s, rfl⟩

lemma Compiles.negation {f : Formula} (h : Compiles α v f) : Compiles α v (negation f) := by
  obtain ⟨e, he⟩ := h
  exact ⟨e.neg, by rw [compile, he]; rfl⟩

lemma Compiles.joins {f g h : Formula} {combine : Expr α → Expr α → Expr α} (hf : Compiles α v f)
    (hg : Compiles α v g) (hop : Joins h f g combine) : Compiles α v h := by
  obtain ⟨a, ha⟩ := hf
  obtain ⟨b, hb⟩ := hg
  exact ⟨combine a b, by rw [compile_joins hop, ha, hb]; rfl⟩

lemma compiles_all {fs : List Formula} (h : ∀ f ∈ fs, Compiles α v f) :
    ∃ es : List (Expr α), compileAll v fs = .ok es ∧ es.length = fs.length := by
  induction fs with
  | nil => exact ⟨[], rfl, rfl⟩
  | cons f fs ih =>
    rw [List.forall_mem_cons] at h
    obtain ⟨e, he⟩ := h.1
    obtain ⟨es, hes, hlength⟩ := ih h.2
    exact ⟨e :: es, by rw [compileAll, he, hes]; rfl, by simp [hlength]⟩

lemma compiles_root (hv : v.LeavesNames) {f : Formula} (h : Compiles α v f) :
    Compiles α v (call "sqrt" [f]) := by
  obtain ⟨e, he⟩ := h
  refine ⟨e.pow (.number Scalar.half), ?_⟩
  simp [compile, compileAll, he, bind, Except.bind, pure, Except.pure, application, hv.root]

lemma compiles_call (hv : v.LeavesNames) {f : Elementary} {fs : List Formula}
    (hlength : fs.length = f.arity) (h : ∀ g ∈ fs, Compiles α v g) :
    Compiles α v (call f.name fs) := by
  obtain ⟨es, hes, heslength⟩ := compiles_all h
  have hroot : f.name ≠ "sqrt" := by cases f <;> decide
  refine ⟨.apply f es, ?_⟩
  simp [compile, hes, bind, Except.bind, application, hv.function, hroot, heslength, hlength]

lemma compiles_number [SpelledNumeral α] (literal : String) : Compiles α v (number literal) := by
  obtain ⟨x, hx⟩ := Option.isSome_iff_exists.mp (SpelledNumeral.ofDecimal?_isSome (α := α)
    (decimalOfLiteral literal.toList).1 (decimalOfLiteral literal.toList).2)
  exact ⟨.number x, by simp only [compile, literalValue?, hx]⟩

lemma compositional_compiles : Compositional (Compiles α v) where
  negation h := h.negation
  sum hf hg := hf.joins hg (.sum _ _)
  difference hf hg := hf.joins hg (.difference _ _)
  product hf hg := hf.joins hg (.product _ _)
  quotient hf hg := hf.joins hg (.quotient _ _)

end Formula

namespace Layout
variable {α : Type} [ExactNumeral α] {v : Vocabulary}

/-- All factors of the layout are compiled without a fault. -/
def Compiles (α : Type) [Numeral α] (v : Vocabulary) (l : Layout) : Prop :=
  ∀ i ∈ l.items, i.2.Compiles α v

lemma Compiles.formula {l : Layout} (h : l.Compiles α v) : l.formula.Compiles α v :=
  All.formula Formula.compositional_compiles h

end Layout

namespace Expr
open Layout Formula
variable {α : Type} [ExactNumeral α] [SpelledNumeral α] {v : Vocabulary}

lemma compiles_numeral (d : Dialect) (x : α) (divides : Bool) :
    (d.numeral x divides).Compiles α v := by
  have hunsigned (cs : List Char) : (Dialect.unsignedFormula cs).Compiles α v := by
    unfold Dialect.unsignedFormula
    split_ifs
    · exact compiles_number _
    · exact compiles_name _
  unfold Dialect.numeral Dialect.numberFormula
  split
  · exact (hunsigned _).negation
  · exact hunsigned _

lemma writing_compiles (hv : v.LeavesNames) (Named : String → Prop) :
    Writing .formula (Formed Named : Expr α → Prop) (Formula.Compiles α v) where
  toCompositional := compositional_compiles
  inherited := hereditary_formed.toInherited
  numeral := compiles_numeral .formula
  symbol _ := compiles_name _
  constant _ := compiles_name _
  empty _ := compiles_name _
  root := compiles_root hv
  power hf hg := hf.joins hg (.power _ _)
  call h hlength hgs := by
    cases h with
    | call harity _ => exact compiles_call hv (hlength.trans harity) hgs

theorem compiles_layoutIn (hv : v.LeavesNames) {Named : String → Prop} {rounds : ℕ} {e : Expr α}
    (he : Formed Named e) (hrounds : e.bulk < rounds) :
    (layoutIn .formula rounds e).Compiles α v :=
  (writing_compiles hv Named).layoutIn he hrounds

/-- What an expression is written as is parsed again, as an expression with its values. -/
theorem parse_toFormula {e : Expr α} (he : Formed (fun s => Token.IsName s.toList) e)
    (hv : v.LeavesNames) (hnames : ∀ s, e.contains s = true → v.contains s = true) :
    ∃ e' : Expr α, parse v e.toFormula = .ok e' ∧
      ∀ ρ, e.Defined ρ → e'.Defined ρ ∧ e'.value ρ = e.value ρ := by
  obtain ⟨e', hcompile⟩ := (compiles_layoutIn hv he e.bulk_lt_rounds).formula
  refine ⟨e', ?_, fun ρ hd => ?_⟩
  · rw [parse, toFormula, read_print .formula he.writable]
    exact hcompile
  · have hsymbols := he.of_contains fun s hs _ => hnames s hs
    exact keeps_compile hcompile (denote_written (suits_formula hv ρ) hsymbols hd)

/-- Whatever is obtained is written as a formula that is parsed again, in every vocabulary that has
its symbols and leaves their meanings to all other names, as an expression with the same values. -/
theorem parse_toFormula_value {e : Expr ExactDecimal} (he : Obtained e) {v : Vocabulary}
    (hv : v.LeavesNames) (hnames : ∀ s, e.contains s = true → v.contains s = true)
    (hprint : LimitFree fun limit => @toFormula ExactDecimal (ExactDecimal.numeral limit) e)
    (hparse : LimitFree fun limit =>
      @parse ExactDecimal (ExactDecimal.numeral limit) v e.toFormula) :
    ∃ e' : Expr ExactDecimal, parse v e.toFormula = .ok e' ∧
      ∀ ρ, e.Defined ρ → e'.Defined ρ ∧ e'.value ρ = e.value ρ := by
  have hlimit : 10 ^ 15 ≤ 10 ^ 15 := le_rfl
  obtain ⟨e', hread, hvalue⟩ := @parse_toFormula ExactDecimal (ExactDecimal.exactNumeral hlimit)
    (ExactDecimal.spelledNumeral hlimit) v e he.formed hv hnames
  have htext : e.toFormula = @toFormula ExactDecimal (ExactDecimal.numeral (10 ^ 15)) e :=
    hprint.eq_exact
  refine ⟨e', ?_, hvalue⟩
  rw [← htext] at hread
  exact hparse.eq_exact.trans hread

/-- Signs, a quotient, a root and a power of a negative base, where `x` is `-1` and `y` is `1`. -/
theorem parse_toFormula_value_signs :
    ∃ e e' : Expr ExactDecimal,
      parse ⟨["x", "y"]⟩ "-2/(x*sqrt(y)) - (-x)**y*2.5" = .ok e ∧
      e.toFormula = "-2/(x*sqrt(y)) - 2.5*(-x)**y" ∧
      parse ⟨["x", "y"]⟩ "-2/(x*sqrt(y)) - 2.5*(-x)**y" = .ok e' ∧
      e'.Defined (fun s => if s = "x" then some (-1) else some 1) ∧
      e'.value (fun s => if s = "x" then some (-1) else some 1) = -1 / 2 := by
  let quotient : Expr ExactDecimal :=
    power (product [symbol "x", power (symbol "y") (number ⟨5, -1⟩)]) (number ⟨-1, 0⟩)
  let negated : Expr ExactDecimal := power (product [number ⟨-1, 0⟩, symbol "x"]) (symbol "y")
  let e : Expr ExactDecimal :=
    sum [product [number ⟨-2, 0⟩, quotient], product [number ⟨-25, -1⟩, negated]]
  have hnames (s : String) (hs : e.contains s = true) :
      Vocabulary.contains ⟨["x", "y"]⟩ s = true := by
    simp [e, quotient, negated, contains, containsAny] at hs
    simp [Vocabulary.contains]
    tauto
  have hparse : parse ⟨["x", "y"]⟩ "-2/(x*sqrt(y)) - (-x)**y*2.5" = .ok e := by cbv
  have htext (limit : ℕ) : @toFormula ExactDecimal (ExactDecimal.numeral limit) e =
      "-2/(x*sqrt(y)) - 2.5*(-x)**y" := by cbv
  have hagain (limit : ℕ) : @parse ExactDecimal (ExactDecimal.numeral limit) ⟨["x", "y"]⟩
      "-2/(x*sqrt(y)) - 2.5*(-x)**y" = .ok e := by cbv
  have hvocabulary : Vocabulary.LeavesNames ⟨["x", "y"]⟩ :=
    ⟨by rintro ⟨⟩ <;> decide, by decide, by rintro ⟨⟩ <;> decide⟩
  have htextMachine : e.toFormula = "-2/(x*sqrt(y)) - 2.5*(-x)**y" := htext _
  obtain ⟨parsed, hparsed, hvalue⟩ := parse_toFormula_value (.parse hparse) hvocabulary hnames
    (.of_eq _ fun limit _ => htext limit)
    (by rw [htextMachine]; exact .of_eq _ fun limit _ => hagain limit)
  rw [htextMachine] at hparsed
  have hone (w : ℝ) : PowerDefined 1 w := .of_pos one_pos w
  have hd : e.Defined (fun s => if s = "x" then some (-1) else some 1) := by
    have hminus : PowerDefined (-1) (-1) := by
      simpa using PowerDefined.of_int (u := -1) (-1) (by norm_num)
    simp [e, quotient, negated, hone, hminus, ExactDecimal.toReal_eq]
  have hresult : e.value (fun s => if s = "x" then some (-1) else some 1) = -1 / 2 := by
    simp [e, quotient, negated, ExactDecimal.toReal_eq, Real.rpow_neg_one]
    norm_num
  obtain ⟨hparsedDefined, hparsedValue⟩ := hvalue _ hd
  exact ⟨e, parsed, hparse, htextMachine, hparsed, hparsedDefined, hparsedValue.trans hresult⟩

end Expr

end EquationCompiler
