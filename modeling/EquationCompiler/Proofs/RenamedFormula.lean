import EquationCompiler.Proofs.Renaming

/-!
# Reading with other names

If the names among the tokens are replaced, the formula that is read has the names
replaced, and reading ends at the same token if it fails. A renaming that is one to
one and leaves the constants and functions alone passes on to the expression, if the
vocabulary is renamed too.
-/
namespace EquationCompiler

/-- Both computations succeed, with related results, or both fail, for related reasons. -/
inductive Alike {ε δ β γ : Type} (F : ε → δ → Prop) (R : β → γ → Prop) :
    Except ε β → Except δ γ → Prop
  | ok {b : β} {c : γ} (h : R b c) : Alike F R (.ok b) (.ok c)
  | error {x : ε} {y : δ} (h : F x y) : Alike F R (.error x) (.error y)

theorem Alike.bind {ε δ β γ β' γ' : Type} {F : ε → δ → Prop} {R : β → γ → Prop}
    {S : β' → γ' → Prop} {x : Except ε β} {y : Except δ γ} {k : β → Except ε β'}
    {l : γ → Except δ γ'} (h : Alike F R x y) (hk : ∀ b c, R b c → Alike F S (k b) (l c)) :
    Alike F S (x >>= k) (y >>= l) := by
  cases h with
  | ok h => exact hk _ _ h
  | error h => exact .error h

variable {r : String → String}

namespace Token

def rename (r : String → String) : Token → Token
  | name s => name (r s)
  | t => t

end Token

namespace Formula

mutual
/-- The formula with all its names replaced, those that are applied too. -/
def rename (r : String → String) : Formula → Formula
  | number literal => number literal
  | name s => name (r s)
  | call f args => call (r f) (renameAll r args)
  | negation f => negation (rename r f)
  | sum f g => sum (rename r f) (rename r g)
  | difference f g => difference (rename r f) (rename r g)
  | product f g => product (rename r f) (rename r g)
  | quotient f g => quotient (rename r f) (rename r g)
  | power f g => power (rename r f) (rename r g)
def renameAll (r : String → String) : List Formula → List Formula
  | [] => []
  | f :: fs => rename r f :: renameAll r fs
end

/-- The same was expected. -/
def SameExpected (a b : Obstacle) : Prop := b.expected = a.expected

/-- What has been read and the tokens after it, with the names replaced. -/
def Renamed (r : String → String) (a b : Formula × List Token) : Prop :=
  b = (a.1.rename r, a.2.map (Token.rename r))

def RenamedArguments (r : String → String) (a b : List Formula × List Token) : Prop :=
  b = (renameAll r a.1, a.2.map (Token.rename r))

mutual
theorem readSum_rename (depth : Nat) (expected : Expected) (ts : List Token) :
    Alike SameExpected (Renamed r) (readSum depth expected ts)
      (readSum depth expected (ts.map (Token.rename r))) := by
  cases depth with
  | zero => exact .error rfl
  | succ depth =>
    refine (readTerm_rename depth expected ts).bind ?_
    rintro ⟨f, rest⟩ _ rfl
    exact readTerms_rename depth f rest
theorem readTerms_rename (depth : Nat) (f : Formula) (ts : List Token) :
    Alike SameExpected (Renamed r) (readTerms depth f ts)
      (readTerms depth (f.rename r) (ts.map (Token.rename r))) := by
  cases depth with
  | zero => exact .ok rfl
  | succ depth =>
    rcases ts with _ | ⟨t, ts⟩
    · exact .ok rfl
    · cases t
      case plus | minus =>
        refine (readTerm_rename depth .operand ts).bind ?_
        rintro ⟨g, rest⟩ _ rfl
        exact readTerms_rename depth _ rest
      all_goals exact .ok rfl
theorem readTerm_rename (depth : Nat) (expected : Expected) (ts : List Token) :
    Alike SameExpected (Renamed r) (readTerm depth expected ts)
      (readTerm depth expected (ts.map (Token.rename r))) := by
  cases depth with
  | zero => exact .error rfl
  | succ depth =>
    refine (readSigned_rename depth expected ts).bind ?_
    rintro ⟨f, rest⟩ _ rfl
    exact readFactors_rename depth f rest
theorem readFactors_rename (depth : Nat) (f : Formula) (ts : List Token) :
    Alike SameExpected (Renamed r) (readFactors depth f ts)
      (readFactors depth (f.rename r) (ts.map (Token.rename r))) := by
  cases depth with
  | zero => exact .ok rfl
  | succ depth =>
    rcases ts with _ | ⟨t, ts⟩
    · exact .ok rfl
    · cases t
      case star | slash =>
        refine (readSigned_rename depth .operand ts).bind ?_
        rintro ⟨g, rest⟩ _ rfl
        exact readFactors_rename depth _ rest
      all_goals exact .ok rfl
theorem readSigned_rename (depth : Nat) (expected : Expected) (ts : List Token) :
    Alike SameExpected (Renamed r) (readSigned depth expected ts)
      (readSigned depth expected (ts.map (Token.rename r))) := by
  cases depth with
  | zero => exact .error rfl
  | succ depth =>
    rcases ts with _ | ⟨t, ts⟩
    · exact readPower_rename depth expected []
    · cases t
      case minus =>
        refine (readSigned_rename depth .operand ts).bind ?_
        rintro ⟨g, rest⟩ _ rfl
        exact .ok rfl
      case plus => exact readSigned_rename depth .operand ts
      all_goals exact readPower_rename depth expected _
theorem readPower_rename (depth : Nat) (expected : Expected) (ts : List Token) :
    Alike SameExpected (Renamed r) (readPower depth expected ts)
      (readPower depth expected (ts.map (Token.rename r))) := by
  cases depth with
  | zero => exact .error rfl
  | succ depth =>
    refine (readOperand_rename depth expected ts).bind ?_
    rintro ⟨f, rest⟩ _ rfl
    rcases rest with _ | ⟨t, rest⟩
    · exact .ok rfl
    · cases t
      case power =>
        refine (readSigned_rename depth .operand rest).bind ?_
        rintro ⟨g, rest⟩ _ rfl
        exact .ok rfl
      all_goals exact .ok rfl
theorem readOperand_rename (depth : Nat) (expected : Expected) (ts : List Token) :
    Alike SameExpected (Renamed r) (readOperand depth expected ts)
      (readOperand depth expected (ts.map (Token.rename r))) := by
  cases depth with
  | zero => exact .error rfl
  | succ depth =>
    rcases ts with _ | ⟨t, ts⟩
    · exact .error rfl
    · cases t
      case number literal => exact .ok rfl
      case name s =>
        rcases ts with _ | ⟨u, ts⟩
        · exact .ok rfl
        · cases u
          case opening =>
            refine (readSum_rename depth .expression ts).bind ?_
            rintro ⟨arg, rest⟩ _ rfl
            refine (readArguments_rename depth rest).bind ?_
            rintro ⟨args, rest⟩ _ rfl
            exact .ok rfl
          all_goals exact .ok rfl
      case opening =>
        refine (readSum_rename depth .expression ts).bind ?_
        rintro ⟨f, rest⟩ _ rfl
        rcases rest with _ | ⟨u, rest⟩
        · exact .error rfl
        · cases u
          case closing => exact .ok rfl
          all_goals exact .error rfl
      all_goals exact .error rfl
theorem readArguments_rename (depth : Nat) (ts : List Token) :
    Alike SameExpected (RenamedArguments r) (readArguments depth ts)
      (readArguments depth (ts.map (Token.rename r))) := by
  cases depth with
  | zero => exact .error rfl
  | succ depth =>
    rcases ts with _ | ⟨t, ts⟩
    · exact .error rfl
    · cases t
      case closing => exact .ok rfl
      case comma =>
        refine (readSum_rename depth .expression ts).bind ?_
        rintro ⟨arg, rest⟩ _ rfl
        refine (readArguments_rename depth rest).bind ?_
        rintro ⟨args, rest⟩ _ rfl
        exact .ok rfl
      all_goals exact .error rfl
end

theorem ofTokens_rename (ts : List Token) :
    Alike SameExpected (fun f g => g = f.rename r) (ofTokens ts)
      (ofTokens (ts.map (Token.rename r))) := by
  unfold ofTokens
  rw [List.length_map]
  refine (readSum_rename _ .expression ts).bind ?_
  rintro ⟨f, rest⟩ _ rfl
  cases rest with
  | nil => exact .ok rfl
  | cons t rest => exact .error rfl

end Formula

/-- The names that formulas give a meaning to: constants, the square root and functions. -/
def builtinNames : List String :=
  Constant.pi.name :: Constant.e.name :: "sqrt" :: Elementary.all.map Elementary.name

/-- The same fault, whatever the names and the columns. -/
inductive ExprFault.SameKind : ExprFault → ExprFault → Prop
  | unreadable (expected : Expected) (column column' : Nat) :
    SameKind (.unreadable expected column) (.unreadable expected column')
  | invalidNumber (literal : String) : SameKind (.invalidNumber literal) (.invalidNumber literal)
  | unknownFunction (f g : String) : SameKind (.unknownFunction f) (.unknownFunction g)
  | notCallable (f g : String) : SameKind (.notCallable f) (.notCallable g)
  | arity (f g : String) (expected found : Nat) :
    SameKind (.arity f expected found) (.arity g expected found)
  | nonFinite (value : String) : SameKind (.nonFinite value) (.nonFinite value)

/-- The renaming is one to one and leaves the names alone that have a meaning. -/
structure IsRenaming (r : String → String) : Prop where
  injective : Function.Injective r
  builtin : ∀ s ∈ builtinNames, r s = s

namespace IsRenaming
variable (hr : IsRenaming r)
include hr

lemma eq_builtin_iff {s t : String} (ht : t ∈ builtinNames) : r s = t ↔ s = t :=
  hr.injective.eq_iff' (hr.builtin t ht)

lemma constant_ofName? (s : String) : Constant.ofName? (r s) = Constant.ofName? s := by
  simp only [Constant.ofName?, hr.eq_builtin_iff (t := "pi") (by decide),
    hr.eq_builtin_iff (t := "E") (by decide)]

lemma elementary_ofName? (s : String) : Elementary.ofName? (r s) = Elementary.ofName? s := by
  have hname (f : Elementary) : f.name = r s ↔ f.name = s := by
    have hmem : f.name ∈ builtinNames := by
      simp [builtinNames, Elementary.mem_all]
    rw [eq_comm, hr.eq_builtin_iff hmem, eq_comm]
  simp only [Elementary.ofName?, hname]

end IsRenaming

namespace Formula
variable {α : Type} {v w : Vocabulary}

/-- The same names are in the vocabulary before and after they are replaced. -/
def SameNames (r : String → String) (v w : Vocabulary) : Prop :=
  ∀ s, w.contains (r s) = v.contains s

lemma identifier_rename (hr : IsRenaming r) (hv : SameNames r v w) (s : String) :
    (identifier w (r s) : Expr α) = (identifier v s).rename r := by
  unfold identifier
  rw [hv, hr.constant_ofName?]
  split_ifs
  · rfl
  · cases Constant.ofName? s <;> rfl

variable [Numeral α]

lemma application_rename (hr : IsRenaming r) (hv : SameNames r v w) (f : String)
    (args : List (Expr α)) :
    Alike ExprFault.SameKind (fun e e' => e' = e.rename r) (application v f args)
      (application w (r f) (args.map (Expr.rename r))) := by
  unfold application
  rw [hv, hr.elementary_ofName?, List.length_map]
  simp only [hr.eq_builtin_iff (t := "sqrt") (by decide)]
  split_ifs
  · exact .error (.notCallable f _)
  · match args with
    | [e] => exact .ok (Expr.pow_rename hr.injective e (.number Scalar.half))
    | [] | _ :: _ :: _ =>
      simp only [List.map_cons, List.map_nil]
      exact .error (.arity f _ 1 _)
  · cases Elementary.ofName? f with
    | none => exact .error (.unknownFunction f _)
    | some g =>
      dsimp only
      split_ifs
      · exact .ok (Expr.apply_rename g args)
      · exact .error (.arity f _ _ _)

omit [Numeral α] in
/-- An operation that commutes with the renaming, applied to operands that are renamed. -/
lemma operands_rename {x x' y y' : Except ExprFault (Expr α)} {op : Expr α → Expr α → Expr α}
    (hop : ∀ a b, op (a.rename r) (b.rename r) = (op a b).rename r)
    (hx : Alike ExprFault.SameKind (fun e e' => e' = e.rename r) x x')
    (hy : Alike ExprFault.SameKind (fun e e' => e' = e.rename r) y y') :
    Alike ExprFault.SameKind (fun e e' => e' = e.rename r)
      (do let a ← x; let b ← y; return op a b) (do let a ← x'; let b ← y'; return op a b) := by
  refine hx.bind ?_
  rintro a _ rfl
  refine hy.bind ?_
  rintro b _ rfl
  exact .ok (hop a b)

mutual
theorem compile_rename (hr : IsRenaming r) (hv : SameNames r v w) (f : Formula) :
    Alike ExprFault.SameKind (fun e e' => e' = e.rename r) (f.compile v : Except _ (Expr α))
      ((f.rename r).compile w) := by
  cases f with
  | number literal =>
    rw [rename, compile, compile]
    cases (literalValue? literal : Option α) with
    | none => exact .error (.invalidNumber literal)
    | some x => exact .ok rfl
  | name s => exact .ok (identifier_rename hr hv s)
  | call f args =>
    refine (compileAll_rename hr hv args).bind ?_
    rintro es _ rfl
    exact application_rename hr hv f es
  | negation f =>
    refine (compile_rename hr hv f).bind ?_
    rintro a _ rfl
    exact .ok (Expr.neg_rename hr.injective a)
  | sum f g =>
    exact operands_rename (fun a b => Expr.add_rename hr.injective [a, b])
      (compile_rename hr hv f) (compile_rename hr hv g)
  | difference f g =>
    exact operands_rename (Expr.sub_rename hr.injective)
      (compile_rename hr hv f) (compile_rename hr hv g)
  | product f g =>
    exact operands_rename (fun a b => Expr.mul_rename hr.injective [a, b])
      (compile_rename hr hv f) (compile_rename hr hv g)
  | quotient f g =>
    exact operands_rename (Expr.div_rename hr.injective)
      (compile_rename hr hv f) (compile_rename hr hv g)
  | power f g =>
    exact operands_rename (Expr.pow_rename hr.injective)
      (compile_rename hr hv f) (compile_rename hr hv g)
theorem compileAll_rename (hr : IsRenaming r) (hv : SameNames r v w) (fs : List Formula) :
    Alike ExprFault.SameKind (fun es es' => es' = es.map (Expr.rename r))
      (compileAll v fs : Except _ (List (Expr α))) (compileAll w (renameAll r fs)) := by
  match fs with
  | [] => exact .ok rfl
  | f :: fs =>
    refine (compile_rename hr hv f).bind ?_
    rintro e _ rfl
    refine (compileAll_rename hr hv fs).bind ?_
    rintro es _ rfl
    exact .ok rfl
end

end Formula

end EquationCompiler
