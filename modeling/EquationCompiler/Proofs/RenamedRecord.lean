import EquationCompiler.Number.Machine
import EquationCompiler.Proofs.RenamedText
import EquationCompiler.Proofs.Scope

/-!
# Records with other names

The names of the parameters and of the substitutions may be replaced in all the texts
of a record at once, one to one, if the constants and functions are left alone. The
equation is the same then but for the names, down to the order of the terms. Only a
record that cannot be read may be read afterwards: a name that stands directly after
a number may turn into an exponent.
-/
namespace EquationCompiler

def respellText (r : String → String) (text : String) : String :=
  String.ofList (Token.respell r text.toList)

namespace Record

/-- The record with its names replaced, but for that of the function. -/
def rename (r : String → String) (record : Record) : Record :=
  { record with
    parameters := record.parameters.map r
    substitutions := record.substitutions.map fun s => ⟨r s.name, respellText r s.text⟩
    expression := respellText r record.expression }

/-- The names in a record, but for that of the function. -/
def identifiers (record : Record) : List String :=
  record.parameters ++ record.substitutions.map (·.name) ++
    record.texts.flatMap fun text => (Token.uses (Token.tokens text.toList)).map (·.name)

/-- The renaming leaves the constants and functions alone, and gives to all other names in the
record new ones, one to one, that are not those of constants or functions. -/
structure IsRenamedBy (r : String → String) (record : Record) : Prop where
  builtin : ∀ s ∈ builtinNames, r s = s
  injOn : Set.InjOn r {s | s ∈ record.identifiers ∧ s ∉ builtinNames}
  name : ∀ s ∈ record.identifiers, s ∉ builtinNames →
    Token.IsName (r s).toList ∧ r s ∉ builtinNames

instance (r : String → String) (record : Record) : Decidable (record.IsRenamedBy r) :=
  decidable_of_iff ((∀ s ∈ builtinNames, r s = s) ∧
      (∀ s ∈ record.identifiers, ∀ t ∈ record.identifiers, s ∉ builtinNames → t ∉ builtinNames →
        r s = r t → s = t) ∧
      ∀ s ∈ record.identifiers, s ∉ builtinNames → Token.IsName (r s).toList ∧ r s ∉ builtinNames)
    ⟨fun h => ⟨h.1, fun s hs t ht => h.2.1 s hs.1 t ht.1 hs.2 ht.2, h.2.2⟩,
      fun h => ⟨h.builtin, fun _ hs _ ht hsb htb => h.injOn ⟨hs, hsb⟩ ⟨ht, htb⟩, h.name⟩⟩

end Record

def Equation.rename {α : Type} (r : String → String) (e : Equation α) : Equation α :=
  { e with
    parameters := e.parameters.map r
    substitutions := e.substitutions.map fun s => ⟨r s.name, respellText r s.text⟩
    expression := e.expression.rename r }

/-- The same fault in an expression of the same function. -/
inductive Failure.SameKind : Failure → Failure → Prop
  | uncompilable (function text text' : String) {cause cause' : ExprFault}
    (h : cause.SameKind cause') :
    SameKind (.uncompilable function text cause) (.uncompilable function text' cause')

variable {r : String → String}

namespace Formula

theorem read_rename {text : String} (hunglued : Token.Unglued text.toList)
    (hnames : ∀ s, Token.name s ∈ Token.tokens text.toList → Token.IsName (r s).toList) :
    Alike ExprFault.SameKind (fun f g => g = f.rename r) (read text)
      (read (respellText r text)) := by
  have htokens := Token.tokens_respell hunglued hnames
  have hread := ofTokens_rename (r := r) (Token.tokens text.toList)
  rw [← htokens] at hread
  rw [read_eq_descend, read_eq_descend, descend, descend, respellText, String.toList_ofList]
  generalize ofTokens (Token.tokens text.toList) = x at hread ⊢
  generalize ofTokens (Token.tokens (Token.respell r text.toList)) = y at hread ⊢
  cases hread with
  | ok h => exact .ok h
  | @error a b h =>
    change b.expected = a.expected at h
    dsimp only
    rw [h]
    exact .error (.unreadable _ _ _)

end Formula

namespace Equation
variable {α : Type} [Numeral α]

/-- All names in a text have names as images, and none stands directly after a number. -/
structure Respellable (r : String → String) (text : String) : Prop where
  unglued : Token.Unglued text.toList
  name : ∀ s, Token.name s ∈ Token.tokens text.toList → Token.IsName (r s).toList

lemma compile_rename (hr : IsRenaming r) {v w : Vocabulary} (hv : Formula.SameNames r v w)
    (function : String) {text : String} (htext : Respellable r text) :
    Alike Failure.SameKind (fun e e' => e' = e.rename r)
      (compile function v text : Except _ (Expr α)) (compile function w (respellText r text)) := by
  have hparse : Alike ExprFault.SameKind (fun e e' => e' = e.rename r)
      (Expr.parse v text : Except _ (Expr α)) (Expr.parse w (respellText r text)) := by
    refine (Formula.read_rename htext.unglued htext.name).bind ?_
    rintro f _ rfl
    exact Formula.compile_rename hr hv f
  unfold compile
  generalize (Expr.parse v text : Except _ (Expr α)) = x at hparse ⊢
  generalize (Expr.parse w (respellText r text) : Except _ (Expr α)) = y at hparse ⊢
  cases hparse with
  | ok h => exact .ok h
  | error h => exact .error (.uncompilable function text _ h)

lemma substituteAll_rename (hr : Function.Injective r) (known : List (String × Expr α))
    (e : Expr α) : substituteAll (known.map (Prod.map r (Expr.rename r))) (e.rename r) =
      (substituteAll known e).rename r := by
  induction known generalizing e with
  | nil => rfl
  | cons entry known ih =>
    obtain ⟨name, value⟩ := entry
    have hstep := Expr.substitute_rename hr name value e
    simp only [substituteAll, List.map_cons, List.foldl_cons, Prod.map] at ih ⊢
    rw [hstep, ih]

/-- The second run is where the first one is, with other names. -/
structure Progress.Renamed (r : String → String) (p q : Progress α) : Prop where
  expression : q.expression = p.expression.rename r
  vocabulary : Formula.SameNames r p.vocabulary q.vocabulary
  known : q.known = p.known.map (Prod.map r (Expr.rename r))

omit [Numeral α] in
lemma sameNames_ofList (hr : Function.Injective r) (names : List String) :
    Formula.SameNames r (Vocabulary.ofList names) (Vocabulary.ofList (names.map r)) := by
  intro s
  rw [Bool.eq_iff_iff]
  simp [hr.eq_iff]

lemma step_rename (hr : IsRenaming r) (function : String) {p q : Progress α}
    (h : p.Renamed r q) {s : Substitution} (htext : Respellable r s.text) :
    Alike Failure.SameKind (Progress.Renamed r) (p.step function s)
      (q.step function ⟨r s.name, respellText r s.text⟩) := by
  refine (compile_rename hr h.vocabulary function htext).bind ?_
  rintro value _ rfl
  have hvalue := substituteAll_rename hr.injective p.known value
  rw [← h.known] at hvalue
  refine .ok ⟨?_, ?_, ?_⟩
  · rw [h.expression, hvalue]
    exact Expr.substitute_rename hr.injective s.name _ p.expression
  · intro t
    rw [Bool.eq_iff_iff]
    simp [h.vocabulary t, hr.injective.eq_iff]
  · show q.known ++ [(r s.name, substituteAll q.known (value.rename r))] = _
    rw [hvalue, h.known]
    simp

/-- By induction on the substitutions, in the order of application. -/
theorem run_rename (hr : IsRenaming r) (function : String) {subs : List Substitution}
    {p q : Progress α} (h : p.Renamed r q) (hsubs : ∀ s ∈ subs, Respellable r s.text) :
    Alike Failure.SameKind (Progress.Renamed r) (subs.foldlM (Progress.step function) p)
      ((subs.map fun s => ⟨r s.name, respellText r s.text⟩).foldlM (Progress.step function) q) := by
  induction subs generalizing p q with
  | nil => exact .ok h
  | cons s subs ih =>
    rw [List.forall_mem_cons] at hsubs
    rw [List.map_cons, List.foldlM_cons, List.foldlM_cons]
    exact (step_rename hr function h hsubs.1).bind fun _ _ h => ih h hsubs.2

/-- A record in which no name stands directly after a number is resolved to the renamed equation,
or refused for the same fault. -/
theorem resolve_rename (hr : IsRenaming r) {record : Record}
    (htexts : ∀ text ∈ record.texts, Respellable r text) :
    Alike Failure.SameKind (fun e e' => e' = e.rename r)
      (resolve record : Except _ (Equation α)) (resolve (record.rename r)) := by
  obtain ⟨hexpression, hsubs⟩ := List.forall_mem_cons.mp htexts
  rw [List.forall_mem_map] at hsubs
  have hall := sameNames_ofList hr.injective (record.parameters ++ record.substitutions.map (·.name))
  unfold resolve
  simp only [Record.rename, List.map_append, List.map_map, ← List.map_reverse] at hall ⊢
  refine (compile_rename hr hall record.name hexpression).bind ?_
  rintro e _ rfl
  have hstart : Progress.Renamed r (⟨e, Vocabulary.ofList record.parameters, []⟩ : Progress α)
      ⟨e.rename r, Vocabulary.ofList (record.parameters.map r), []⟩ :=
    ⟨rfl, sameNames_ofList hr.injective _, rfl⟩
  refine (run_rename hr record.name hstart fun s hs => hsubs s (List.mem_reverse.mp hs)).bind ?_
  intro p q hpq
  rw [hpq.expression, Expr.nonFinite?_rename]
  cases p.expression.nonFinite? with
  | some x => exact .error (.uncompilable _ _ _ (.nonFinite _))
  | none => exact .ok (by simp [rename])

end Equation

/-- A renaming that is one to one on some names goes on to all names: the others get a long mark in
front. -/
lemma exists_injective_eqOn {names : List String} (h : Set.InjOn r {s | s ∈ names}) :
    ∃ r' : String → String, Function.Injective r' ∧ ∀ s ∈ names, r' s = r s := by
  let mark : String := String.ofList (List.replicate ((names.map fun s => (r s).length).sum + 1) '_')
  have hmark (s : String) (hs : s ∈ names) (t : String) : r s ≠ mark ++ t := by
    intro heq
    have hle : (r s).length ≤ (names.map fun s => (r s).length).sum :=
      List.single_le_sum (by simp) _ (List.mem_map_of_mem hs)
    have hlength := congrArg String.length heq
    simp only [String.length_append, mark, String.length_ofList, List.length_replicate] at hlength
    omega
  refine ⟨fun s => if s ∈ names then r s else mark ++ s, fun s t hst => ?_, fun s hs => if_pos hs⟩
  dsimp only at hst
  split_ifs at hst with hs ht ht
  · exact h hs ht hst
  · exact absurd hst (hmark s hs t)
  · exact absurd hst.symm (hmark t ht s)
  · exact (String.append_right_inj mark).mp hst

namespace Token

lemma respell_congr {r' : String → String} {cs : List Char}
    (h : ∀ s, name s ∈ tokens cs → r' s = r s) : respell r' cs = respell r cs := by
  induction cs using scan_induction with
  | nil => rfl
  | blank hblank ih =>
    rw [tokens_cons_blank hblank] at h
    rw [respell_cons_blank hblank, respell_cons_blank hblank, ih h]
  | @token c cs hblank ih =>
    rw [tokens_cons hblank] at h
    have htoken : respellToken r' (c :: cs) (take c cs).2 (take c cs).1 =
        respellToken r (c :: cs) (take c cs).2 (take c cs).1 := by
      generalize take c cs = p at h
      obtain ⟨t, rest⟩ := p
      cases t with
      | name s => exact congrArg String.toList (h s List.mem_cons_self)
      | _ => rfl
    rw [respell_cons hblank, respell_cons hblank, htoken,
      ih fun s hs => h s (List.mem_cons_of_mem _ hs)]

end Token

namespace Expr
variable {α : Type}

mutual
theorem rename_congr {r' : String → String} {e : Expr α} (h : ∀ s ∈ e.symbols, r' s = r s) :
    e.rename r' = e.rename r := by
  cases e with
  | number x | constant c => rfl
  | symbol s => exact congrArg symbol (h s (by simp [symbols]))
  | sum es | product es | call f es => rw [rename, rename, renameAll_congr h]
  | power b e =>
    obtain ⟨hb, he⟩ := List.forall_mem_append.mp h
    rw [rename, rename, rename_congr hb, rename_congr he]
theorem renameAll_congr {r' : String → String} {es : List (Expr α)}
    (h : ∀ s ∈ symbolsAll es, r' s = r s) : renameAll r' es = renameAll r es := by
  match es with
  | [] => rfl
  | e :: es =>
    obtain ⟨he, hes⟩ := List.forall_mem_append.mp h
    rw [renameAll, renameAll, rename_congr he, renameAll_congr hes]
end

end Expr

namespace Record
variable {record : Record}

lemma mem_identifiers_of_mem_tokens {text s : String} (htext : text ∈ record.texts)
    (hs : Token.name s ∈ Token.tokens text.toList) : s ∈ record.identifiers := by
  refine List.mem_append_right _ (List.mem_flatMap.mpr ⟨text, htext, ?_⟩)
  exact Token.mem_map_name_uses hs

lemma rename_eq {r' : String → String} (h : ∀ s ∈ record.identifiers, r' s = r s) :
    record.rename r' = record.rename r := by
  have htexts (text : String) (htext : text ∈ record.texts) :
      respellText r' text = respellText r text :=
    congrArg String.ofList (Token.respell_congr fun s hs =>
      h s (mem_identifiers_of_mem_tokens htext hs))
  have hparameters : record.parameters.map r' = record.parameters.map r :=
    List.map_congr_left fun s hs => h s (by simp [identifiers, hs])
  have hsubs : (record.substitutions.map fun s => (⟨r' s.name, respellText r' s.text⟩ : Substitution)) =
      record.substitutions.map fun s => ⟨r s.name, respellText r s.text⟩ := by
    refine List.map_congr_left fun s hs => ?_
    have hname : s.name ∈ record.identifiers :=
      List.mem_append_left _ (List.mem_append_right _ (List.mem_map_of_mem hs))
    rw [h _ hname, htexts s.text (List.mem_cons_of_mem _ (List.mem_map_of_mem hs))]
  rw [rename, rename, hparameters, hsubs, htexts _ List.mem_cons_self]

/-- The renaming of a record is one of all names. -/
lemma IsRenamedBy.exists_isRenaming (h : record.IsRenamedBy r) :
    ∃ r', IsRenaming r' ∧ ∀ s ∈ record.identifiers, r' s = r s := by
  have hinj : Set.InjOn r {s | s ∈ record.identifiers ++ builtinNames} := by
    intro s hs t ht hst
    have hs := List.mem_append.mp hs
    have ht := List.mem_append.mp ht
    by_cases hsb : s ∈ builtinNames <;> by_cases htb : t ∈ builtinNames
    · rw [← h.builtin s hsb, ← h.builtin t htb, hst]
    · have himage := (h.name t (ht.resolve_right htb) htb).2
      rw [← hst, h.builtin s hsb] at himage
      exact absurd hsb himage
    · have himage := (h.name s (hs.resolve_right hsb) hsb).2
      rw [hst, h.builtin t htb] at himage
      exact absurd htb himage
    · exact h.injOn ⟨hs.resolve_right hsb, hsb⟩ ⟨ht.resolve_right htb, htb⟩ hst
  obtain ⟨r', hinjective, heq⟩ := exists_injective_eqOn hinj
  refine ⟨r', ⟨hinjective, fun s hs => ?_⟩, fun s hs => heq s (List.mem_append_left _ hs)⟩
  rw [heq s (List.mem_append_right _ hs), h.builtin s hs]

/-- The images of the names in a text are names. -/
lemma IsRenamedBy.isName (h : record.IsRenamedBy r) {text s : String} (htext : text ∈ record.texts)
    (hs : Token.name s ∈ Token.tokens text.toList) : Token.IsName (r s).toList := by
  by_cases hbuiltin : s ∈ builtinNames
  · rw [h.builtin s hbuiltin]
    exact Token.isName_of_mem_tokens hs
  · exact (h.name s (mem_identifiers_of_mem_tokens htext hs) hbuiltin).1

end Record

namespace Equation
variable {α : Type} [Numeral α] {record : Record} {e : Equation α}

/-- The symbols of an equation are named in its record. -/
lemma symbols_mem_identifiers (h : resolve record = .ok e) :
    ∀ s ∈ e.expression.symbols, s ∈ record.identifiers := by
  refine resolve_induction (P := fun e => ∀ s ∈ e.symbols, s ∈ record.identifiers) ?_ ?_ h
  · intro v text e htext _ hparse s hs
    exact Record.mem_identifiers_of_mem_tokens htext (name_mem_tokens_of_parse hparse s hs)
  · exact fun he hvalue => Expr.symbols_substitute hvalue fun s hs => .inr (he s hs)

/-- In a record that is resolved no name stands directly after a number. -/
lemma unglued_of_resolve (h : resolve record = .ok e) :
    ∀ text ∈ record.texts, Token.Unglued text.toList := by
  intro text htext
  obtain ⟨v, e, hparse⟩ := parsed_of_resolve h text htext
  obtain ⟨f, hread, -⟩ := Formula.bind_eq_ok.mp hparse
  exact Formula.unglued_of_isSum (Formula.isSum_of_read hread)

/-- The run of a record and that of the renamed one. -/
lemma alike_resolve (h : record.IsRenamedBy r)
    (hunglued : ∀ text ∈ record.texts, Token.Unglued text.toList) :
    ∃ r', IsRenaming r' ∧ (∀ s ∈ record.identifiers, r' s = r s) ∧
      Alike Failure.SameKind (fun e e' => e' = e.rename r')
        (resolve record : Except _ (Equation α)) (resolve (record.rename r)) := by
  obtain ⟨r', hr, heq⟩ := h.exists_isRenaming
  refine ⟨r', hr, heq, ?_⟩
  rw [← Record.rename_eq heq]
  refine resolve_rename hr fun text htext => ⟨hunglued text htext, fun s hs => ?_⟩
  rw [heq s (Record.mem_identifiers_of_mem_tokens htext hs)]
  exact h.isName htext hs

lemma rename_eq {r' : String → String} (h : resolve record = .ok e)
    (heq : ∀ s ∈ record.identifiers, r' s = r s) : e.rename r' = e.rename r := by
  have hrecord := Record.rename_eq heq
  have hexpression := Expr.rename_congr fun s hs => heq s (symbols_mem_identifiers h s hs)
  obtain ⟨_, done, -, -, -, rfl⟩ := resolve_inv h
  rw [Record.rename, Record.rename, Record.mk.injEq] at hrecord
  obtain ⟨-, -, hparameters, hsubs, -⟩ := hrecord
  simp only [rename, hparameters, hsubs, hexpression]

/-- A record that is resolved is resolved under other names, to the same equation but for the
names. -/
theorem resolve_rename_eq_ok (h : record.IsRenamedBy r) (hresolve : resolve record = .ok e) :
    resolve (record.rename r) = .ok (e.rename r) ∧
      (e.rename r).gradient = e.gradient.map (Expr.rename r) := by
  obtain ⟨r', hr, heq, halike⟩ := alike_resolve (α := α) h (unglued_of_resolve hresolve)
  have hequation := rename_eq hresolve heq
  rw [hresolve] at halike
  generalize hresult : (resolve (record.rename r) : Except _ (Equation α)) = result at halike
  cases halike with
  | ok hrenamed =>
    refine ⟨by rw [hrenamed, hequation], ?_⟩
    rw [← hequation]
    simp only [gradient, Expr.gradient, rename, List.map_map]
    refine List.map_congr_left fun name _ => ?_
    rw [Function.comp, Function.comp, Expr.derivative_rename hr.injective]
    refine Expr.rename_congr fun s hs => heq s ?_
    exact (Expr.hereditary_symbols (· ∈ record.identifiers)).derivative name
      (symbols_mem_identifiers hresolve) s hs

/-- A record that is refused is refused for the same fault under other names, if no name stands
directly after a number. -/
theorem resolve_rename_eq_error (h : record.IsRenamedBy r)
    (hunglued : ∀ text ∈ record.texts, Token.Unglued text.toList) {failure : Failure}
    (hresolve : resolve (α := α) record = .error failure) :
    ∃ failure', resolve (α := α) (record.rename r) = .error failure' ∧
      failure.SameKind failure' := by
  obtain ⟨r', -, -, halike⟩ := alike_resolve (α := α) h hunglued
  rw [hresolve] at halike
  generalize hresult : (resolve (record.rename r) : Except _ (Equation α)) = result at halike
  cases halike with
  | error hkind => exact ⟨_, rfl, hkind⟩

/-- Renaming symbols one to one commutes with everything that builds expressions. A renamed record
is resolved to the renamed equation, and it is refused if the record is refused and no name in it
stands directly after a number. -/
theorem rename_invariant :
    (∀ r : String → String, Function.Injective r →
      (∀ ts : List (Expr α), Expr.add (ts.map (Expr.rename r)) = (Expr.add ts).rename r) ∧
      (∀ fs : List (Expr α), Expr.mul (fs.map (Expr.rename r)) = (Expr.mul fs).rename r) ∧
      (∀ b e : Expr α, Expr.pow (b.rename r) (e.rename r) = (Expr.pow b e).rename r) ∧
      (∀ f (args : List (Expr α)),
        Expr.apply f (args.map (Expr.rename r)) = (Expr.apply f args).rename r) ∧
      (∀ e : Expr α, Expr.neg (e.rename r) = (Expr.neg e).rename r) ∧
      (∀ a b : Expr α, Expr.sub (a.rename r) (b.rename r) = (Expr.sub a b).rename r) ∧
      (∀ a b : Expr α, Expr.div (a.rename r) (b.rename r) = (Expr.div a b).rename r) ∧
      (∀ name (value e : Expr α), (e.rename r).substitute (r name) (value.rename r) =
        (e.substitute name value).rename r) ∧
      (∀ name (e : Expr α),
        Expr.derivative (r name) (e.rename r) = (Expr.derivative name e).rename r)) ∧
    ∀ (record : Record) (r : String → String), record.IsRenamedBy r →
      (∀ e : Equation α, resolve record = .ok e →
        resolve (record.rename r) = .ok (e.rename r) ∧
          (e.rename r).gradient = e.gradient.map (Expr.rename r)) ∧
      ((∀ text ∈ record.texts, Token.Unglued text.toList) →
        ∀ failure, resolve (α := α) record = .error failure →
          ∃ failure', resolve (α := α) (record.rename r) = .error failure' ∧
            failure.SameKind failure') := by
  refine ⟨fun r hr => ⟨Expr.add_rename hr, Expr.mul_rename hr, Expr.pow_rename hr,
    Expr.apply_rename, Expr.neg_rename hr, Expr.sub_rename hr, Expr.div_rename hr,
    Expr.substitute_rename hr, Expr.derivative_rename hr⟩, fun record r h => ⟨?_, ?_⟩⟩
  · exact fun e hresolve => resolve_rename_eq_ok h hresolve
  · exact fun hunglued failure hresolve => resolve_rename_eq_error h hunglued hresolve

/-- Two names change places, in a record that is resolved and in one that is not. -/
theorem rename_invariant_swap :
    let r (s : String) := if s = "x" then "y" else if s = "y" then "x" else s
    let record : Record := ⟨1, "f", ["x"], [⟨"y", "2*x - pi"⟩], "sin(y)*x + y"⟩
    let refused : Record := ⟨1, "f", ["x"], [], "x(x)"⟩
    record.rename r = ⟨1, "f", ["y"], [⟨"x", "2*y - pi"⟩], "sin(x)*y + x"⟩ ∧
      (∃ e : Equation Float, resolve record = .ok e ∧ resolve (record.rename r) = .ok (e.rename r) ∧
        (e.rename r).gradient = e.gradient.map (Expr.rename r)) ∧
      resolve (α := Float) refused = .error (.uncompilable "f" "x(x)" (.notCallable "x")) ∧
      ∃ failure, resolve (α := Float) (refused.rename r) = .error failure ∧
        Failure.SameKind (.uncompilable "f" "x(x)" (.notCallable "x")) failure := by
  intro r record refused
  have hresolved : (resolve (α := Float) record).isOk = true := by decide +kernel
  have hfault : (match resolve (α := Float) refused with
      | .error failure => some failure
      | .ok _ => none) = some (.uncompilable "f" "x(x)" (.notCallable "x")) := by decide +kernel
  have hrefused : resolve (α := Float) refused =
      .error (.uncompilable "f" "x(x)" (.notCallable "x")) := by
    split at hfault
    · next failure h => rw [h, Option.some.inj hfault]
    · cases hfault
  have hunglued : ∀ text ∈ refused.texts, Token.Unglued text.toList := by decide +kernel
  refine ⟨by decide +kernel, ?_, hrefused, ?_⟩
  · rcases he : resolve (α := Float) record with cause | e
    · rw [he] at hresolved
      cases hresolved
    · exact ⟨e, rfl, ((rename_invariant (α := Float)).2 record r (by decide +kernel)).1 e he⟩
  · exact ((rename_invariant (α := Float)).2 refused r (by decide +kernel)).2 hunglued _ hrefused

/-- A new name that looks like an exponent makes a text a number that was no formula before. -/
theorem rename_invariant_exponent :
    let r (s : String) := if s = "x" then "e5" else s
    let record : Record := ⟨1, "f", ["x"], [], "2x"⟩
    record.IsRenamedBy r ∧ record.rename r = ⟨1, "f", ["e5"], [], "2e5"⟩ ∧
      (resolve (α := Float) record).isOk = false ∧
      (resolve (α := Float) (record.rename r)).isOk = true := by
  decide +kernel

end Equation

end EquationCompiler
