import EquationCompiler.Proofs.Grammar

/-!
# The names in a formula

A name directly before an opening parenthesis is applied, and any other name stands
for a value. Which names a formula uses, in which order and how, can be told from its
tokens.
-/
namespace EquationCompiler

/-- A name where it is used. -/
structure NameUse where
  name : String
  applied : Bool
  deriving DecidableEq, Repr

namespace Token

/-- The names among the tokens. -/
def uses : List Token → List NameUse
  | [] => []
  | name s :: ts => ⟨s, ts.head? = some opening⟩ :: uses ts
  | _ :: ts => uses ts

lemma mem_of_mem_uses {ts : List Token} {u : NameUse} (h : u ∈ uses ts) : name u.name ∈ ts := by
  fun_induction uses ts with
  | case1 => cases h
  | case2 s ts ih =>
    rcases List.mem_cons.mp h with rfl | h
    · exact List.mem_cons_self
    · exact List.mem_cons_of_mem _ (ih h)
  | case3 t ts hname ih => exact List.mem_cons_of_mem _ (ih h)

lemma mem_map_name_uses {ts : List Token} {s : String} (h : name s ∈ ts) :
    s ∈ (uses ts).map (·.name) := by
  fun_induction uses ts with
  | case1 => cases h
  | case2 t ts ih =>
    rcases List.mem_cons.mp h with heq | h
    · rw [name.inj heq]
      exact List.mem_cons_self
    · exact List.mem_cons_of_mem _ (ih h)
  | case3 t ts hname ih => exact ih ((List.mem_cons.mp h).resolve_left (hname s ·.symm))

/-- No name at the end of the first part is applied by what follows. -/
lemma uses_append {ts us : List Token} (h : Formula.StopsAt Formula.afterOperand us) :
    uses (ts ++ us) = uses ts ++ uses us := by
  fun_induction uses ts with
  | case1 => rfl
  | case2 s ts ih =>
    have hhead : us.head? ≠ some opening := fun hus => h opening hus (by simp)
    rw [List.cons_append, uses, ih]
    cases ts with
    | nil => simp [hhead]
    | cons t ts => simp
  | case3 t ts hname ih => rw [List.cons_append, uses.eq_3 _ _ hname, ih]

end Token

namespace Formula
open Token (uses_append)

mutual
/-- The names in a formula, from left to right. -/
def uses : Formula → List NameUse
  | number _ => []
  | name s => [⟨s, false⟩]
  | call f args => ⟨f, true⟩ :: usesAll args
  | negation f => uses f
  | sum f g | difference f g | product f g | quotient f g | power f g => uses f ++ uses g
def usesAll : List Formula → List NameUse
  | [] => []
  | f :: fs => uses f ++ usesAll fs
end

mutual
/-- The names that are not applied. -/
def names : Formula → List String
  | number _ => []
  | name s => [s]
  | call _ args => namesAll args
  | negation f => names f
  | sum f g | difference f g | product f g | quotient f g | power f g => names f ++ names g
def namesAll : List Formula → List String
  | [] => []
  | f :: fs => names f ++ namesAll fs
end

mutual
theorem mem_uses_of_mem_names {f : Formula} {s : String} (h : s ∈ f.names) :
    ⟨s, false⟩ ∈ f.uses := by
  cases f with
  | number literal => cases h
  | name t => simpa [names, uses] using h
  | call f args => exact List.mem_cons_of_mem _ (mem_usesAll_of_mem_namesAll h)
  | negation f => exact mem_uses_of_mem_names (f := f) h
  | sum f g | difference f g | product f g | quotient f g | power f g =>
    rw [names, List.mem_append] at h
    rw [uses, List.mem_append]
    exact h.imp mem_uses_of_mem_names mem_uses_of_mem_names
theorem mem_usesAll_of_mem_namesAll {fs : List Formula} {s : String} (h : s ∈ namesAll fs) :
    ⟨s, false⟩ ∈ usesAll fs := by
  match fs with
  | [] => cases h
  | f :: fs =>
    rw [namesAll, List.mem_append] at h
    rw [usesAll, List.mem_append]
    exact h.imp mem_uses_of_mem_names mem_usesAll_of_mem_namesAll
end

lemma MoreTerms.stopsAtOperand {ts : List Token} {f g : Formula} (h : MoreTerms f ts g) :
    StopsAt afterOperand ts := by
  cases h <;> simp [StopsAt]

lemma MoreFactors.stopsAtOperand {ts : List Token} {f g : Formula} (h : MoreFactors f ts g) :
    StopsAt afterOperand ts := by
  cases h <;> simp [StopsAt]

lemma MoreArguments.stopsAtOperand {ts : List Token} {args : List Formula}
    (h : MoreArguments ts args) : StopsAt afterOperand ts := by
  cases h <;> simp [StopsAt]

mutual
theorem uses_of_isSum {ts : List Token} {f : Formula} (h : IsSum ts f) : Token.uses ts = f.uses := by
  cases h with
  | mk hterm hmore =>
    rw [uses_append hmore.stopsAtOperand, uses_of_isTerm hterm, uses_of_moreTerms hmore]
termination_by 6 * ts.length + 5
theorem uses_of_moreTerms {ts : List Token} {f g : Formula} (h : MoreTerms f ts g) :
    f.uses ++ Token.uses ts = g.uses := by
  cases h with
  | nil => simp [Token.uses]
  | plus hterm hmore | minus hterm hmore =>
    rw [Token.uses, uses_append hmore.stopsAtOperand, uses_of_isTerm hterm, ← List.append_assoc]
    exact uses_of_moreTerms hmore
    all_goals simp
termination_by 6 * ts.length + 0
theorem uses_of_isTerm {ts : List Token} {f : Formula} (h : IsTerm ts f) :
    Token.uses ts = f.uses := by
  cases h with
  | mk hsigned hmore =>
    rw [uses_append hmore.stopsAtOperand, uses_of_isSigned hsigned, uses_of_moreFactors hmore]
termination_by 6 * ts.length + 4
theorem uses_of_moreFactors {ts : List Token} {f g : Formula} (h : MoreFactors f ts g) :
    f.uses ++ Token.uses ts = g.uses := by
  cases h with
  | nil => simp [Token.uses]
  | star hsigned hmore | slash hsigned hmore =>
    rw [Token.uses, uses_append hmore.stopsAtOperand, uses_of_isSigned hsigned,
      ← List.append_assoc]
    exact uses_of_moreFactors hmore
    all_goals simp
termination_by 6 * ts.length + 0
theorem uses_of_isSigned {ts : List Token} {f : Formula} (h : IsSigned ts f) :
    Token.uses ts = f.uses := by
  cases h with
  | minus h | plus h => simpa [Token.uses, uses] using uses_of_isSigned h
  | power h => exact uses_of_isPower h
termination_by 6 * ts.length + 3
theorem uses_of_isPower {ts : List Token} {f : Formula} (h : IsPower ts f) :
    Token.uses ts = f.uses := by
  cases h with
  | operand h => exact uses_of_isOperand h
  | power hbase hexponent =>
    rw [uses_append (by simp [StopsAt]), Token.uses, uses_of_isOperand hbase,
      uses_of_isSigned hexponent, uses]
    simp
termination_by 6 * ts.length + 2
theorem uses_of_isOperand {ts : List Token} {f : Formula} (h : IsOperand ts f) :
    Token.uses ts = f.uses := by
  cases h with
  | number literal => rfl
  | name s => rfl
  | call f harg hmore =>
    simp [Token.uses, uses, usesAll, uses_append hmore.stopsAtOperand, uses_of_isSum harg,
      uses_of_moreArguments hmore]
  | group h =>
    rw [Token.uses, uses_append (by simp [StopsAt]), uses_of_isSum h]
    · simp [Token.uses]
    · simp
termination_by 6 * ts.length + 1
theorem uses_of_moreArguments {ts : List Token} {args : List Formula} (h : MoreArguments ts args) :
    Token.uses ts = usesAll args := by
  cases h with
  | closing => rfl
  | comma harg hmore =>
    simp [Token.uses, usesAll, uses_append hmore.stopsAtOperand, uses_of_isSum harg,
      uses_of_moreArguments hmore]
termination_by 6 * ts.length + 0
end

/-- The names of a formula are among the tokens that it was read from. -/
theorem mem_of_mem_names {ts : List Token} {f : Formula} {s : String} (h : IsSum ts f)
    (hs : s ∈ f.names) : Token.name s ∈ ts := by
  have hused := mem_uses_of_mem_names hs
  rw [← uses_of_isSum h] at hused
  exact Token.mem_of_mem_uses hused

end Formula

end EquationCompiler
