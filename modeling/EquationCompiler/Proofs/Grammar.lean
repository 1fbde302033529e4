import EquationCompiler.Proofs.FlatDescent
import Mathlib.Data.List.Basic

/-!
# The grammar of formulas

A context-free grammar for lists of tokens, with one rule for each kind of phrase
and operators that group as in the reader. The reader returns a formula exactly
if the grammar derives the formula from the tokens.
-/
namespace EquationCompiler.Formula
open Token

mutual
inductive IsSum : List Token → Formula → Prop
  | mk {ts us : List Token} {f g : Formula} (hterm : IsTerm ts f) (hmore : MoreTerms f us g) :
    IsSum (ts ++ us) g
/-- The tokens continue the sum `f` to a longer one. -/
inductive MoreTerms : Formula → List Token → Formula → Prop
  | nil (f : Formula) : MoreTerms f [] f
  | plus {ts us : List Token} {f g h : Formula} (hterm : IsTerm ts g)
      (hmore : MoreTerms (sum f g) us h) : MoreTerms f (plus :: (ts ++ us)) h
  | minus {ts us : List Token} {f g h : Formula} (hterm : IsTerm ts g)
      (hmore : MoreTerms (difference f g) us h) : MoreTerms f (minus :: (ts ++ us)) h
inductive IsTerm : List Token → Formula → Prop
  | mk {ts us : List Token} {f g : Formula} (hsigned : IsSigned ts f)
      (hmore : MoreFactors f us g) : IsTerm (ts ++ us) g
/-- The tokens continue the term `f` to a longer one. -/
inductive MoreFactors : Formula → List Token → Formula → Prop
  | nil (f : Formula) : MoreFactors f [] f
  | star {ts us : List Token} {f g h : Formula} (hsigned : IsSigned ts g)
      (hmore : MoreFactors (product f g) us h) : MoreFactors f (star :: (ts ++ us)) h
  | slash {ts us : List Token} {f g h : Formula} (hsigned : IsSigned ts g)
      (hmore : MoreFactors (quotient f g) us h) : MoreFactors f (slash :: (ts ++ us)) h
inductive IsSigned : List Token → Formula → Prop
  | minus {ts : List Token} {f : Formula} (h : IsSigned ts f) :
    IsSigned (minus :: ts) (negation f)
  | plus {ts : List Token} {f : Formula} (h : IsSigned ts f) : IsSigned (plus :: ts) f
  | power {ts : List Token} {f : Formula} (h : IsPower ts f) : IsSigned ts f
inductive IsPower : List Token → Formula → Prop
  | operand {ts : List Token} {f : Formula} (h : IsOperand ts f) : IsPower ts f
  | power {ts us : List Token} {f g : Formula} (hbase : IsOperand ts f)
      (hexponent : IsSigned us g) : IsPower (ts ++ Token.power :: us) (power f g)
inductive IsOperand : List Token → Formula → Prop
  | number (literal : String) : IsOperand [.number literal] (number literal)
  | name (s : String) : IsOperand [.name s] (name s)
  | call {ts us : List Token} {arg : Formula} {args : List Formula} (f : String)
      (harg : IsSum ts arg) (hmore : MoreArguments us args) :
      IsOperand (.name f :: opening :: (ts ++ us)) (call f (arg :: args))
  | group {ts : List Token} {f : Formula} (h : IsSum ts f) :
    IsOperand (opening :: (ts ++ [closing])) f
/-- The tokens continue a list of arguments up to the closing parenthesis. -/
inductive MoreArguments : List Token → List Formula → Prop
  | closing : MoreArguments [closing] []
  | comma {ts us : List Token} {arg : Formula} {args : List Formula} (harg : IsSum ts arg)
      (hmore : MoreArguments us args) : MoreArguments (comma :: (ts ++ us)) (arg :: args)
end

/-- The rest does not start with one of the given tokens. -/
def StopsAt (tokens rest : List Token) : Prop := ∀ t ∈ rest.head?, t ∉ tokens

/-- The tokens that may continue an operand, a power, a term and a sum. -/
abbrev afterOperand : List Token := [opening]
abbrev afterPower : List Token := [opening, .power]
abbrev afterTerm : List Token := [opening, .power, star, slash]
abbrev afterSum : List Token := [opening, .power, star, slash, plus, minus]

lemma StopsAt.mono {a b rest : List Token} (h : StopsAt b rest) (hab : a ⊆ b) : StopsAt a rest :=
  fun t ht hta => h t ht (hab hta)

lemma StopsAt.append {tokens ts rest : List Token} (h : StopsAt tokens rest)
    (hts : ∀ t ∈ ts.head?, t ∉ tokens) : StopsAt tokens (ts ++ rest) := by
  cases ts with
  | nil => exact h
  | cons t ts => simpa [StopsAt] using hts

lemma MoreTerms.stopsAt {ts rest : List Token} {f g : Formula} (h : MoreTerms f ts g)
    (hrest : StopsAt afterSum rest) : StopsAt afterTerm (ts ++ rest) := by
  refine (hrest.mono (by simp)).append ?_
  cases h <;> simp

lemma MoreFactors.stopsAt {ts rest : List Token} {f g : Formula} (h : MoreFactors f ts g)
    (hrest : StopsAt afterTerm rest) : StopsAt afterPower (ts ++ rest) := by
  refine (hrest.mono (by simp)).append ?_
  cases h <;> simp

lemma MoreArguments.stopsAt {ts rest : List Token} {args : List Formula}
    (h : MoreArguments ts args) : StopsAt afterSum (ts ++ rest) := by
  cases h <;> simp [StopsAt]

lemma IsOperand.length_pos {ts : List Token} {f : Formula} (h : IsOperand ts f) :
    0 < ts.length := by
  cases h <;> simp

lemma IsPower.length_pos {ts : List Token} {f : Formula} (h : IsPower ts f) : 0 < ts.length := by
  cases h with
  | operand h => exact h.length_pos
  | power hbase hexponent => simp only [List.length_append, List.length_cons]; omega

lemma IsSigned.length_pos {ts : List Token} {f : Formula} (h : IsSigned ts f) : 0 < ts.length := by
  cases h with
  | minus h | plus h => simp
  | power h => exact h.length_pos

lemma IsTerm.length_pos {ts : List Token} {f : Formula} (h : IsTerm ts f) : 0 < ts.length := by
  obtain ⟨hsigned, _⟩ := h
  have := hsigned.length_pos
  simp only [List.length_append]
  omega

/-- Neither an operand nor a power starts with a sign. -/
lemma IsOperand.no_sign {ts : List Token} {f : Formula} (h : IsOperand ts f) (rest : List Token) :
    ∀ t ∈ (ts ++ rest).head?, t ≠ minus ∧ t ≠ plus := by
  cases h <;> simp

lemma IsPower.no_sign {ts : List Token} {f : Formula} (h : IsPower ts f) (rest : List Token) :
    ∀ t ∈ (ts ++ rest).head?, t ≠ minus ∧ t ≠ plus := by
  cases h with
  | operand h => exact h.no_sign rest
  | power hbase hexponent =>
    rw [List.append_assoc]
    exact hbase.no_sign _

lemma readSigned_of_no_sign {depth : ℕ} {expected : Expected} {ts : List Token}
    (h : ∀ t ∈ ts.head?, t ≠ minus ∧ t ≠ plus) :
    readSigned (depth + 1) expected ts = readPower depth expected ts := by
  conv_lhs => unfold readSigned
  split <;> simp_all

mutual
theorem readSum_of_isSum {ts : List Token} {f : Formula} (h : IsSum ts f) {depth : ℕ}
    {expected : Expected} {rest : List Token} (hdepth : 5 * ts.length ≤ depth)
    (hrest : StopsAt afterSum rest) : readSum depth expected (ts ++ rest) = .ok (f, rest) := by
  cases h with
  | mk hterm hmore =>
    have hpos := hterm.length_pos
    rw [List.length_append] at hdepth
    obtain ⟨depth, rfl⟩ : ∃ d, depth = d + 1 := ⟨depth - 1, by omega⟩
    rw [List.append_assoc, readSum,
      readTerm_of_isTerm hterm (by omega) (hmore.stopsAt hrest)]
    exact readTerms_of_moreTerms hmore (by omega) hrest
termination_by depth
theorem readTerms_of_moreTerms {ts : List Token} {f g : Formula} (h : MoreTerms f ts g)
    {depth : ℕ} {rest : List Token} (hdepth : 5 * ts.length ≤ depth)
    (hrest : StopsAt afterSum rest) : readTerms depth f (ts ++ rest) = .ok (g, rest) := by
  cases h with
  | nil =>
    rw [List.nil_append]
    unfold readTerms
    split
    · simp [StopsAt] at hrest
    · simp [StopsAt] at hrest
    · rfl
  | plus hterm hmore | minus hterm hmore =>
    rw [List.length_cons, List.length_append] at hdepth
    obtain ⟨depth, rfl⟩ : ∃ d, depth = d + 1 := ⟨depth - 1, by omega⟩
    rw [List.cons_append, List.append_assoc, readTerms,
      readTerm_of_isTerm hterm (by omega) (hmore.stopsAt hrest)]
    exact readTerms_of_moreTerms hmore (by omega) hrest
termination_by depth
theorem readTerm_of_isTerm {ts : List Token} {f : Formula} (h : IsTerm ts f) {depth : ℕ}
    {expected : Expected} {rest : List Token} (hdepth : 5 * ts.length ≤ depth + 1)
    (hrest : StopsAt afterTerm rest) : readTerm depth expected (ts ++ rest) = .ok (f, rest) := by
  cases h with
  | mk hsigned hmore =>
    have hpos := hsigned.length_pos
    rw [List.length_append] at hdepth
    obtain ⟨depth, rfl⟩ : ∃ d, depth = d + 1 := ⟨depth - 1, by omega⟩
    rw [List.append_assoc, readTerm,
      readSigned_of_isSigned hsigned (by omega) (hmore.stopsAt hrest)]
    exact readFactors_of_moreFactors hmore (by omega) hrest
termination_by depth
theorem readFactors_of_moreFactors {ts : List Token} {f g : Formula} (h : MoreFactors f ts g)
    {depth : ℕ} {rest : List Token} (hdepth : 5 * ts.length ≤ depth + 1)
    (hrest : StopsAt afterTerm rest) : readFactors depth f (ts ++ rest) = .ok (g, rest) := by
  cases h with
  | nil =>
    rw [List.nil_append]
    unfold readFactors
    split
    · simp [StopsAt] at hrest
    · simp [StopsAt] at hrest
    · rfl
  | star hsigned hmore | slash hsigned hmore =>
    have hpos := hsigned.length_pos
    rw [List.length_cons, List.length_append] at hdepth
    obtain ⟨depth, rfl⟩ : ∃ d, depth = d + 1 := ⟨depth - 1, by omega⟩
    rw [List.cons_append, List.append_assoc, readFactors,
      readSigned_of_isSigned hsigned (by omega) (hmore.stopsAt hrest)]
    exact readFactors_of_moreFactors hmore (by omega) hrest
termination_by depth
theorem readSigned_of_isSigned {ts : List Token} {f : Formula} (h : IsSigned ts f) {depth : ℕ}
    {expected : Expected} {rest : List Token} (hdepth : 5 * ts.length ≤ depth + 2)
    (hrest : StopsAt afterPower rest) : readSigned depth expected (ts ++ rest) = .ok (f, rest) := by
  cases h with
  | minus hsigned =>
    rw [List.length_cons] at hdepth
    obtain ⟨depth, rfl⟩ : ∃ d, depth = d + 1 := ⟨depth - 1, by omega⟩
    rw [List.cons_append, readSigned, readSigned_of_isSigned hsigned (by omega) hrest]
    rfl
  | plus hsigned =>
    rw [List.length_cons] at hdepth
    obtain ⟨depth, rfl⟩ : ∃ d, depth = d + 1 := ⟨depth - 1, by omega⟩
    rw [List.cons_append, readSigned, readSigned_of_isSigned hsigned (by omega) hrest]
  | power hpower =>
    have hpos := hpower.length_pos
    obtain ⟨depth, rfl⟩ : ∃ d, depth = d + 1 := ⟨depth - 1, by omega⟩
    rw [readSigned_of_no_sign (hpower.no_sign rest)]
    exact readPower_of_isPower hpower (by omega) hrest
termination_by depth
theorem readPower_of_isPower {ts : List Token} {f : Formula} (h : IsPower ts f) {depth : ℕ}
    {expected : Expected} {rest : List Token} (hdepth : 5 * ts.length ≤ depth + 3)
    (hrest : StopsAt afterPower rest) : readPower depth expected (ts ++ rest) = .ok (f, rest) := by
  cases h with
  | operand hoperand =>
    have hpos := hoperand.length_pos
    obtain ⟨depth, rfl⟩ : ∃ d, depth = d + 1 := ⟨depth - 1, by omega⟩
    rw [readPower, readOperand_of_isOperand hoperand (by omega) (hrest.mono (by simp))]
    simp only [bind, Except.bind]
    split
    · simp [StopsAt] at hrest
    · rfl
  | power hbase hexponent =>
    have hpos := hbase.length_pos
    rw [List.length_append, List.length_cons] at hdepth
    obtain ⟨depth, rfl⟩ : ∃ d, depth = d + 1 := ⟨depth - 1, by omega⟩
    rw [List.append_assoc, readPower, readOperand_of_isOperand hbase (by omega) (by simp [StopsAt])]
    simp only [bind, Except.bind, List.cons_append]
    rw [readSigned_of_isSigned hexponent (by omega) hrest]
    rfl
termination_by depth
theorem readOperand_of_isOperand {ts : List Token} {f : Formula} (h : IsOperand ts f) {depth : ℕ}
    {expected : Expected} {rest : List Token} (hdepth : 5 * ts.length ≤ depth + 4)
    (hrest : StopsAt afterOperand rest) :
    readOperand depth expected (ts ++ rest) = .ok (f, rest) := by
  cases h with
  | number literal =>
    obtain ⟨depth, rfl⟩ : ∃ d, depth = d + 1 := ⟨depth - 1, by simp at hdepth; omega⟩
    rfl
  | name s =>
    obtain ⟨depth, rfl⟩ : ∃ d, depth = d + 1 := ⟨depth - 1, by simp at hdepth; omega⟩
    rw [List.singleton_append]
    cases rest with
    | nil => rfl
    | cons t rest =>
      unfold readOperand
      split <;> simp_all [StopsAt]
  | call f harg hmore =>
    simp only [List.length_cons, List.length_append] at hdepth
    obtain ⟨depth, rfl⟩ : ∃ d, depth = d + 1 := ⟨depth - 1, by omega⟩
    simp only [List.cons_append, List.append_assoc]
    rw [readOperand, readSum_of_isSum harg (by omega) hmore.stopsAt]
    simp only [bind, Except.bind]
    rw [readArguments_of_moreArguments hmore (by omega)]
    rfl
  | group hsum =>
    simp only [List.length_cons, List.length_append] at hdepth
    obtain ⟨depth, rfl⟩ : ∃ d, depth = d + 1 := ⟨depth - 1, by omega⟩
    simp only [List.cons_append, List.append_assoc]
    rw [readOperand, readSum_of_isSum hsum (by omega) (by simp [StopsAt])]
    rfl
termination_by depth
theorem readArguments_of_moreArguments {ts : List Token} {args : List Formula}
    (h : MoreArguments ts args) {depth : ℕ} {rest : List Token}
    (hdepth : 5 * ts.length ≤ depth + 4) :
    readArguments depth (ts ++ rest) = .ok (args, rest) := by
  cases h with
  | closing =>
    obtain ⟨depth, rfl⟩ : ∃ d, depth = d + 1 := ⟨depth - 1, by simp at hdepth; omega⟩
    rfl
  | comma harg hmore =>
    simp only [List.length_cons, List.length_append] at hdepth
    obtain ⟨depth, rfl⟩ : ∃ d, depth = d + 1 := ⟨depth - 1, by omega⟩
    simp only [List.cons_append, List.append_assoc]
    rw [readArguments, readSum_of_isSum harg (by omega) hmore.stopsAt]
    simp only [bind, Except.bind]
    rw [readArguments_of_moreArguments hmore (by omega)]
    rfl
termination_by depth
end

/-- A computation succeeds if both of its steps do. -/
lemma bind_eq_ok {ε α β : Type} {x : Except ε α} {step : α → Except ε β} {b : β} :
    (x >>= step) = .ok b ↔ ∃ a, x = .ok a ∧ step a = .ok b := by
  cases x <;> simp [bind, Except.bind]

lemma eq_ok_of_toOption {ε β : Type} {x : Except ε β} {b : β} (h : x.toOption = some b) :
    x = .ok b := by
  cases x with
  | error cause => cases h
  | ok c => exact congrArg _ (Option.some.inj h)

mutual
theorem isSum_of_readSum {depth : ℕ} {expected : Expected} {ts rest : List Token} {f : Formula}
    (h : readSum depth expected ts = .ok (f, rest)) : ∃ us, ts = us ++ rest ∧ IsSum us f := by
  cases depth with
  | zero => simp [readSum] at h
  | succ depth =>
    rw [readSum] at h
    obtain ⟨⟨g, middle⟩, hterm, hmore⟩ := bind_eq_ok.mp h
    obtain ⟨us, rfl, hus⟩ := isTerm_of_readTerm hterm
    obtain ⟨vs, rfl, hvs⟩ := moreTerms_of_readTerms hmore
    exact ⟨us ++ vs, by simp, .mk hus hvs⟩
termination_by depth
theorem moreTerms_of_readTerms {depth : ℕ} {ts rest : List Token} {f g : Formula}
    (h : readTerms depth f ts = .ok (g, rest)) : ∃ us, ts = us ++ rest ∧ MoreTerms f us g := by
  unfold readTerms at h
  split at h
  · obtain ⟨⟨t, middle⟩, hterm, hmore⟩ := bind_eq_ok.mp h
    obtain ⟨us, rfl, hus⟩ := isTerm_of_readTerm hterm
    obtain ⟨vs, rfl, hvs⟩ := moreTerms_of_readTerms hmore
    exact ⟨plus :: (us ++ vs), by simp, .plus hus hvs⟩
  · obtain ⟨⟨t, middle⟩, hterm, hmore⟩ := bind_eq_ok.mp h
    obtain ⟨us, rfl, hus⟩ := isTerm_of_readTerm hterm
    obtain ⟨vs, rfl, hvs⟩ := moreTerms_of_readTerms hmore
    exact ⟨minus :: (us ++ vs), by simp, .minus hus hvs⟩
  · cases h
    exact ⟨[], rfl, .nil _⟩
termination_by depth
theorem isTerm_of_readTerm {depth : ℕ} {expected : Expected} {ts rest : List Token} {f : Formula}
    (h : readTerm depth expected ts = .ok (f, rest)) : ∃ us, ts = us ++ rest ∧ IsTerm us f := by
  cases depth with
  | zero => simp [readTerm] at h
  | succ depth =>
    rw [readTerm] at h
    obtain ⟨⟨g, middle⟩, hsigned, hmore⟩ := bind_eq_ok.mp h
    obtain ⟨us, rfl, hus⟩ := isSigned_of_readSigned hsigned
    obtain ⟨vs, rfl, hvs⟩ := moreFactors_of_readFactors hmore
    exact ⟨us ++ vs, by simp, .mk hus hvs⟩
termination_by depth
theorem moreFactors_of_readFactors {depth : ℕ} {ts rest : List Token} {f g : Formula}
    (h : readFactors depth f ts = .ok (g, rest)) : ∃ us, ts = us ++ rest ∧ MoreFactors f us g := by
  unfold readFactors at h
  split at h
  · obtain ⟨⟨t, middle⟩, hsigned, hmore⟩ := bind_eq_ok.mp h
    obtain ⟨us, rfl, hus⟩ := isSigned_of_readSigned hsigned
    obtain ⟨vs, rfl, hvs⟩ := moreFactors_of_readFactors hmore
    exact ⟨star :: (us ++ vs), by simp, .star hus hvs⟩
  · obtain ⟨⟨t, middle⟩, hsigned, hmore⟩ := bind_eq_ok.mp h
    obtain ⟨us, rfl, hus⟩ := isSigned_of_readSigned hsigned
    obtain ⟨vs, rfl, hvs⟩ := moreFactors_of_readFactors hmore
    exact ⟨slash :: (us ++ vs), by simp, .slash hus hvs⟩
  · cases h
    exact ⟨[], rfl, .nil _⟩
termination_by depth
theorem isSigned_of_readSigned {depth : ℕ} {expected : Expected} {ts rest : List Token}
    {f : Formula} (h : readSigned depth expected ts = .ok (f, rest)) :
    ∃ us, ts = us ++ rest ∧ IsSigned us f := by
  unfold readSigned at h
  split at h
  · cases h
  · obtain ⟨⟨g, middle⟩, hsigned, hresult⟩ := bind_eq_ok.mp h
    obtain ⟨us, rfl, hus⟩ := isSigned_of_readSigned hsigned
    cases hresult
    exact ⟨minus :: us, rfl, .minus hus⟩
  · obtain ⟨us, rfl, hus⟩ := isSigned_of_readSigned h
    exact ⟨plus :: us, rfl, .plus hus⟩
  · obtain ⟨us, rfl, hus⟩ := isPower_of_readPower h
    exact ⟨us, rfl, .power hus⟩
termination_by depth
theorem isPower_of_readPower {depth : ℕ} {expected : Expected} {ts rest : List Token}
    {f : Formula} (h : readPower depth expected ts = .ok (f, rest)) :
    ∃ us, ts = us ++ rest ∧ IsPower us f := by
  cases depth with
  | zero => simp [readPower] at h
  | succ depth =>
    rw [readPower] at h
    obtain ⟨⟨b, middle⟩, hbase, hresult⟩ := bind_eq_ok.mp h
    obtain ⟨us, rfl, hus⟩ := isOperand_of_readOperand hbase
    dsimp only at hresult
    split at hresult
    · obtain ⟨⟨e, last⟩, hexponent, hlast⟩ := bind_eq_ok.mp hresult
      obtain ⟨vs, rfl, hvs⟩ := isSigned_of_readSigned hexponent
      cases hlast
      exact ⟨us ++ Token.power :: vs, by simp, .power hus hvs⟩
    · cases hresult
      exact ⟨us, rfl, .operand hus⟩
termination_by depth
theorem isOperand_of_readOperand {depth : ℕ} {expected : Expected} {ts rest : List Token}
    {f : Formula} (h : readOperand depth expected ts = .ok (f, rest)) :
    ∃ us, ts = us ++ rest ∧ IsOperand us f := by
  unfold readOperand at h
  split at h
  · cases h
    exact ⟨[_], rfl, .number _⟩
  · obtain ⟨⟨arg, middle⟩, harg, hmore⟩ := bind_eq_ok.mp h
    obtain ⟨⟨args, last⟩, hargs, hlast⟩ := bind_eq_ok.mp hmore
    obtain ⟨us, rfl, hus⟩ := isSum_of_readSum harg
    obtain ⟨vs, rfl, hvs⟩ := moreArguments_of_readArguments hargs
    cases hlast
    exact ⟨.name _ :: opening :: (us ++ vs), by simp, .call _ hus hvs⟩
  · cases h
    exact ⟨[_], rfl, .name _⟩
  · obtain ⟨⟨g, middle⟩, hsum, hresult⟩ := bind_eq_ok.mp h
    obtain ⟨us, rfl, hus⟩ := isSum_of_readSum hsum
    dsimp only at hresult
    split at hresult
    · cases hresult
      exact ⟨opening :: (us ++ [closing]), by simp, .group hus⟩
    · cases hresult
  · cases h
termination_by depth
theorem moreArguments_of_readArguments {depth : ℕ} {ts rest : List Token} {args : List Formula}
    (h : readArguments depth ts = .ok (args, rest)) :
    ∃ us, ts = us ++ rest ∧ MoreArguments us args := by
  unfold readArguments at h
  split at h
  · cases h
    exact ⟨[closing], rfl, .closing⟩
  · obtain ⟨⟨arg, middle⟩, harg, hmore⟩ := bind_eq_ok.mp h
    obtain ⟨⟨args, last⟩, hargs, hlast⟩ := bind_eq_ok.mp hmore
    obtain ⟨us, rfl, hus⟩ := isSum_of_readSum harg
    obtain ⟨vs, rfl, hvs⟩ := moreArguments_of_readArguments hargs
    cases hlast
    exact ⟨comma :: (us ++ vs), by simp, .comma hus hvs⟩
  · cases h
termination_by depth
end

/-- The reader finds the formula that the grammar derives from the tokens, if there is one. -/
theorem ofTokens_eq_ok {ts : List Token} {f : Formula} : ofTokens ts = .ok f ↔ IsSum ts f := by
  constructor
  · intro h
    obtain ⟨⟨g, rest⟩, hsum, hrest⟩ := bind_eq_ok.mp h
    obtain ⟨us, rfl, hus⟩ := isSum_of_readSum hsum
    dsimp only at hrest
    split at hrest
    · cases hrest
      rwa [List.append_nil]
    · cases hrest
  · intro h
    have hread : readSum (5 * ts.length + 5) .expression (ts ++ []) = .ok (f, []) :=
      readSum_of_isSum h (by omega) (by simp [StopsAt])
    rw [List.append_nil] at hread
    rw [ofTokens, hread]
    rfl

/-- A text is read as the formula that the grammar derives from its tokens. -/
theorem read_eq_ok {text : String} {f : Formula} :
    read text = .ok f ↔ IsSum (tokens text.toList) f := by
  rw [read_eq_descend, descend, ← ofTokens_eq_ok]
  cases ofTokens (tokens text.toList) <;> simp

end EquationCompiler.Formula
