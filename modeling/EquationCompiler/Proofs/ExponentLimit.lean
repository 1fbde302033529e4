import EquationCompiler.Proofs.Termination
import EquationCompiler.Proofs.Value

/-!
# The limit on exponents

Only the folding of reciprocals computes a power by repeated squaring, and only there
exponents above the limit are lowered. A simplification is free of the limit if no
call that it leads to meets a power of a number with an exponent beyond the limit: the
same calls are then made for every higher limit, with the same results.
-/
namespace EquationCompiler

/-- The same numbers with another limit on exponents. -/
@[reducible]
def Scalar.withLimit {α : Type} (scalar : Scalar α) (limit : ℕ) : Scalar α :=
  { scalar with exponentLimit := limit }

section
variable {α : Type} [scalar : Scalar α] {limit : ℕ}

lemma Scalar.squareAndMultiply_withLimit (rounds : ℕ) (product x : α) (n : ℕ) :
    @squareAndMultiply α (scalar.withLimit limit) rounds product x n =
      squareAndMultiply rounds product x n := by
  induction rounds generalizing product x n with
  | zero => rfl
  | succ rounds ih => simp only [squareAndMultiply, ih]

/-- Exponents within both limits are not lowered. -/
lemma Scalar.natPower_withLimit (x : α) {n : ℕ} (hn : n ≤ exponentLimit α) (hlimit : n ≤ limit) :
    @natPower α (scalar.withLimit limit) x n = natPower x n := by
  show @squareAndMultiply α (scalar.withLimit limit) ((min n limit).log2 + 1) one x (min n limit) =
    squareAndMultiply ((min n (exponentLimit α)).log2 + 1) one x (min n (exponentLimit α))
  rw [min_eq_left hn, min_eq_left hlimit, squareAndMultiply_withLimit]

end

namespace Expr
variable {α : Type} [scalar : Scalar α] {limit : ℕ}

mutual
theorem equiv_withLimit (a b : Expr α) : @equiv α (scalar.withLimit limit) a b = equiv a b := by
  match a with
  | sum as | product as => cases b <;> simp only [equiv, matchAll_withLimit as]
  | power a x => cases b <;> simp only [equiv, equiv_withLimit a, equiv_withLimit x]
  | call f as => cases b <;> simp only [equiv, equivAll_withLimit as]
  | number x => cases b <;> rfl
  | symbol s | constant c => cases b <;> simp only [equiv]
theorem matchAll_withLimit (as bs : List (Expr α)) :
    @matchAll α (scalar.withLimit limit) as bs = matchAll as bs := by
  match as with
  | [] => simp only [matchAll]
  | a :: as => simp only [matchAll, equiv_withLimit a, matchAll_withLimit as]
theorem equivAll_withLimit (as bs : List (Expr α)) :
    @equivAll α (scalar.withLimit limit) as bs = equivAll as bs := by
  match as with
  | [] => cases bs <;> simp only [equivAll]
  | a :: as => cases bs <;> simp only [equivAll, equiv_withLimit a, equivAll_withLimit as]
end

lemma collectTerm_withLimit (c : α) (rest : Expr α) (ts : List (α × Expr α)) :
    @collectTerm α (scalar.withLimit limit) c rest ts = collectTerm c rest ts := by
  induction ts with
  | nil => rfl
  | cons t ts ih => simp only [collectTerm, equiv_withLimit, ih]

lemma collect_withLimit (ts : List (Expr α)) :
    @collect α (scalar.withLimit limit) ts = collect ts := by
  have hinsert : @Collected.insert α (scalar.withLimit limit) = Collected.insert := by
    funext s t
    cases t with
    | number x => rfl
    | _ => exact congrArg (Collected.mk _) (collectTerm_withLimit _ _ _)
  show (termsAll ts).foldl (@Collected.insert α (scalar.withLimit limit)) ⟨Scalar.zero, []⟩ = _
  rw [hinsert]
  rfl

lemma addWith_withLimit (mul : List (Expr α) → Expr α) (ts : List (Expr α)) :
    @addWith α (scalar.withLimit limit) mul ts = addWith mul ts := by
  unfold addWith
  rw [collect_withLimit]
  rfl

lemma collectPower_withLimit (add : List (Expr α) → Expr α) (b e : Expr α)
    (ps : List (Expr α × Expr α)) :
    @collectPower α (scalar.withLimit limit) add b e ps = collectPower add b e ps := by
  induction ps with
  | nil => rfl
  | cons p ps ih => simp only [collectPower, equiv_withLimit, ih]

lemma collectPowers_withLimit (add : List (Expr α) → Expr α) (fs : List (Expr α)) :
    @collectPowers α (scalar.withLimit limit) add fs = collectPowers add fs := by
  have hinsert : @Powers.insert α (scalar.withLimit limit) add = Powers.insert add := by
    funext p f
    cases f with
    | number x => rfl
    | _ => exact congrArg (Powers.mk _) (collectPower_withLimit add _ _ _)
  show (factorsAll fs).foldl (@Powers.insert α (scalar.withLimit limit) add) ⟨Scalar.one, []⟩ = _
  rw [hinsert]
  rfl

/-- A power of a number whose exponent is negative, whole and beyond the limit. -/
def BeyondLimit (limit : ℕ) (p : Expr α × Expr α) : Prop :=
  ∃ b e n, p = (number b, number e) ∧ Scalar.whole? e = some n ∧ n < 0 ∧ limit < n.natAbs

lemma foldReciprocal?_withLimit (hlimit : Scalar.exponentLimit α ≤ limit) (c : α) {b e : Expr α}
    (h : ¬BeyondLimit (Scalar.exponentLimit α) (b, e)) :
    @foldReciprocal? α (scalar.withLimit limit) c b e = foldReciprocal? c b e := by
  unfold foldReciprocal?
  split
  · next x y =>
    cases hwhole : Scalar.whole? y with
    | none => rfl
    | some n =>
      dsimp only
      by_cases hn : n < 0
      · have hle : n.natAbs ≤ Scalar.exponentLimit α := by
          by_contra hbeyond
          exact h ⟨x, y, n, rfl, hwhole, hn, not_le.mp hbeyond⟩
        rw [Scalar.natPower_withLimit x hle (hle.trans hlimit)]
        rfl
      · rw [if_neg fun hfold => hn hfold.1, if_neg fun hfold => hn hfold.1]
  · rfl

lemma push_withLimit (hlimit : Scalar.exponentLimit α ≤ limit) (pow : Expr α → Expr α → Expr α)
    (f : Folded α) {p : Expr α × Expr α} (h : ¬BeyondLimit (Scalar.exponentLimit α) p) :
    @Folded.push α (scalar.withLimit limit) pow f p = Folded.push pow f p := by
  obtain ⟨b, e⟩ := p
  simp only [Folded.push, foldReciprocal?_withLimit hlimit f.coefficient h]

namespace Call

/-- No exponent that the call itself meets in folding reciprocals is beyond the limit. -/
def FoldsWithin (limit : ℕ) : Call α → Prop
  | mul fs => ∀ p ∈ (collectPowers Expr.add fs).powers, ¬BeyondLimit limit p
  | _ => True

/-- None that is met in any call that the call leads to is beyond the limit. -/
def StaysWithin (limit : ℕ) (c : Call α) : Prop :=
  ∀ d, Relation.ReflTransGen Makes c d → d.FoldsWithin limit

lemma StaysWithin.of_makes {c d : Call α} (h : c.StaysWithin limit) (hmakes : Makes c d) :
    d.StaysWithin limit :=
  fun _ hreach => h _ (.head hmakes hreach)

/-- What a call does itself does not depend on a limit beyond the exponents that it meets. -/
lemma perform_withLimit (hlimit : Scalar.exponentLimit α ≤ limit) {c : Call α}
    (hfolds : c.FoldsWithin (Scalar.exponentLimit α)) {answer : Call α → Expr α}
    (h : ∀ d, Makes c d → answer d = d.result) :
    @perform α (scalar.withLimit limit) answer c = c.perform answer := by
  cases c with
  | add ts => exact addWith_withLimit _ ts
  | mul fs =>
    have hpush : ∀ f, ∀ p ∈ (collectPowers Expr.add fs).powers,
        @Folded.push α (scalar.withLimit limit) (fun b e => answer (pow b e)) f p =
          Folded.push (fun b e => answer (pow b e)) f p :=
      fun f p hp => push_withLimit hlimit _ f (hfolds p hp)
    simp only [perform, mulWith, collectPowers_withLimit, collectPowers_eq h]
    rw [List.foldl_ext _ _ _ hpush]
    rfl
  | pow b e => cases b <;> rfl

variable [UnitScalar α]

/-- Calls that stay within the limit have the same results for every higher limit. -/
theorem result_withLimit (hlimit : Scalar.exponentLimit α ≤ limit) (c : Call α)
    (h : c.StaysWithin (Scalar.exponentLimit α)) :
    @result α (scalar.withLimit limit) c = c.result := by
  have hunit : @UnitScalar α (scalar.withLimit limit) :=
    @UnitScalar.mk α (scalar.withLimit limit) (UnitScalar.isOne_one (α := α))
      (UnitScalar.isZero_one (α := α))
  induction c using (InvImage.wf rank wellFounded_lt).induction with
  | h c ih =>
    have hmade (d : Call α) (hd : Makes c d) :
        @result α (scalar.withLimit limit) d = d.result := ih d (rank_lt hd) (h.of_makes hd)
    rw [← perform_eq_result hmade, ← perform_withLimit hlimit (h c .refl) hmade]
    exact (@perform_eq_result α (scalar.withLimit limit) hunit c _ fun _ _ => rfl).symm

end Call

open RealScalar

/-- Over the real numbers, calls that stay within the limit of machine numbers are free of it. -/
theorem limitFree_result {c : Call ℝ} (h : c.StaysWithin machineExponentLimit) :
    LimitFree fun limit => @Call.result ℝ (limited limit) c := by
  have hunit : UnitScalar ℝ := ⟨decide_eq_true rfl, decide_eq_false one_ne_zero⟩
  exact fun _ hlimit => Call.result_withLimit hlimit c h

variable {a b e : Expr ℝ}

lemma limitFree_neg (h : (Call.mul [number (-1), e]).StaysWithin machineExponentLimit) :
    LimitFree fun limit => @neg ℝ (limited limit) e := limitFree_result h

/-- A difference negates and adds. -/
lemma limitFree_sub (hneg : (Call.mul [number (-1), b]).StaysWithin machineExponentLimit)
    (hadd : (Call.add [a, neg b]).StaysWithin machineExponentLimit) :
    LimitFree fun limit => @sub ℝ (limited limit) a b :=
  (limitFree_neg hneg).bind (g := fun limit c => @add ℝ (limited limit) [a, c])
    (limitFree_result hadd)

/-- A quotient raises to minus one and multiplies. -/
lemma limitFree_div (hpow : (Call.pow b (number (-1))).StaysWithin machineExponentLimit)
    (hmul : (Call.mul [a, pow b (number (-1))]).StaysWithin machineExponentLimit) :
    LimitFree fun limit => @div ℝ (limited limit) a b :=
  (limitFree_result hpow).bind (g := fun limit c => @mul ℝ (limited limit) [a, c])
    (limitFree_result hmul)

end Expr

end EquationCompiler
