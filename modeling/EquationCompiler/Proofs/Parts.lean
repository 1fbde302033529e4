import EquationCompiler.Proofs.Weight

/-!
# What a text is put together from

An expression is printed from the texts of its parts. Most parts are smaller
expressions; the terms of a sum lose their signs and the factors below a division
line their negative exponents first. All parts are printed within fewer rounds
than the expression, so the printer never runs out of them.
-/
namespace EquationCompiler

/-- The laws of signs that printing relies on. -/
class SignedScalar (α : Type) [Scalar α] : Prop where
  isOne_one : Scalar.isOne (Scalar.one : α) = true
  isNegative_neg {x : α} (h : Scalar.isNegative x = true) : Scalar.isNegative (-x) = false

namespace Expr
variable {α : Type} [Numeral α]

/-- The fraction as which a product or a power with a negative number as exponent is printed. -/
def asFraction? : Expr α → Option (Fraction α)
  | product fs => some (Fraction.ofFactors fs)
  | power b e =>
    if e.asNumber?.any Scalar.isNegative then some (Fraction.ofFactors [power b e]) else none
  | _ => none

/-- The expressions from whose texts the text of an expression is put together. -/
def parts : Expr α → List (Expr α)
  | sum ts => ts.map fun t => (splitSign t).2
  | product fs => (Fraction.ofFactors fs).above ++ (Fraction.ofFactors fs).below
  | power b e =>
    if e.asNumber?.any Scalar.isNegative then
      (Fraction.ofFactors [power b e]).above ++ (Fraction.ofFactors [power b e]).below
    else [b, e]
  | call _ args => args
  | _ => []

lemma parts_of_asFraction? {e : Expr α} {f : Fraction α} (h : e.asFraction? = some f) :
    e.parts = f.above ++ f.below := by
  cases e with
  | product fs =>
    cases h
    rfl
  | power b e =>
    rw [asFraction?] at h
    split_ifs at h with hnegative
    cases h
    rw [parts, if_pos hnegative]
  | _ => cases h

/-- A factor below the line is a power with a negative exponent, which it has lost. -/
def IsInverted (e factor : Expr α) : Prop :=
  ∃ b x, factor = power b (number x) ∧ Scalar.isNegative x = true ∧ e = pow b (number (-x))

/-- A factor is put above the line as it is, or below it without its negative exponent. -/
lemma mem_push {f : Fraction α} {g e : Expr α} :
    (e ∈ (f.push g).above → e ∈ f.above ∨ e = g) ∧
      (e ∈ (f.push g).below → e ∈ f.below ∨ IsInverted e g) := by
  unfold Fraction.push
  split
  · exact ⟨.inl, .inl⟩
  · next b x =>
    split_ifs with hnegative
    · exact ⟨.inl, fun he => (List.mem_append.mp he).imp_right fun he =>
        ⟨b, x, rfl, hnegative, List.mem_singleton.mp he⟩⟩
    · exact ⟨by simp, .inl⟩
  · exact ⟨by simp, .inl⟩

lemma mem_foldl_push {fs : List (Expr α)} {f : Fraction α} {e : Expr α} :
    (e ∈ (fs.foldl Fraction.push f).above → e ∈ f.above ∨ e ∈ fs) ∧
      (e ∈ (fs.foldl Fraction.push f).below → e ∈ f.below ∨ ∃ g ∈ fs, IsInverted e g) := by
  induction fs generalizing f with
  | nil => exact ⟨.inl, .inl⟩
  | cons g fs ih =>
    constructor
    · intro he
      rcases ih.1 he with he | he
      · exact (mem_push.1 he).imp_right fun he => List.mem_cons.mpr (.inl he)
      · exact .inr (List.mem_cons_of_mem g he)
    · intro he
      rcases ih.2 he with he | ⟨k, hk, he⟩
      · exact (mem_push.2 he).imp_right fun he => ⟨g, List.mem_cons_self, he⟩
      · exact .inr ⟨k, List.mem_cons_of_mem g hk, he⟩

/-- Factors above the line are left as they are, those below lose their negative exponents. -/
lemma mem_ofFactors (fs : List (Expr α)) :
    (∀ e ∈ (Fraction.ofFactors fs).above, e ∈ fs) ∧
      ∀ e ∈ (Fraction.ofFactors fs).below, ∃ b x,
        power b (number x) ∈ fs ∧ Scalar.isNegative x = true ∧ e = pow b (number (-x)) := by
  constructor
  · intro e he
    exact (mem_foldl_push.1 he).resolve_left List.not_mem_nil
  · intro e he
    obtain ⟨_, hmem, b, x, rfl, hnegative, he⟩ :=
      (mem_foldl_push.2 he).resolve_left List.not_mem_nil
    exact ⟨b, x, hmem, hnegative, he⟩

section
variable {P : Expr α → Prop}

lemma Algebraic.ofFactors (H : Algebraic P) {fs : List (Expr α)} (h : ∀ f ∈ fs, P f) :
    ∀ e ∈ (Fraction.ofFactors fs).above ++ (Fraction.ofFactors fs).below, P e := by
  intro e he
  rcases List.mem_append.mp he with he | he
  · exact h e ((mem_ofFactors fs).1 e he)
  · obtain ⟨b, x, hmem, -, rfl⟩ := (mem_ofFactors fs).2 e he
    exact H.pow (H.of_power (h _ hmem)).1 (H.number _)

lemma Algebraic.splitSign (H : Algebraic P) {e : Expr α} (h : P e) : P (splitSign e).2 := by
  unfold Expr.splitSign
  split
  · split_ifs <;> exact H.number _
  · next c rest =>
    split_ifs
    · have hfactors := List.forall_mem_cons.mp (H.of_product h)
      exact H.mul (List.forall_mem_cons.mpr ⟨H.number _, hfactors.2⟩)
    · exact h
  · exact h

theorem Inherited.of_mem_parts (H : Inherited P) {e p : Expr α} (he : P e) (hp : p ∈ e.parts) : P p := by
  cases e with
  | number x | symbol s | constant c => cases hp
  | sum ts =>
    obtain ⟨t, ht, rfl⟩ := List.mem_map.mp hp
    exact H.splitSign (H.of_sum he t ht)
  | product fs => exact H.ofFactors (H.of_product he) p hp
  | power b e =>
    obtain ⟨hb, hexponent⟩ := H.of_power he
    rw [parts] at hp
    split_ifs at hp
    · exact H.ofFactors (by simpa using he) p hp
    · simp only [List.mem_cons, List.not_mem_nil, or_false] at hp
      rcases hp with rfl | rfl
      · exact hb
      · exact hexponent
  | call f args => exact H.of_call he p hp

end

/-- Whether the expression is a power with a negative number as exponent. -/
def isReciprocal : Expr α → Bool
  | power _ (number x) => Scalar.isNegative x
  | _ => false

/-- How many rounds printing takes at most, less one. -/
def bulk (e : Expr α) : ℕ := 2 * e.weight + if e.isReciprocal then 1 else 0

lemma bulk_le (e : Expr α) : e.bulk ≤ 2 * e.weight + 1 := by
  unfold bulk
  split_ifs <;> omega

lemma bulk_lt_rounds (e : Expr α) : e.bulk < 2 * e.weight + 2 := Nat.lt_succ_of_le e.bulk_le

variable [SignedScalar α]

lemma weight_splitSign_le (e : Expr α) : (splitSign e).2.weight ≤ e.weight := by
  unfold splitSign
  split
  · split_ifs <;> exact le_rfl
  · next c rest =>
    split_ifs
    · have hmul := weight_mul_le SignedScalar.isOne_one (number (-c) :: rest)
      have hfactors := weightAll_factorsAll_le (number (-c) :: rest)
      simp only [weight, weightAll] at hmul hfactors ⊢
      omega
    · exact le_rfl
  · exact le_rfl

lemma weight_le_of_mem_ofFactors {fs : List (Expr α)} {e : Expr α}
    (h : e ∈ (Fraction.ofFactors fs).above ++ (Fraction.ofFactors fs).below) :
    e.weight ≤ weightAll fs := by
  rcases List.mem_append.mp h with h | h
  · exact weight_le_of_mem ((mem_ofFactors fs).1 e h)
  · obtain ⟨b, x, hmem, -, rfl⟩ := (mem_ofFactors fs).2 e h
    have hpow := (weight_pow_le SignedScalar.isOne_one b (number (-x))).1
    have hle := weight_le_of_mem hmem
    simp only [weight] at hpow hle
    omega

/-- A factor below the line of a single power is printed in fewer rounds than the power. -/
lemma bulk_reciprocal_lt (b : Expr α) {x : α} (hx : Scalar.isNegative x = true) :
    (pow b (number (-x))).bulk < (power b (number x)).bulk := by
  obtain ⟨hle, hstrict⟩ := weight_pow_le SignedScalar.isOne_one b (number (-x))
  have hbulk : (power b (number x)).bulk = 2 * (b.weight + 1) + 1 := by
    simp [bulk, isReciprocal, weight, hx]
  simp only [weight] at hle hstrict
  rw [hbulk]
  by_cases hrec : (pow b (number (-x))).isReciprocal = true
  · obtain ⟨c, y, hpow⟩ : ∃ c y, pow b (number (-x)) = power c (number y) := by
      unfold isReciprocal at hrec
      split at hrec
      · next heq => exact ⟨_, _, heq⟩
      · cases hrec
    rcases hstrict c y hpow with hless | hsame
    · simp only [bulk, if_pos hrec]
      omega
    · have hpositive := SignedScalar.isNegative_neg hx
      rw [Expr.number.inj hsame] at hpositive
      rw [hpow, isReciprocal, hpositive] at hrec
      cases hrec
  · simp only [bulk, if_neg hrec]
    omega

/-- Each part is printed in fewer rounds than the whole. -/
theorem bulk_lt_of_mem_parts {e p : Expr α} (h : p ∈ e.parts) : p.bulk < e.bulk := by
  have hp := p.bulk_le
  cases e with
  | number x | symbol s | constant c => cases h
  | sum ts =>
    obtain ⟨t, ht, rfl⟩ := List.mem_map.mp h
    have hsplit := weight_splitSign_le t
    have hterm := weight_le_of_mem ht
    simp only [bulk, weight] at hp ⊢
    omega
  | product fs =>
    have hfactor := weight_le_of_mem_ofFactors h
    simp only [bulk, weight] at hp ⊢
    omega
  | power b e =>
    rw [parts] at h
    split_ifs at h with hnegative
    · cases e with
      | number x =>
        have hx : Scalar.isNegative x = true := hnegative
        have hparts : (Fraction.ofFactors [power b (number x)]).above ++
            (Fraction.ofFactors [power b (number x)]).below = [pow b (number (-x))] := by
          simp [Fraction.ofFactors, Fraction.push, hx]
        rw [hparts, List.mem_singleton] at h
        rw [h]
        exact bulk_reciprocal_lt b hx
      | _ => cases hnegative
    · simp only [List.mem_cons, List.not_mem_nil, or_false] at h
      simp only [bulk, weight] at hp ⊢
      rcases h with rfl | rfl <;> omega
  | call f args =>
    have hargument := weight_le_of_mem (show p ∈ args from h)
    simp only [bulk, weight] at hp ⊢
    omega

/-- What passes from the parts to the whole, in one round more, holds of every expression in more
rounds than its bulk. The expressions may be limited to a property that their parts have too. -/
theorem rounds_induction {P : Expr α → Prop} {R : ℕ → Expr α → Prop}
    (hparts : ∀ {e p : Expr α}, P e → p ∈ e.parts → P p)
    (hround : ∀ {rounds : ℕ} {e : Expr α}, P e → (∀ p ∈ e.parts, R rounds p) → R (rounds + 1) e)
    {rounds : ℕ} {e : Expr α} (he : P e) (hrounds : e.bulk < rounds) : R rounds e := by
  induction rounds generalizing e with
  | zero => exact absurd hrounds (Nat.not_lt_zero _)
  | succ rounds ih =>
    refine hround he fun p hp => ih (hparts he hp) ?_
    have hpart := bulk_lt_of_mem_parts hp
    omega

end Expr

end EquationCompiler
