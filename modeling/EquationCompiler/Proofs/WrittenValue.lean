import EquationCompiler.Proofs.Denotation

/-!
# The text of an expression denotes its value

Taking the sign off a term, and sorting factors above and below a division line,
rebuild pieces with the simplifying constructors, which keep values. So the text
of an expression denotes the value of the expression as soon as the texts of its
parts denote theirs, and all texts do by induction on the rounds of the printer.
-/
namespace EquationCompiler

/-- A negative exponent is a reciprocal. -/
lemma PowerDefined.neg {u w : ℝ} (h : PowerDefined u w) (hw : w < 0) :
    u ≠ 0 ∧ PowerDefined u (-w) ∧ u ^ (-w) = (u ^ w)⁻¹ := by
  have hu : u ≠ 0 := fun hzero => (h.nonneg_of_zero hzero).not_gt hw
  refine ⟨hu, ⟨fun hneg => ?_, fun hzero => absurd hzero hu⟩, ?_⟩
  · obtain ⟨n, rfl⟩ := h.integer_of_neg hneg
    exact ⟨-n, by push_cast; rfl⟩
  · rcases h.cases with hpos | ⟨hzero, -⟩ | ⟨-, n, rfl⟩
    · exact Real.rpow_neg hpos.le w
    · exact absurd hzero hu
    · rw [← Int.cast_neg, Real.rpow_intCast, Real.rpow_intCast, zpow_neg]

/-- A square root is a power with an exponent that admits no negative base. -/
lemma PowerDefined.half {u : ℝ} (h : PowerDefined u (1 / 2)) :
    0 ≤ u ∧ Real.sqrt u = u ^ (1 / 2 : ℝ) := by
  refine ⟨not_lt.mp fun hneg => ?_, Real.sqrt_eq_rpow u⟩
  obtain ⟨n, hn⟩ := h.integer_of_neg hneg
  have htwo : (2 * n : ℤ) = 1 := by
    have : (2 : ℝ) * n = 1 := by rw [← hn]; norm_num
    exact_mod_cast this
  omega

lemma PowerDefined.rpow_ne_zero {u w : ℝ} (h : PowerDefined u w) (hu : u ≠ 0) : u ^ w ≠ 0 := by
  rcases h.cases with hpos | ⟨hzero, -⟩ | ⟨-, n, rfl⟩
  · exact (Real.rpow_pos_of_pos hpos w).ne'
  · exact absurd hzero hu
  · rw [Real.rpow_intCast]
    exact zpow_ne_zero n hu

namespace Expr
open ExactScalar
variable {α : Type} [ExactNumeral α] {ρ : String → Option ℝ}

/-- The value of a term from its sign and its magnitude. -/
def signed (negative : Bool) (x : ℝ) : ℝ := if negative then -x else x

lemma splitSign_spec {t : Expr α} (h : t.Defined ρ) :
    (splitSign t).2.Defined ρ ∧ t.value ρ = signed (splitSign t).1 ((splitSign t).2.value ρ) := by
  unfold splitSign
  split
  · split_ifs <;> simp [signed]
  · next c rest =>
    have hrest := List.forall_mem_cons.mp ((defined_product ρ _).mp h)
    split_ifs
    · have hfactors : ∀ f ∈ number (-c) :: rest, f.Defined ρ :=
        List.forall_mem_cons.mpr ⟨defined_number ρ _, hrest.2⟩
      exact ⟨defined_mul hfactors, by simp [signed, value_mul hfactors]⟩
    · exact ⟨h, rfl⟩
  · exact ⟨h, rfl⟩

lemma toReal_magnitude (x : α) : toReal (Scalar.magnitude x) = |toReal x| := by
  unfold Scalar.magnitude
  split_ifs with h
  · rw [toReal_neg, abs_of_neg ((isNegative_iff x).mp h)]
  · rw [toReal_add, toReal_zero, add_zero, abs_of_nonneg]
    exact not_lt.mp fun hx => h ((isNegative_iff x).mpr hx)

/-- The fraction is defined and has the value. -/
structure Fraction.Means (ρ : String → Option ℝ) (f : Fraction α) (x : ℝ) : Prop where
  above : ∀ e ∈ f.above, e.Defined ρ
  below : ∀ e ∈ f.below, e.Defined ρ ∧ e.value ρ ≠ 0
  value : x = toReal f.coefficient * (f.above.map (value ρ)).prod * (f.below.map (value ρ)).prod⁻¹

/-- One factor more above the line. -/
lemma Fraction.Means.snoc {f : Fraction α} {x : ℝ} (h : f.Means ρ x) {e : Expr α}
    (he : e.Defined ρ) : Fraction.Means ρ { f with above := f.above ++ [e] } (x * e.value ρ) where
  above := List.forall_mem_append.mpr ⟨h.above, by simpa using he⟩
  below := h.below
  value := by
    rw [h.value]
    simp only [List.map_append, List.prod_append, List.map_cons, List.map_nil, List.prod_singleton]
    ring

lemma Fraction.Means.push {f : Fraction α} {x : ℝ} (h : f.Means ρ x) {e : Expr α}
    (he : e.Defined ρ) : (f.push e).Means ρ (x * e.value ρ) := by
  unfold Fraction.push
  split
  · refine ⟨h.above, h.below, ?_⟩
    rw [h.value, value_number, toReal_mul]
    ring
  · next b c =>
    split_ifs with hc
    · obtain ⟨hb, -, hpower⟩ := (defined_power ρ _ _).mp he
      obtain ⟨hu, hdefined, hinverse⟩ := hpower.neg (by simpa using (isNegative_iff c).mp hc)
      have hneg : (number (-c)).value ρ = -(number c).value ρ := by simp
      rw [← hneg] at hdefined hinverse
      have hvalue := value_pow hb (defined_number ρ (-c)) hdefined
      refine ⟨h.above, List.forall_mem_append.mpr ⟨h.below, ?_⟩, ?_⟩
      · rw [List.forall_mem_singleton]
        refine ⟨defined_pow hb (defined_number ρ (-c)) hdefined, ?_⟩
        rw [hvalue]
        exact hdefined.rpow_ne_zero hu
      · simp only [List.map_append, List.prod_append, List.map_cons, List.map_nil,
          List.prod_singleton]
        rw [hvalue, hinverse, h.value, value_power, mul_inv, inv_inv]
        ring
    · exact h.snoc he
  · exact h.snoc he

lemma Fraction.means_ofFactors {fs : List (Expr α)} (h : ∀ f ∈ fs, f.Defined ρ) :
    (Fraction.ofFactors fs).Means ρ (fs.map (Expr.value ρ)).prod := by
  have hpush (f : Fraction α) (x : ℝ) (hf : f.Means ρ x) :
      (fs.foldl Fraction.push f).Means ρ (x * (fs.map (Expr.value ρ)).prod) := by
    induction fs generalizing f x with
    | nil => simpa using hf
    | cons e es ih =>
      rw [List.forall_mem_cons] at h
      rw [List.foldl_cons, List.map_cons, List.prod_cons, ← mul_assoc]
      exact ih h.2 _ _ (hf.push h.1)
  rw [← one_mul (fs.map (Expr.value ρ)).prod]
  exact hpush _ 1 ⟨by simp, by simp, by simp⟩

/-- The parts of a defined expression are defined. -/
lemma defined_of_mem_parts {e p : Expr α} (h : e.Defined ρ) (hp : p ∈ e.parts) : p.Defined ρ := by
  have hfraction {fs : List (Expr α)} (hfs : ∀ f ∈ fs, f.Defined ρ)
      (hp : p ∈ (Fraction.ofFactors fs).above ++ (Fraction.ofFactors fs).below) :
      p.Defined ρ := by
    have hmeans := Fraction.means_ofFactors hfs
    rcases List.mem_append.mp hp with hp | hp
    · exact hmeans.above p hp
    · exact (hmeans.below p hp).1
  cases e with
  | number x | symbol s | constant c => cases hp
  | sum ts =>
    obtain ⟨t, ht, rfl⟩ := List.mem_map.mp hp
    exact (splitSign_spec ((defined_sum ρ ts).mp h t ht)).1
  | product fs => exact hfraction ((defined_product ρ fs).mp h) hp
  | power b e =>
    rw [parts] at hp
    split_ifs at hp
    · exact hfraction (by simpa using h) hp
    · obtain ⟨hb, he, -⟩ := (defined_power ρ b e).mp h
      simp only [List.mem_cons, List.not_mem_nil, or_false] at hp
      rcases hp with rfl | rfl
      · exact hb
      · exact he
  | call f args => exact ((defined_call ρ f args).mp h).1 p hp

/-- In the dialect the names mean what they stand for in expressions. -/
structure Suits (I : Interpretation) (d : Dialect) (ρ : String → Option ℝ)
    (Named : String → Prop) : Prop where
  symbol {s : String} (h : Named s) : I.name s = ρ s
  constant (c : Constant) : I.name (d.constant c) = some c.real
  call {f : Elementary} {xs : List ℝ} (h : f.DefinedAt xs) :
    I.call (d.function f) xs = some (f.real xs)
  root {x : ℝ} (h : 0 ≤ x) : I.call "sqrt" [x] = some (Real.sqrt x)
  power {x y : ℝ} (h : PowerDefined x y) : match d with
    | .formula => I.power x y = some (x ^ y)
    | .cpp => I.call "pow" [x, y] = some (x ^ y)

open Layout Formula
variable [SpelledNumeral α] {I : Interpretation} {d : Dialect} {layout : Expr α → Layout}

omit [SpelledNumeral α] in
lemma means_sum {ts : List (Expr α)} (hne : ts ≠ []) (hts : ∀ t ∈ ts, t.Defined ρ)
    (h : ∀ t ∈ ts, (layout (splitSign t).2).Means I ((splitSign t).2.value ρ)) :
    (layoutSum layout ts).Means I ((ts.map (value ρ)).sum) := by
  have hlater (us : List (Expr α)) (f : Formula) (x : ℝ) (hus : ∀ t ∈ us, t ∈ ts)
      (hf : f.denote I = some x) :
      (us.foldl (addTerm layout) f).denote I = some (x + (us.map (value ρ)).sum) := by
    induction us generalizing f x with
    | nil => simpa using hf
    | cons t us ih =>
      rw [List.forall_mem_cons] at hus
      have hterm := (h t hus.1).formula
      have hvalue := (splitSign_spec (hts t hus.1)).2
      rw [List.foldl_cons, List.map_cons, List.sum_cons, ← add_assoc]
      refine ih _ _ hus.2 ?_
      unfold addTerm
      rw [hvalue, signed]
      split_ifs
      · exact denote_difference hf hterm
      · exact denote_sum hf hterm
  cases ts with
  | nil => exact absurd rfl hne
  | cons t ts =>
    have hterm := (h t (by simp)).atLeast .product
    have hvalue := (splitSign_spec (hts t (by simp))).2
    rw [layoutSum_cons, List.map_cons, List.sum_cons]
    refine means_single _ (hlater ts _ _ (by simp +contextual) ?_)
    rw [hvalue, signed]
    split_ifs
    · exact hterm.negate.formula
    · exact hterm.formula

lemma means_divisor (needed : Precedence) {e : Expr α} (h : (layout e).Means I (e.value ρ)) :
    (layoutDivisor d layout needed e).Means I (e.value ρ) := by
  unfold layoutDivisor
  split
  · exact means_single _ (d.denote_numeral _ _)
  · exact h.atLeast needed

/-- What stands below the line divides. -/
lemma tailMeans_below {es : List (Expr α)} (hes : ∀ e ∈ es, e.value ρ ≠ 0)
    (h : ∀ e ∈ es, (layout e).Means I (e.value ρ)) :
    TailMeans I (layoutBelow d layout es) ((es.map (value ρ)).prod⁻¹) := by
  have hproduct : (es.map (value ρ)).prod ≠ 0 := by
    refine List.prod_ne_zero fun hmem => ?_
    obtain ⟨e, he, hzero⟩ := List.mem_map.mp hmem
    exact hes e he hzero
  rw [← mul_one (es.map (value ρ)).prod⁻¹]
  match es with
  | [] => simpa [layoutBelow] using TailMeans.nil
  | [e] =>
    have hdivisor := (means_divisor (d := d) .power (h e (by simp))).formula
    simp only [List.map_cons, List.map_nil, List.prod_singleton] at hproduct ⊢
    exact .divide hdivisor hproduct .nil
  | e :: e' :: es =>
    refine .divide (means_chain ?_ (by simp)).formula hproduct .nil
    rw [List.forall₂_map_left_iff, List.forall₂_map_right_iff, List.forall₂_same]
    exact fun e he => means_divisor .product (h e he)

/-- The number before the factors above the line is written unless it is one. -/
lemma means_lead (f : Fraction α) :
    ∃ xs, List.Forall₂ (Means I) (layoutLead d f) xs ∧ xs.prod = |toReal f.coefficient| := by
  unfold layoutLead
  dsimp only
  split_ifs with hlead
  · exact ⟨[_], .cons (means_single _ (d.denote_numeral _ _)) .nil, by
      rw [List.prod_singleton, toReal_magnitude]⟩
  · rw [Bool.or_eq_true, not_or, Bool.not_eq_true, Bool.not_eq_false'] at hlead
    exact ⟨[], .nil, by
      rw [List.prod_nil, ← toReal_magnitude, (isOne_iff _).mp hlead.1]⟩

lemma means_unsigned {f : Fraction α} {x : ℝ} (hf : f.Means ρ x)
    (h : ∀ e ∈ f.above ++ f.below, (layout e).Means I (e.value ρ)) :
    (layoutUnsigned d layout f).Means I
      (|toReal f.coefficient| * (f.above.map (value ρ)).prod * (f.below.map (value ρ)).prod⁻¹) := by
  rw [List.forall_mem_append] at h
  obtain ⟨xs, hlead, hxs⟩ := means_lead (I := I) (d := d) f
  have habove : List.Forall₂ (Means I) (f.above.map fun e => (layout e).atLeast .product)
      (f.above.map (value ρ)) := by
    rw [List.forall₂_map_left_iff, List.forall₂_map_right_iff, List.forall₂_same]
    exact fun e he => (h.1 e he).atLeast .product
  have hne : layoutLead d f ++ f.above.map (fun e => (layout e).atLeast .product) ≠ [] := by
    unfold layoutLead
    cases f.above <;> simp
  obtain ⟨a, b, hhead, htail, hab⟩ := means_chain (List.rel_append hlead habove) hne
  refine ⟨a, _, hhead, htail.append (tailMeans_below (fun e he => (hf.below e he).2) h.2), ?_⟩
  rw [← mul_assoc, hab, List.prod_append, hxs]

lemma means_fraction {f : Fraction α} {x : ℝ} (hf : f.Means ρ x)
    (h : ∀ e ∈ f.above ++ f.below, (layout e).Means I (e.value ρ)) :
    (layoutFraction d layout f).Means I x := by
  have hunsigned := means_unsigned (d := d) hf h
  unfold layoutFraction
  rw [hf.value]
  split_ifs with hnegative
  · rw [abs_of_neg ((isNegative_iff _).mp hnegative)] at hunsigned
    simpa only [neg_mul, neg_neg] using hunsigned.negate
  · rwa [abs_of_nonneg (not_lt.mp fun hx => hnegative ((isNegative_iff _).mpr hx))] at hunsigned

variable {Named : String → Prop}

omit [SpelledNumeral α] in
lemma means_power (hI : Suits I d ρ Named) {b e : Expr α}
    (hpower : PowerDefined (b.value ρ) (e.value ρ)) (hb : (layout b).Means I (b.value ρ))
    (he : (layout e).Means I (e.value ρ)) :
    (layoutPower d layout b e).Means I (b.value ρ ^ e.value ρ) := by
  unfold layoutPower
  split_ifs with hroot
  · have hhalf : e.value ρ = 1 / 2 := by
      cases e with
      | number x => simpa [same_iff] using hroot
      | _ => cases hroot
    rw [hhalf] at hpower ⊢
    obtain ⟨hnonneg, hsqrt⟩ := hpower.half
    refine means_single _ ?_
    have hargument : denoteAll I [(layout b).formula] = some [b.value ρ] := by
      simp [denoteAll, hb.formula]
    rw [denote_call hargument, hI.root hnonneg, hsqrt]
  · cases d with
    | formula =>
      refine means_single _ ?_
      rw [denote_power hb.formula he.formula]
      exact hI.power hpower
    | cpp =>
      refine means_single _ ?_
      have harguments : denoteAll I [(layout b).formula, (layout e).formula] =
          some [b.value ρ, e.value ρ] := by
        simp [denoteAll, hb.formula, he.formula]
      rw [denote_call harguments]
      exact hI.power hpower

/-- The layout of an expression means its value if the layouts of its parts mean theirs. -/
lemma means_layoutWith (hI : Suits I d ρ Named) {e : Expr α} (he : Formed Named e)
    (hd : e.Defined ρ) (h : ∀ p ∈ e.parts, (layout p).Means I (p.value ρ)) :
    (layoutWith d layout e).Means I (e.value ρ) := by
  cases he with
  | number x => exact means_single _ ((d.denote_numeral x false).trans (by rw [value_number]))
  | @symbol s hs =>
    obtain ⟨x, hx⟩ := Option.isSome_iff_exists.mp ((defined_symbol ρ s).mp hd)
    refine means_single _ ?_
    rw [denote, hI.symbol hs, value_symbol, hx, Option.getD_some]
  | constant c => exact means_single _ (by rw [denote, hI.constant, value_constant])
  | sum hne hts =>
    rw [value_sum]
    exact means_sum hne ((defined_sum ρ _).mp hd) fun t ht => h _ (List.mem_map.mpr ⟨t, ht, rfl⟩)
  | product hfs =>
    rw [value_product]
    exact means_fraction (Fraction.means_ofFactors ((defined_product ρ _).mp hd)) h
  | @power b e hb he =>
    rw [parts] at h
    rw [layoutWith]
    split_ifs at h ⊢
    · have hfactors : ∀ f ∈ [power b e], f.Defined ρ := by simpa using hd
      have hmeans := Fraction.means_ofFactors hfactors
      rw [List.map_cons, List.map_nil, List.prod_singleton] at hmeans
      exact means_fraction hmeans h
    · rw [value_power]
      exact means_power hI ((defined_power ρ b e).mp hd).2.2 (h b (by simp)) (h e (by simp))
  | @call f args hlength hargs =>
    have hvalues := denoteAll_map fun a (ha : a ∈ args) => (h a ha).formula
    refine means_single _ ?_
    rw [denote_call hvalues,
      hI.call ((defined_call ρ _ _).mp hd).2, value_call]

theorem means_layoutIn (hI : Suits I d ρ Named) {rounds : ℕ} {e : Expr α} (he : Formed Named e)
    (hd : e.Defined ρ) (hrounds : e.bulk < rounds) :
    (layoutIn d rounds e).Means I (e.value ρ) :=
  rounds_induction (P := fun e => Formed Named e ∧ e.Defined ρ)
    (R := fun rounds e => (layoutIn d rounds e).Means I (e.value ρ))
    (fun h hp => ⟨hereditary_formed.of_mem_parts h.1 hp, defined_of_mem_parts h.2 hp⟩)
    (fun h hmeans => means_layoutWith hI h.1 h.2 hmeans) ⟨he, hd⟩ hrounds

/-- Where an expression is defined, its text denotes its value. -/
theorem denote_written (hI : Suits I d ρ Named) {e : Expr α} (he : Formed Named e)
    (hd : e.Defined ρ) : (e.written d).denote I = some (e.value ρ) :=
  (means_layoutIn hI he hd e.bulk_lt_rounds).formula

end Expr

end EquationCompiler
