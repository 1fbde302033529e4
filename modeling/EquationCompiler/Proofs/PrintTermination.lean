import EquationCompiler.Proofs.MachineText
import EquationCompiler.Proofs.PrintRead
import EquationCompiler.Proofs.Termination

/-!
# Printing ends

The printer recurses into expressions that it has just built: terms that are
multiplied again without their signs, and factors that are raised again to the
negated exponent. A power with a negative number as exponent is handed over whole, as
the only factor of a fraction. Main statement: no chain of calls goes on for ever,
those of the simplifier included, and each call does nothing but put together the
results of the calls that it makes.

Calls of the printer are ranked by the bulk of what they print, twice its weight and
one more for a negative exponent. Simplifying adds no weight, and raising to a positive
exponent gives a power with a negative exponent only if it has saved weight.
-/
namespace EquationCompiler.Expr

section
variable {α : Type} [Numeral α]

/-- The text of a sum, given how terms are split into sign and magnitude. -/
def printTerms (split : Expr α → Bool × Expr α) (print : Expr α → Printed) (ts : List (Expr α)) :
    Printed :=
  ⟨joinTerms (ts.map fun t => ((split t).1, (print (split t).2).atLeast .product)), .sum⟩

/-- The text of a fraction. -/
def printFraction (d : Dialect) (print : Expr α → Printed) (f : Fraction α) : Printed :=
  let text := "*".intercalate (leadText d f ++ f.above.map fun e => (print e).atLeast .product) ++
    printBelow d print f.below
  if Scalar.isNegative f.coefficient then ⟨"-" ++ text, .sum⟩ else ⟨text, .product⟩

variable {d : Dialect} {print print' : Expr α → Printed}

lemma printSum_eq (ts : List (Expr α)) : printSum print ts = printTerms splitSign print ts := rfl

omit [Numeral α] in
lemma printTerms_congr {split split' : Expr α → Bool × Expr α} {ts : List (Expr α)}
    (hsplit : ∀ t ∈ ts, split t = split' t)
    (hprint : ∀ t ∈ ts, print (split' t).2 = print' (split' t).2) :
    printTerms split print ts = printTerms split' print' ts := by
  have hterms := List.map_congr_left fun t ht =>
    show ((split t).1, (print (split t).2).atLeast .product) =
      ((split' t).1, (print' (split' t).2).atLeast .product) by rw [hsplit t ht, hprint t ht]
  rw [printTerms, printTerms, hterms]

/-- A number below the line is written at once. -/
lemma printDivisor_congr {e : Expr α} (h : e.isNumber = false → print e = print' e)
    (needed : Precedence) : printDivisor d print needed e = printDivisor d print' needed e := by
  cases e with
  | number x => rfl
  | _ => simp only [printDivisor, h rfl]

lemma printBelow_congr {es : List (Expr α)}
    (h : ∀ e ∈ es, e.isNumber = false → print e = print' e) :
    printBelow d print es = printBelow d print' es := by
  match es with
  | [] => rfl
  | [e] => rw [printBelow, printBelow, printDivisor_congr (h e List.mem_cons_self)]
  | e :: f :: more =>
    have hdivisors := List.map_congr_left fun g hg => printDivisor_congr (d := d) (h g hg) .product
    simp only [printBelow, hdivisors]

lemma printFraction_congr {f : Fraction α} (habove : ∀ e ∈ f.above, print e = print' e)
    (hbelow : ∀ e ∈ f.below, e.isNumber = false → print e = print' e) :
    printFraction d print f = printFraction d print' f := by
  have hfactors := List.map_congr_left fun e he =>
    congrArg (fun p : Printed => p.atLeast .product) (habove e he)
  simp only [printFraction, hfactors, printBelow_congr hbelow]

/-- The exponent of a root is not written. -/
lemma printPower_congr {b e : Expr α} (hb : print b = print' b)
    (he : e.asNumber?.any (Scalar.same · Scalar.half) = false → print e = print' e) :
    printPower d print b e = printPower d print' b e := by
  unfold printPower
  split_ifs with hhalf
  · rw [hb]
  · rw [hb, he (by simpa using hhalf)]

lemma printCall_congr {f : Elementary} {args : List (Expr α)}
    (h : ∀ a ∈ args, print a = print' a) :
    printWith d print (call f args) = printWith d print' (call f args) := by
  have hargs := List.map_congr_left fun a ha => congrArg Printed.text (h a ha)
  simp only [printWith, hargs]

/-- A text is put together from the texts of the parts and from nothing else. -/
lemma printWith_congr {e : Expr α} (h : ∀ p ∈ e.parts, print p = print' p) :
    printWith d print e = printWith d print' e := by
  cases e with
  | number x | symbol s | constant c => rfl
  | sum ts =>
    exact printTerms_congr (fun _ _ => rfl) fun t ht => h _ (List.mem_map.mpr ⟨t, ht, rfl⟩)
  | product fs =>
    obtain ⟨habove, hbelow⟩ := List.forall_mem_append.mp h
    exact printFraction_congr habove fun e he _ => hbelow e he
  | power b e =>
    rw [parts] at h
    rw [printWith, printWith]
    split_ifs at h ⊢
    · obtain ⟨habove, hbelow⟩ := List.forall_mem_append.mp h
      exact printFraction_congr habove fun e he _ => hbelow e he
    · exact printPower_congr (h b (by simp)) fun _ => h e (by simp)
  | call f args => exact printCall_congr h

variable [SignedScalar α]

/-- How many rounds the printer is given does not matter as long as there are enough. -/
lemma printIn_eq_printIn {rounds rounds' : ℕ} {e : Expr α} (h : e.bulk < rounds)
    (h' : e.bulk < rounds') : printIn d rounds e = printIn d rounds' e := by
  refine rounds_induction (P := fun _ => True)
    (R := fun rounds e => ∀ rounds', e.bulk < rounds' → printIn d rounds e = printIn d rounds' e)
    (fun _ _ => trivial) (fun _ hparts rounds' hrounds => ?_) trivial h rounds' h'
  obtain ⟨rounds', rfl⟩ := Nat.exists_eq_add_one_of_ne_zero (Nat.ne_zero_of_lt hrounds)
  exact printWith_congr fun p hp =>
    hparts p hp rounds' ((bulk_lt_of_mem_parts hp).trans_le (Nat.le_of_lt_succ hrounds))

/-- The equation of the recursion, in which rounds are not mentioned. -/
theorem print_eq (d : Dialect) (e : Expr α) : e.print d = printWith d (Expr.print d) e :=
  printWith_congr fun p hp =>
    printIn_eq_printIn ((bulk_lt_of_mem_parts hp).trans_le e.bulk_le) p.bulk_lt_rounds

end

/-- A call of the printer, for an expression or for the factors of a fraction, or a call of the
simplifier. -/
inductive Task (α : Type) where
  | print (e : Expr α)
  | fraction (fs : List (Expr α))
  | simplify (c : Call α)

namespace Task
variable {α : Type}

/-- The printer gives texts, the simplifier expressions. -/
abbrev Result : Task α → Type
  | print _ | fraction _ => Printed
  | simplify _ => Expr α

variable [Numeral α] (d : Dialect)

def result : (t : Task α) → t.Result
  | print e => e.print d
  | fraction fs => printProduct d (Expr.print d) fs
  | simplify c => c.result

/-- A term as a sign and a magnitude, when `mul` builds the magnitude. -/
def splitSignWith (mul : List (Expr α) → Expr α) : Expr α → Bool × Expr α
  | product (number c :: rest) =>
    if Scalar.isNegative c then (true, mul (number (-c) :: rest))
    else (false, product (number c :: rest))
  | e => splitSign e

/-- A factor is added to a fraction, when `pow` builds the factors below the line. -/
def pushWith (pow : Expr α → Expr α → Expr α) (f : Fraction α) : Expr α → Fraction α
  | power b (number x) =>
    if Scalar.isNegative x then { f with below := f.below ++ [pow b (number (-x))] }
    else f.push (power b (number x))
  | e => f.push e

def fractionWith (pow : Expr α → Expr α → Expr α) (fs : List (Expr α)) : Fraction α :=
  fs.foldl (pushWith pow) ⟨Scalar.one, [], []⟩

/-- What a call does itself, when `answer` does the calls that it makes. -/
def perform (answer : (t : Task α) → t.Result) : (t : Task α) → t.Result
  | print (sum ts) =>
    printTerms (splitSignWith fun fs => answer (simplify (.mul fs))) (fun e => answer (print e)) ts
  | print (product fs) => answer (fraction fs)
  | print (power b e) =>
    if e.asNumber?.any Scalar.isNegative then answer (fraction [power b e])
    else printPower d (fun e => answer (print e)) b e
  | print e => printWith d (fun e => answer (print e)) e
  | fraction fs =>
    printFraction d (fun e => answer (print e))
      (fractionWith (fun b e => answer (simplify (.pow b e))) fs)
  | simplify c => c.perform fun c => answer (simplify c)

/-- The first call makes the second. -/
inductive Makes : Task α → Task α → Prop
  /-- A term that is a product with a negative coefficient is multiplied without its sign. -/
  | sign {ts rest : List (Expr α)} {c : α} (ht : product (number c :: rest) ∈ ts)
      (hc : Scalar.isNegative c = true) :
      Makes (print (sum ts)) (simplify (.mul (number (-c) :: rest)))
  | term {ts : List (Expr α)} {t : Expr α} (ht : t ∈ ts) :
      Makes (print (sum ts)) (print (splitSign t).2)
  | product {fs : List (Expr α)} : Makes (print (product fs)) (fraction fs)
  /-- A power with a negative number as exponent is printed as a fraction of itself. -/
  | reciprocal {b : Expr α} {x : α} (hx : Scalar.isNegative x = true) :
      Makes (print (power b (number x))) (fraction [power b (number x)])
  /-- A factor below the line is raised to the negated exponent. -/
  | raise {fs : List (Expr α)} {b : Expr α} {x : α} (hf : power b (number x) ∈ fs)
      (hx : Scalar.isNegative x = true) :
      Makes (fraction fs) (simplify (.pow b (number (-x))))
  | above {fs : List (Expr α)} {e : Expr α} (he : e ∈ (Fraction.ofFactors fs).above) :
      Makes (fraction fs) (print e)
  | below {fs : List (Expr α)} {e : Expr α} (he : e ∈ (Fraction.ofFactors fs).below)
      (hnumber : e.isNumber = false) : Makes (fraction fs) (print e)
  | base {b e : Expr α} (he : e.asNumber?.any Scalar.isNegative = false) :
      Makes (print (power b e)) (print b)
  /-- The exponent of a root is not printed. -/
  | exponent {b e : Expr α} (he : e.asNumber?.any Scalar.isNegative = false)
      (hhalf : e.asNumber?.any (Scalar.same · Scalar.half) = false) :
      Makes (print (power b e)) (print e)
  | argument {f : Elementary} {args : List (Expr α)} {a : Expr α} (ha : a ∈ args) :
      Makes (print (call f args)) (print a)
  /-- The simplifier makes calls of its own. -/
  | simplify {c c' : Call α} (h : c.Makes c') : Makes (simplify c) (simplify c')

lemma splitSignWith_eq {mul : List (Expr α) → Expr α} {t : Expr α}
    (h : ∀ c rest, t = .product (number c :: rest) → Scalar.isNegative c = true →
      mul (number (-c) :: rest) = Expr.mul (number (-c) :: rest)) :
    splitSignWith mul t = splitSign t := by
  unfold splitSignWith
  split
  · next c rest =>
    rw [splitSign]
    split_ifs with hc
    · rw [h c rest rfl hc]
    · rfl
  · rfl

lemma fractionWith_eq {pow : Expr α → Expr α → Expr α} {fs : List (Expr α)}
    (h : ∀ b x, power b (number x) ∈ fs → Scalar.isNegative x = true →
      pow b (number (-x)) = Expr.pow b (number (-x))) :
    fractionWith pow fs = Fraction.ofFactors fs := by
  refine List.foldl_ext _ _ _ fun f e he => ?_
  unfold pushWith
  split
  · next b x =>
    split_ifs with hx
    · rw [h b x he hx, Fraction.push, if_pos hx]
    · rfl
  · rfl

variable {d} [SignedScalar α]

/-- The result of a call is made from the results of the calls that it makes, and of no others. -/
theorem perform_eq_result [UnitScalar α] {t : Task α} {answer : (t : Task α) → t.Result}
    (h : ∀ u, Makes t u → answer u = u.result d) : t.perform d answer = t.result d := by
  cases t with
  | print e =>
    have hprint : result d (print e) = printWith d (Expr.print d) e := print_eq d e
    rw [hprint]
    cases e with
    | number x | symbol s | constant c => rfl
    | sum ts =>
      have hsplit (t : Expr α) (ht : t ∈ ts) :
          splitSignWith (fun fs => answer (simplify (.mul fs))) t = splitSign t :=
        splitSignWith_eq fun c rest heq hc => h _ (.sign (heq ▸ ht) hc)
      rw [perform, printWith, printSum_eq]
      exact printTerms_congr hsplit fun t ht => h _ (.term ht)
    | product fs => exact h _ .product
    | power b e =>
      rw [perform, printWith]
      split_ifs with hnegative
      · cases e with
        | number x => exact h _ (.reciprocal hnegative)
        | _ => cases hnegative
      · rw [Bool.not_eq_true] at hnegative
        exact printPower_congr (h _ (.base hnegative)) fun hhalf => h _ (.exponent hnegative hhalf)
    | call f args => exact printCall_congr fun a ha => h _ (.argument ha)
  | fraction fs =>
    rw [perform, fractionWith_eq fun b x hf hx => h _ (.raise hf hx)]
    exact printFraction_congr (fun e he => h _ (.above he))
      fun e he hnumber => h _ (.below he hnumber)
  | simplify c => exact Call.perform_eq_result fun c' hc => h _ (.simplify hc)

omit [SignedScalar α] in
/-- The simplifier comes before the printer. Printing goes by the bulk of an expression, and the
factors of a fraction stand above all of its parts. -/
def rank : Task α → ℕ ×ₗ ℕ ×ₗ ℕ ×ₗ ℕ
  | simplify c => toLex (0, c.rank)
  | fraction fs => toLex (1, toLex (2 * weightAll fs, toLex (1, 0)))
  | print e => toLex (1, toLex (e.bulk, toLex (0, 0)))

omit [SignedScalar α] in
lemma isReciprocal_push {f : Fraction α} (hf : ∀ e ∈ f.above, e.isReciprocal = false)
    (g : Expr α) : ∀ e ∈ (f.push g).above, e.isReciprocal = false := by
  unfold Fraction.push
  split
  · exact hf
  · next b x =>
    split_ifs with hx
    · exact hf
    · exact List.forall_mem_append.mpr
        ⟨hf, List.forall_mem_singleton.mpr (by simpa [isReciprocal] using hx)⟩
  · next hnumber hpower =>
    refine List.forall_mem_append.mpr ⟨hf, List.forall_mem_singleton.mpr ?_⟩
    unfold isReciprocal
    split
    · exact absurd rfl (hpower _ _)
    · rfl

omit [SignedScalar α] in
/-- What stands above the line has no negative number as exponent. -/
lemma isReciprocal_of_mem_above (fs : List (Expr α)) :
    ∀ e ∈ (Fraction.ofFactors fs).above, e.isReciprocal = false :=
  List.foldlRecOn fs Fraction.push (motive := fun f => ∀ e ∈ f.above, e.isReciprocal = false)
    (by simp) fun _ hf g _ => isReciprocal_push hf g

/-- Factors above and below the line have no more bulk than the factors together. -/
lemma bulk_le_of_mem_ofFactors {fs : List (Expr α)} {e : Expr α}
    (h : e ∈ (Fraction.ofFactors fs).above ++ (Fraction.ofFactors fs).below) :
    e.bulk ≤ 2 * weightAll fs := by
  rcases List.mem_append.mp h with habove | hbelow
  · have hweight := weight_le_of_mem ((mem_ofFactors fs).1 e habove)
    simp only [bulk, isReciprocal_of_mem_above fs e habove, Bool.false_eq_true, if_false]
    omega
  · obtain ⟨b, x, hmem, hx, rfl⟩ := (mem_ofFactors fs).2 e hbelow
    have hraised := bulk_reciprocal_lt b hx
    have hpower := (power b (number x)).bulk_le
    have hweight := weight_le_of_mem hmem
    omega

/-- Calls of the printer go by bulk, and by the kind of call for equal bulk. -/
lemma printer_lt {m n k l : ℕ} (h : m < n ∨ m = n ∧ k < l) :
    toLex (1, toLex (m, toLex (k, 0))) < toLex (1, toLex (n, toLex (l, 0))) := by
  simpa [Prod.Lex.toLex_lt_toLex] using h

lemma rank_lt_of_mem_parts {e p : Expr α} (h : p ∈ e.parts) : (print p).rank < (print e).rank :=
  printer_lt (.inl (bulk_lt_of_mem_parts h))

theorem rank_lt [UnitScalar α] {t u : Task α} (h : Makes t u) : u.rank < t.rank := by
  cases h with
  | sign | raise => simp [rank, Prod.Lex.toLex_lt_toLex]
  | simplify hc => simpa [rank, Prod.Lex.toLex_lt_toLex] using Call.rank_lt hc
  | @product fs =>
    have hbulk : 2 * weightAll fs < (product fs).bulk := by simp [bulk, weight, isReciprocal]
    exact printer_lt (.inl hbulk)
  | @reciprocal b x hx =>
    have hbulk : 2 * weightAll [power b (number x)] < (power b (number x)).bulk := by
      simp [bulk, weightAll, isReciprocal, hx]
    exact printer_lt (.inl hbulk)
  | above he =>
    have hbulk := bulk_le_of_mem_ofFactors (List.mem_append_left _ he)
    exact printer_lt (hbulk.lt_or_eq.imp_right fun heq => ⟨heq, Nat.one_pos⟩)
  | below he =>
    have hbulk := bulk_le_of_mem_ofFactors (List.mem_append_right _ he)
    exact printer_lt (hbulk.lt_or_eq.imp_right fun heq => ⟨heq, Nat.one_pos⟩)
  | @term ts t ht => exact rank_lt_of_mem_parts (List.mem_map.mpr ⟨t, ht, rfl⟩)
  | base he => exact rank_lt_of_mem_parts (by simp [parts, he])
  | exponent he => exact rank_lt_of_mem_parts (by simp [parts, he])
  | argument ha => exact rank_lt_of_mem_parts ha

end Task

/-- Printing ends on every expression, whatever numbers occur in it, and so does the simplifying on
the way. Formulas and C++ texts are the results of printing, unless a C++ text is refused for a
number that is not finite. -/
theorem printing_ends :
    WellFounded (flip (Task.Makes (α := Float))) ∧
      (∀ (d : Dialect) (t : Task Float) (answer : (t : Task Float) → t.Result),
        (∀ u, t.Makes u → answer u = u.result d) → t.perform d answer = t.result d) ∧
      ∀ e : Expr Float, e.toFormula = ((Task.print e).result .formula).text ∧
        (e.toCpp = .ok ((Task.print e).result .cpp).text ∨
          ∃ x, e.nonFinite? = some x ∧ e.toCpp = .error (.nonFinite (Numeral.text x))) := by
  refine ⟨?_, fun _ _ _ h => Task.perform_eq_result h, fun e => ⟨rfl, ?_⟩⟩
  · exact Subrelation.wf (fun h => Task.rank_lt h) (InvImage.wf Task.rank wellFounded_lt)
  · cases hx : e.nonFinite? with
    | none => exact .inl (by rw [toCpp, hx, Task.result])
    | some x => exact .inr ⟨x, rfl, by rw [toCpp, hx]⟩

/-- The reciprocal of a reciprocal, whose factor below the line is again printed as a fraction. -/
theorem printing_ends_reciprocal :
    Acc (flip Task.Makes)
        (Task.print (power (power (symbol "x") (number (-2 : Float))) (number (-3)))) ∧
      Task.perform .formula
          (fun
            | .print _ | .fraction _ => ⟨"1/(1/x**6)", .product⟩
            | .simplify _ => number (0 : Float))
          (Task.print (power (power (symbol "x") (number (-2))) (number (-3)))) =
        Expr.print .formula (power (power (symbol "x") (number (-2 : Float))) (number (-3))) ∧
      (power (power (symbol "x") (number (-2 : Float))) (number (-3))).toCpp =
        .ok "1.0/(1.0/pow(x, 6))" := by
  obtain ⟨hends, hresult, -⟩ := printing_ends
  have hnegative : (number (-3 : Float)).asNumber?.any Scalar.isNegative = true := by decide +kernel
  refine ⟨hends.apply _, hresult _ _ _ fun u hu => ?_, by decide +kernel⟩
  cases hu with
  | reciprocal =>
    show _ = printProduct .formula (Expr.print .formula)
      [power (power (symbol "x") (number (-2 : Float))) (number (-3))]
    decide +kernel
  | base he | exponent he => exact absurd (hnegative.symm.trans he) (by decide)

end EquationCompiler.Expr
