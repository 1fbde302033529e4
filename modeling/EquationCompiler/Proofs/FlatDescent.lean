import EquationCompiler.Proofs.FlatPhrases

/-!
# From the flat rule to descent

What the rules of formulas and the table of operators give is what reading by descent
gives, down to the place of the first fault and what was expected there. The depth of
the descent is the measure: with enough of it for the tokens that are left, each phrase
agrees with a part of a row, and so the whole text agrees.
-/
namespace EquationCompiler

namespace Parser
open Token Formula
variable {n d s : ℕ} {x y q : List Char} {a b : Attempts} {ts : List Token}
  {P : Formula → List Item → Prop}

/-- What is found agrees with what descent reads with the given depth, phrase by phrase. A nested
expression is shorter than the text, and so is read one level further in. -/
structure Descends (d : ℕ) : Prop where
  sum {n : ℕ} {x : List Char} {a : Attempts} (expected : Expected) (hx : Settled x) (ha : a.Fresh x)
    (hn : x.length ≤ n) (hd : 5 * (tokens x).length + 5 ≤ d) :
    Agrees n x 20 (fun f items => Climbs 20 10 items f) (row (expr n) x a) expected
      (readSum d expected (tokens x))
  terms {n : ℕ} {x : List Char} {a : Attempts} (f : Formula) (hx : Settled x) (ha : a.Fresh x)
    (hn : x.length ≤ n) (hd : 5 * (tokens x).length ≤ d) (hbelow : Below 30 (tokens x)) :
    Continues n x 20 (fun g items => Extends 20 f items g) (rounds (expr n) x a)
      (readTerms d f (tokens x))
  term {n : ℕ} {x : List Char} {a : Attempts} (expected : Expected) (hx : Settled x)
    (ha : a.Fresh x) (hn : x.length ≤ n) (hd : 5 * (tokens x).length + 4 ≤ d) :
    Agrees n x 30 (fun f items => Climbs 30 20 items f) (row (expr n) x a) expected
      (readTerm d expected (tokens x))
  factors {n : ℕ} {x : List Char} {a : Attempts} (f : Formula) (hx : Settled x) (ha : a.Fresh x)
    (hn : x.length ≤ n) (hd : 5 * (tokens x).length ≤ d) (hbelow : Below 50 (tokens x)) :
    Continues n x 30 (fun g items => Extends 30 f items g) (rounds (expr n) x a)
      (readFactors d f (tokens x))
  signed {n : ℕ} {x : List Char} {a : Attempts} (expected : Expected) (hx : Settled x)
    (ha : a.Fresh x) (hn : x.length ≤ n) (hd : 5 * (tokens x).length + 3 ≤ d) :
    Agrees n x 50 (fun f items => Climbs 50 30 items f) (row (expr n) x a) expected
      (readSigned d expected (tokens x))
  power {n : ℕ} {x : List Char} (expected : Expected) (hx : Settled x) (hn : x.length ≤ n)
    (hd : 5 * (tokens x).length + 2 ≤ d) :
    Agrees n x 50 (fun f items => Climbs 50 30 items f)
      ((primary (expr n)).andThen (rounds (expr n)) x ⟨x.length, [.neg, .pos]⟩) expected
      (readPower d expected (tokens x))
  operand {n : ℕ} {x : List Char} (expected : Expected) (hx : Settled x) (hn : x.length ≤ n)
    (hd : 5 * (tokens x).length + 1 ≤ d) :
    Agrees n x 60 IsOperandRow
      ((primary (expr n)).andThen (rounds (expr n)) x ⟨x.length, [.neg, .pos]⟩) expected
      (readOperand d expected (tokens x))
  arguments {n : ℕ} {x : List Char} (hx : Settled x) (hn : x.length ≤ n)
    (hd : 5 * (tokens x).length + 1 ≤ d) :
    ReadsArguments x (moreArguments (expr n) x ⟨x.length, operatorRules⟩)
      (readArguments d (tokens x))

namespace Descends

lemma readTerms_of_stop {d : ℕ} {f : Formula} (h : ∀ t ∈ ts.head?, t.strength ≠ 20) :
    readTerms d f ts = .ok (f, ts) := by
  unfold readTerms
  split
  · exact absurd rfl (h _ rfl)
  · exact absurd rfl (h _ rfl)
  · rfl

lemma readFactors_of_stop {d : ℕ} {f : Formula} (h : ∀ t ∈ ts.head?, t.strength ≠ 30) :
    readFactors d f ts = .ok (f, ts) := by
  unfold readFactors
  split
  · exact absurd rfl (h _ rfl)
  · exact absurd rfl (h _ rfl)
  · rfl

/-- The exponent of a power whose base is read, if there is one. -/
def readExponent (d : ℕ) (f : Formula) : List Token → Reading
  | .power :: rest => do
    let (g, rest) ← readSigned d .operand rest
    return (.power f g, rest)
  | rest => return (f, rest)

/-- A part of a row that makes a power of its base `f`, or nothing. -/
def IsExponentRow (f g : Formula) (items : List Item) : Prop :=
  (items = [] ∧ g = f) ∨
    ∃ h more, items = .operator .pow :: more ∧ Climbs 50 30 more h ∧ g = .power f h

/-- The row goes on, but not with this phrase. -/
lemma continues_of_stop {f : Formula} (hx : Settled x) (ha : a.Fresh x) (hP : P f [])
    (hbelow : Below s (tokens x)) : Continues n x s P (rounds (expr n) x a) (.ok (f, tokens x)) :=
  .ok (Place.self hx) ha rfl hP hbelow (by rw [after_nil])

variable (ih : Descends d)
include ih

lemma sum_succ (expected : Expected) (hx : Settled x) (ha : a.Fresh x) (hn : x.length ≤ n)
    (hd : 5 * (tokens x).length + 5 ≤ d + 1) :
    Agrees n x 20 (fun f items => Climbs 20 10 items f) (row (expr n) x a) expected
      (readSum (d + 1) expected (tokens x)) := by
  rw [readSum]
  refine (ih.term expected hx ha hn (by omega)).bind (k := readTerms d)
    (fun {f y ts b} hplace hfresh hbelow => ?_) fun hterm hmore => hterm.extend (by decide) hmore
  obtain rfl := hplace.tokens_eq
  have := hplace.tokens_length_le
  exact ih.terms f hplace.settled hfresh (hplace.length_le.trans hn) (by omega) hbelow

lemma term_succ (expected : Expected) (hx : Settled x) (ha : a.Fresh x) (hn : x.length ≤ n)
    (hd : 5 * (tokens x).length + 4 ≤ d + 1) :
    Agrees n x 30 (fun f items => Climbs 30 20 items f) (row (expr n) x a) expected
      (readTerm (d + 1) expected (tokens x)) := by
  rw [readTerm]
  refine (ih.signed expected hx ha hn (by omega)).bind (k := readFactors d)
    (fun {f y ts b} hplace hfresh hbelow => ?_)
    fun hsigned hmore => hsigned.extend (by decide) hmore
  obtain rfl := hplace.tokens_eq
  have := hplace.tokens_length_le
  exact ih.factors f hplace.settled hfresh (hplace.length_le.trans hn) (by omega) hbelow

lemma terms_of_operator {f : Formula} {t : Token} {r : Rule} {join : Formula → Formula}
    (hx : Settled x) (ha : a.Fresh x) (hn : x.length ≤ n) (hd : 5 * (tokens x).length ≤ d + 1)
    (ht : tokens x = t :: ts) (hr : t.joins? = some r) (hbinding : r.binding? = some (.left, 20))
    (hjoin : ∀ g, joined? r f g = some (join g)) :
    Continues n x 20 (fun g items => Extends 20 f items g) (rounds (expr n) x a)
      (readTerm d .operand ts >>= fun (g, us) => readTerms d (join g) us) := by
  rw [ht, List.length_cons] at hd
  refine continues_of_operator (u := 30) hx ht hr ha hbinding (by decide) hjoin
    (fun hy hfresh => ?_) fun {g y us b} hy hlength hfresh hbelow => ?_
  · obtain rfl := hy.tokens_eq
    exact ih.term .operand hy.settled hfresh (hy.length_le.trans hn) (by omega)
  · obtain rfl := hy.tokens_eq
    exact ih.terms _ hy.settled hfresh (hy.length_le.trans hn) (by omega) hbelow

lemma terms_succ (f : Formula) (hx : Settled x) (ha : a.Fresh x) (hn : x.length ≤ n)
    (hd : 5 * (tokens x).length ≤ d + 1) (hbelow : Below 30 (tokens x)) :
    Continues n x 20 (fun g items => Extends 20 f items g) (rounds (expr n) x a)
      (readTerms (d + 1) f (tokens x)) := by
  by_cases hstop : ∀ t ∈ (tokens x).head?, t.strength ≠ 20
  · rw [readTerms_of_stop hstop]
    refine continues_of_stop hx ha (.nil 20 f) fun t ht => ?_
    have hlt := hbelow t ht
    have hne := hstop t ht
    cases t <;> simp_all [strength]
  · push Not at hstop
    obtain ⟨t, hhead, ht⟩ := hstop
    obtain ⟨ts, hts⟩ := List.head?_eq_some_iff.mp hhead
    cases t <;> cases ht
    all_goals
      rw [hts]
      exact ih.terms_of_operator hx ha hn hd hts rfl rfl fun g => rfl

lemma factors_of_operator {f : Formula} {t : Token} {r : Rule} {join : Formula → Formula}
    (hx : Settled x) (ha : a.Fresh x) (hn : x.length ≤ n) (hd : 5 * (tokens x).length ≤ d + 1)
    (ht : tokens x = t :: ts) (hr : t.joins? = some r) (hbinding : r.binding? = some (.left, 30))
    (hjoin : ∀ g, joined? r f g = some (join g)) :
    Continues n x 30 (fun g items => Extends 30 f items g) (rounds (expr n) x a)
      (readSigned d .operand ts >>= fun (g, us) => readFactors d (join g) us) := by
  rw [ht, List.length_cons] at hd
  refine continues_of_operator (u := 50) hx ht hr ha hbinding (by decide) hjoin
    (fun hy hfresh => ?_) fun {g y us b} hy hlength hfresh hbelow => ?_
  · obtain rfl := hy.tokens_eq
    exact ih.signed .operand hy.settled hfresh (hy.length_le.trans hn) (by omega)
  · obtain rfl := hy.tokens_eq
    exact ih.factors _ hy.settled hfresh (hy.length_le.trans hn) (by omega) hbelow

lemma factors_succ (f : Formula) (hx : Settled x) (ha : a.Fresh x) (hn : x.length ≤ n)
    (hd : 5 * (tokens x).length ≤ d + 1) (hbelow : Below 50 (tokens x)) :
    Continues n x 30 (fun g items => Extends 30 f items g) (rounds (expr n) x a)
      (readFactors (d + 1) f (tokens x)) := by
  by_cases hstop : ∀ t ∈ (tokens x).head?, t.strength ≠ 30
  · rw [readFactors_of_stop hstop]
    refine continues_of_stop hx ha (.nil 30 f) fun t ht => ?_
    have hlt := hbelow t ht
    have hne := hstop t ht
    cases t <;> simp_all [strength]
  · push Not at hstop
    obtain ⟨t, hhead, ht⟩ := hstop
    obtain ⟨ts, hts⟩ := List.head?_eq_some_iff.mp hhead
    cases t <;> cases ht
    all_goals
      rw [hts]
      exact ih.factors_of_operator hx ha hn hd hts rfl rfl fun g => rfl

lemma signed_succ (expected : Expected) (hx : Settled x) (ha : a.Fresh x) (hn : x.length ≤ n)
    (hd : 5 * (tokens x).length + 3 ≤ d + 1) :
    Agrees n x 50 (fun f items => Climbs 50 30 items f) (row (expr n) x a) expected
      (readSigned (d + 1) expected (tokens x)) := by
  by_cases hminus : (tokens x).head? = some .minus
  · obtain ⟨ts, hts⟩ := List.head?_eq_some_iff.mp hminus
    obtain ⟨rest, hstarts, hy, hlt⟩ := Place.next hx hts
    obtain ⟨text, hsign⟩ := sign_minus (a := a) hstarts
    rw [hts, List.length_cons] at hd
    rw [hts]
    obtain rfl := hy.tokens_eq
    refine agrees_of_sign hy hlt (row_of_sign hsign) rfl ?_ ((ih.signed .operand hy.settled
      (Attempts.fresh_of_lt (Nat.lt_of_lt_of_le hlt ha.2)) (hy.length_le.trans hn) (by omega)).map
        (Q := fun f items => ∃ g, f = negation g ∧ Climbs 50 30 items g) fun h => ⟨_, rfl, h⟩)
    rintro _ items ⟨f, rfl, hf⟩
    exact hf.sign rfl
  · by_cases hplus : (tokens x).head? = some .plus
    · obtain ⟨ts, hts⟩ := List.head?_eq_some_iff.mp hplus
      obtain ⟨rest, hstarts, hy, hlt⟩ := Place.next hx hts
      obtain ⟨text, hsign⟩ := sign_plus (a := a) hstarts
      rw [hts, List.length_cons] at hd
      rw [hts]
      obtain rfl := hy.tokens_eq
      have hfresh : (a.fail .neg x).Fresh (rest.dropWhile isBlank) :=
        Attempts.fresh_of_lt (Nat.lt_of_lt_of_le hlt (Attempts.left_fail ha.2 _))
      exact agrees_of_sign hy hlt (row_of_sign hsign) rfl (fun hf => hf.sign rfl)
        (ih.signed .operand hy.settled hfresh (hy.length_le.trans hn) (by omega))
    · have hread : readSigned (d + 1) expected (tokens x) = readPower d expected (tokens x) := by
        rw [readSigned]
        · rintro ts hts
          simp [hts] at hminus
        · rintro ts hts
          simp [hts] at hplus
      rw [hread, row_of_operand hx (sign_none hx hminus hplus ha)]
      exact ih.power expected hx hn (by omega)

lemma continues_of_base {f : Formula} (hy : Settled y) (hb : b.Fresh y) (hn : y.length ≤ n)
    (hd : 5 * (tokens y).length + 1 ≤ d) :
    Continues n y 50 (IsExponentRow f) (rounds (expr n) y b) (readExponent d f (tokens y)) := by
  unfold readExponent
  split
  · next us hus =>
    refine Continues.operator (P := fun h items => ∃ g, h = .power f g ∧ Climbs 50 30 items g)
      hy hus rfl hb.2 (fun {z c} hz hfresh _ => ?_) ?_
    · rw [hus, List.length_cons] at hd
      obtain rfl := hz.tokens_eq
      exact (ih.signed .operand hz.settled hfresh (hz.length_le.trans hn) (by omega)).map
        fun h => ⟨_, rfl, h⟩
    · rintro _ items ⟨h, rfl, hh⟩
      exact .inr ⟨h, items, rfl, hh, rfl⟩
  · next hne =>
    refine continues_of_stop hy hb (.inl ⟨rfl, rfl⟩) fun t ht => ?_
    obtain ⟨us, hus⟩ := List.head?_eq_some_iff.mp ht
    cases t <;> first | exact (hne us hus).elim | simp [strength]

lemma power_succ (expected : Expected) (hx : Settled x) (hn : x.length ≤ n)
    (hd : 5 * (tokens x).length + 2 ≤ d + 1) :
    Agrees n x 50 (fun f items => Climbs 50 30 items f)
      ((primary (expr n)).andThen (rounds (expr n)) x ⟨x.length, [.neg, .pos]⟩) expected
      (readPower (d + 1) expected (tokens x)) := by
  rw [readPower]
  refine (ih.operand expected hx hn (by omega)).bind (k := readExponent d) (Q := IsExponentRow)
    (fun {f y ts b} hy hfresh _ => ?_) ?_
  · obtain rfl := hy.tokens_eq
    have hlength := hy.tokens_length_le
    exact ih.continues_of_base hy.settled hfresh (hy.length_le.trans hn) (by omega)
  · rintro f items g more rfl (⟨rfl, rfl⟩ | ⟨h, more, rfl, hh, rfl⟩)
    · exact .operand g 50 30
    · exact .power f hh

/-- A nested expression is shorter than the text around it. -/
lemma readsExpr {z : List Char} (hz : Settled z) (hb : b.Fresh z) (hn : z.length < n)
    (hd : 5 * (tokens z).length + 5 ≤ d) :
    ReadsExpr z (expr n z b) (readSum d .expression (tokens z)) := by
  obtain ⟨k, rfl⟩ : ∃ k, n = k + 1 := ⟨n - 1, by omega⟩
  exact readsExpr_of_row hb (ih.sum .expression hz hb (by omega) hd)

lemma readsArguments {z : List Char} (hz : Settled z) (hb : b.Fresh z) (hn : z.length < n)
    (hd : 5 * (tokens z).length + 5 ≤ d) :
    ReadsArguments z ((expr n).seq (moreArguments (expr n)) z b) (do
      let (arg, rest) ← readSum d .expression (tokens z)
      let (args, rest) ← readArguments d rest
      return (arg :: args, rest)) := by
  refine readsArguments_of_readsExpr (fun {y ts} hy => ?_) hz (ih.readsExpr hz hb hn hd)
  have hlength := hy.tokens_length_le
  have hle := hy.length_le
  obtain rfl := hy.tokens_eq
  exact ih.arguments hy.settled (by omega) (by omega)

lemma operand_succ (expected : Expected) (hx : Settled x) (hn : x.length ≤ n)
    (hd : 5 * (tokens x).length + 1 ≤ d + 1) :
    Agrees n x 60 IsOperandRow
      ((primary (expr n)).andThen (rounds (expr n)) x ⟨x.length, [.neg, .pos]⟩) expected
      (readOperand (d + 1) expected (tokens x)) := by
  unfold readOperand
  split
  · next _ _ hts => exact .inr (continues_of_number hx hts)
  · next depth s ts hdepth hts =>
    cases hdepth
    rw [hts, List.length_cons, List.length_cons] at hd
    have hargs {z : List Char} {b : Attempts} (hz : Place x z ts) (hlt : z.length < x.length)
        (hb : b.Fresh z) : ReadsArguments z ((expr n).seq (moreArguments (expr n)) z b) (do
          let (arg, rest) ← readSum d .expression ts
          let (args, rest) ← readArguments d rest
          return (arg :: args, rest)) := by
      obtain rfl := hz.tokens_eq
      exact ih.readsArguments hz.settled hb (Nat.lt_of_lt_of_le hlt hn) (by omega)
    have hcall := continues_of_call hx hts hargs
    simp only [bind_assoc, pure_bind] at hcall
    exact .inr hcall
  · next s ts hopening _ hts =>
    refine .inr (continues_of_name hx hts fun hhead => ?_)
    obtain ⟨us, hus⟩ := List.head?_eq_some_iff.mp hhead
    exact hopening us hus
  · next depth ts hdepth hts =>
    cases hdepth
    rw [hts, List.length_cons] at hd
    refine .inr (continues_of_group hx hts fun {z b} hz hlt hb => ?_)
    obtain rfl := hz.tokens_eq
    exact ih.readsExpr hz.settled hb (Nat.lt_of_lt_of_le hlt hn) (by omega)
  · next hnumber hcall hname hopening =>
    have hne {t : Token} (h : ∀ ts, tokens x ≠ t :: ts) : (tokens x).head? ≠ some t := fun hhead =>
      (List.head?_eq_some_iff.mp hhead).elim h
    have hnone := primary_none (e := expr n) hx
      (fun literal => hne fun ts => hnumber d literal ts rfl)
      (fun s => hne fun ts => hname d s ts rfl) (hne fun ts => hopening d ts rfl)
    exact .inl ⟨andThen_none hnone _, rfl⟩

lemma arguments_succ (hx : Settled x) (hn : x.length ≤ n) (hd : 5 * (tokens x).length + 1 ≤ d + 1) :
    ReadsArguments x (moreArguments (expr n) x ⟨x.length, operatorRules⟩)
      (readArguments (d + 1) (tokens x)) := by
  unfold readArguments
  split
  · next ts _ hts =>
    obtain ⟨rest, hstarts, hy, hlt⟩ := Place.next hx hts
    exact .ok hy (Attempts.fresh_of_lt hlt) rfl
      (congrArg settled (moreArguments_closing hx hstarts _))
  · next depth ts hdepth hts =>
    cases hdepth
    obtain ⟨rest, hstarts, hy, hlt⟩ := Place.next hx hts
    rw [hts, List.length_cons] at hd
    obtain rfl := hy.tokens_eq
    rw [moreArguments_comma (uses_expr n) hx hstarts]
    exact (ih.readsArguments hy.settled (Attempts.fresh_of_lt hlt) (Nat.lt_of_lt_of_le hlt hn)
      (by omega)).trans hy
  · next hclosing hcomma =>
    have hne {t : Token} (h : ∀ ts, tokens x ≠ t :: ts) : (tokens x).head? ≠ some t := fun hhead =>
      (List.head?_eq_some_iff.mp hhead).elim h
    exact .error (moreArguments_none hx (hne fun ts => hclosing d ts rfl)
      (hne fun ts => hcomma d ts rfl) _) (.of_none (Place.self hx) rfl rfl)

end Descends

theorem descends (d : ℕ) : Descends d := by
  -- Every phrase calls others with one less depth, so all of them are carried together.
  induction d with
  | zero =>
    have hnil {x : List Char} (hd : 5 * (tokens x).length ≤ 0) : tokens x = [] :=
      List.eq_nil_of_length_eq_zero (by omega)
    exact {
      sum _ _ _ _ hd := absurd hd (by omega)
      terms f hx ha _ hd _ := by
        rw [Descends.readTerms_of_stop (by simp [hnil hd])]
        exact Descends.continues_of_stop hx ha (.nil 20 f) (by simp [hnil hd, Below])
      term _ _ _ _ hd := absurd hd (by omega)
      factors f hx ha _ hd _ := by
        rw [Descends.readFactors_of_stop (by simp [hnil hd])]
        exact Descends.continues_of_stop hx ha (.nil 30 f) (by simp [hnil hd, Below])
      signed _ _ _ _ hd := absurd hd (by omega)
      power _ _ _ hd := absurd hd (by omega)
      operand _ _ _ hd := absurd hd (by omega)
      arguments _ _ hd := absurd hd (by omega) }
  | succ d ih =>
    exact {
      sum := ih.sum_succ
      terms := ih.terms_succ
      term := ih.term_succ
      factors := ih.factors_succ
      signed := ih.signed_succ
      power := ih.power_succ
      operand := ih.operand_succ
      arguments := ih.arguments_succ }

lemma leftAt_of_place (h : Place x y ts) : leftAt x ts = y.length := by
  have hdrop : (scan x).drop ((scan x).length - ts.length) = scan y := by
    have hlength : ts.length = (scan y).length := by rw [← h.tokens_eq, tokens, List.length_map]
    rw [hlength]
    exact (List.suffix_iff_eq_drop.mp h.suffix).symm
  rw [leftAt, hdrop]
  obtain rfl | ⟨t, rest, -, hscan⟩ := h.settled.cases
  · rfl
  · rw [hscan]

lemma eq_nil_of_tokens (hy : Settled y) (h : tokens y = []) : y = [] := by
  obtain hnil | ⟨t, rest, -, hscan⟩ := hy.cases
  · exact hnil
  · rw [tokens, hscan] at h
    cases h

/-- A formula that is not the whole text ends before something else. -/
lemma eoi_none (hx : x ≠ []) (a : Attempts) :
    rule .eoi (token .atEnd) x a = (none, a.fail .eoi x) :=
  leaf_none _ (if_neg (by simpa using hx)) a

section Expression
variable {cs : List Char}

/-- The formula of a whole text, as found without the blanks before it. -/
abbrev wholeBody (cs : List Char) : Found :=
  (expr (cs.length + 1)).seq (rule .eoi (token .atEnd)) (cs.dropWhile isBlank) ⟨cs.length, []⟩

lemma length_dropWhile_le (cs : List Char) : (cs.dropWhile isBlank).length ≤ cs.length :=
  (List.dropWhile_suffix _).length_le

lemma Place.start (cs : List Char) : Place cs (cs.dropWhile isBlank) (tokens cs) :=
  ⟨settled_dropWhile cs, tokens_dropWhile cs, by rw [scan_dropWhile], length_dropWhile_le cs⟩

lemma expression_none (h : wholeBody cs = (none, b)) :
    expression cs ⟨cs.length, []⟩ = (none, b.note .expression cs 0) := by
  have hcount : (Attempts.mk cs.length []).count cs = 0 := Attempts.count_at cs []
  rw [expression, rule_none _ ((skip_andThen _ _ _).trans h), hcount]

/-- What is found in a whole text agrees with a formula, or with the obstacle where none is read. -/
def FindsAs (cs : List Char) (found : Found) : Except Obstacle Formula → Prop
  | .ok f => (found.1.bind fun (ps, _) => ofPairs? ps) = some f
  | .error e =>
    found.1 = none ∧ found.2.left = leftAt cs e.remaining ∧ found.2.expected = e.expected

/-- Past the start of a text the rule of the whole text is not noted. -/
lemma findsAs_of_stuck (h : wholeBody cs = (none, b))
    (hq : Stuck (cs.dropWhile isBlank) q e (none, b))
    (hlt : q.length < (cs.dropWhile isBlank).length) :
    FindsAs cs (expression cs ⟨cs.length, []⟩) (.error e) := by
  have hpast : b.left < cs.length :=
    hq.left ▸ Nat.lt_of_lt_of_le hlt (length_dropWhile_le cs)
  rw [expression_none h, Attempts.note_of_past hpast]
  exact ⟨rfl, hq.left.trans (leftAt_of_place ((Place.start cs).trans hq.place)).symm, hq.expected⟩

section
variable {f : Formula} {inner : List Pair} {text : String}
  (hfound : settled (expr (cs.length + 1) (cs.dropWhile isBlank) ⟨cs.length, []⟩) =
    (some ([⟨.expr, text, inner⟩], y), ⟨y.length, operatorRules⟩))
include hfound

lemma findsAs_ok (hy : Place (cs.dropWhile isBlank) y [])
    (hformula : (Pair.items? inner).bind ofItems? = some f) :
    FindsAs cs (expression cs ⟨cs.length, []⟩) (.ok f) := by
  obtain rfl := eq_nil_of_tokens hy.settled hy.tokens_eq
  have hbody : wholeBody cs =
      (some ([⟨.expr, text, inner⟩, ⟨.eoi, "", []⟩], []), ⟨0, operatorRules⟩) := by
    rw [wholeBody, seq_some_of_settled hfound, leaf_some (f := .atEnd) _ rfl]
    rfl
  obtain ⟨items, hitems, hitems'⟩ := Option.bind_eq_some_iff.mp hformula
  rw [expression, rule_some _ ((skip_andThen _ _ _).trans hbody)]
  simp [FindsAs, ofPairs?, hitems, hitems']

lemma findsAs_rest {t : Token} (hy : Place (cs.dropWhile isBlank) y (t :: ts)) :
    FindsAs cs (expression cs ⟨cs.length, []⟩) (.error ⟨.operatorOrEnd, t :: ts⟩) := by
  have hne : y ≠ [] := by
    rintro rfl
    cases hy.tokens_eq
  have hbody : wholeBody cs = (none, ⟨y.length, operatorRules ++ [.eoi]⟩) := by
    rw [wholeBody, seq_some_of_settled hfound, eoi_none hne, Attempts.fail_at, after_none]
  have hlt : y.length < (cs.dropWhile isBlank).length := by
    rcases hexpr : expr (cs.length + 1) (cs.dropWhile isBlank) ⟨cs.length, []⟩ with
      ⟨_ | ⟨ps, rest⟩, c⟩ <;> rw [hexpr] at hfound <;> cases hfound
    exact Nat.lt_of_le_of_lt (length_dropWhile_le rest) (uses_expr _ hexpr)
  exact findsAs_of_stuck hbody (.of_none hy rfl rfl) hlt

end

lemma findsAs_refuse
    (hfound : expr (cs.length + 1) (cs.dropWhile isBlank) ⟨cs.length, []⟩ =
      (none, ⟨(cs.dropWhile isBlank).length, [.expr]⟩)) :
    FindsAs cs (expression cs ⟨cs.length, []⟩) (.error ⟨.expression, tokens cs⟩) := by
  have hleft := leftAt_of_place (Place.start cs)
  rw [expression_none (seq_none hfound _)]
  obtain heq | hlt := (length_dropWhile_le cs).eq_or_lt
  · rw [Attempts.note, Attempts.count, if_pos heq.symm]
    exact ⟨rfl, hleft.symm, rfl⟩
  · rw [Attempts.note_of_past hlt]
    exact ⟨rfl, hleft.symm, rfl⟩

lemma findsAs_error
    (h : Stuck (cs.dropWhile isBlank) q e
      (expr (cs.length + 1) (cs.dropWhile isBlank) ⟨cs.length, []⟩))
    (hlt : q.length < (cs.dropWhile isBlank).length) :
    FindsAs cs (expression cs ⟨cs.length, []⟩) (.error e) := by
  rcases hexpr : expr (cs.length + 1) (cs.dropWhile isBlank) ⟨cs.length, []⟩ with
    ⟨_ | ⟨ps, rest⟩, c⟩ <;> rw [hexpr] at h
  · exact findsAs_of_stuck (seq_none hexpr _) h hlt
  · -- A shorter expression is found, and the text does not end after it.
    obtain ⟨hlt', -⟩ := h.before ps rest rfl
    have hne : rest.dropWhile isBlank ≠ [] := List.ne_nil_of_length_pos (by omega)
    have hbody : wholeBody cs = (none, c) := by
      rw [wholeBody, seq_some hexpr, eoi_none hne, Attempts.fail_of_past (h.left ▸ hlt'),
        after_none]
    exact findsAs_of_stuck hbody (.of_none h.place h.left h.expected) hlt

/-- What is found in a whole text is its formula, or nothing, with what was expected at the obstacle
that descent meets. -/
theorem expression_spec (cs : List Char) :
    FindsAs cs (expression cs ⟨cs.length, []⟩) (ofTokens (tokens cs)) := by
  have hplace := Place.start cs
  have hfresh : (Attempts.mk cs.length []).Fresh (cs.dropWhile isBlank) :=
    ⟨ite_self 0, hplace.length_le⟩
  have hread := (descends (5 * (tokens cs).length + 5)).readsExpr hplace.settled hfresh
    (Nat.lt_succ_of_le hplace.length_le) (by rw [tokens_dropWhile])
  rw [tokens_dropWhile] at hread
  rw [ofTokens]
  generalize readSum (5 * (tokens cs).length + 5) .expression (tokens cs) = reading at hread ⊢
  cases hread with
  | @ok f ts text inner y hy hbelow hformula hfound =>
    cases ts with
    | nil => exact findsAs_ok hfound hy hformula
    | cons t ts => exact findsAs_rest hfound hy
  | refuse hfound => rw [tokens_dropWhile]; exact findsAs_refuse hfound
  | error hlt h => exact findsAs_error h hlt

end Expression

end Parser

namespace Formula

/-- Reading by rules and a table gives what reading by descent gives, and refuses the same texts at
the same place for the same reason. -/
theorem read_eq_descend (text : String) : read text = descend text := by
  have h := Parser.expression_spec text.toList
  rw [read, descend]
  cases hread : ofTokens (Token.tokens text.toList) with
  | ok f =>
    rw [hread] at h
    dsimp only [Parser.FindsAs] at h ⊢
    rw [h]
  | error e =>
    rw [hread] at h
    obtain ⟨hnone, hleft, hexpected⟩ := h
    dsimp only
    rw [hnone, hexpected, hleft]
    rfl

end Formula

end EquationCompiler
