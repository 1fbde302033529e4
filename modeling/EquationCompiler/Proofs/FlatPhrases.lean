import EquationCompiler.Proofs.Descent
import EquationCompiler.Proofs.FlatRule
import EquationCompiler.Proofs.Precedence

/-!
# Phrases in the flat rule

The flat rule keeps going where descent returns from one phrase to the one around it.
So a phrase is compared with the part of a row that it takes, and the rest of the row
is left open. Where descent stops for good, the rules may still find a shorter row,
but nothing can go on after it.
-/
namespace EquationCompiler

namespace Token

/-- How tightly the operator binds that a token stands for between operands. -/
def strength : Token → ℕ
  | plus | minus => 20
  | star | slash => 30
  | power => 50
  | _ => 0

/-- What follows does not bind as tightly as the given strength. -/
def Below (s : ℕ) (ts : List Token) : Prop := ∀ t ∈ ts.head?, t.strength < s

/-- `y` is what is left of the text `x` before the tokens `ts`, without blanks. -/
structure Place (x y : List Char) (ts : List Token) : Prop where
  settled : Settled y
  tokens_eq : tokens y = ts
  suffix : scan y <:+ scan x
  length_le : y.length ≤ x.length

namespace Place
variable {x y z : List Char} {ts us : List Token}

lemma self (hx : Settled x) : Place x x (tokens x) := ⟨hx, rfl, List.suffix_rfl, Nat.le_refl _⟩

lemma trans (h : Place x y ts) (h' : Place y z us) : Place x z us :=
  ⟨h'.settled, h'.tokens_eq, h'.suffix.trans h.suffix, h'.length_le.trans h.length_le⟩

lemma tokens_length_le (h : Place x y ts) : ts.length ≤ (tokens x).length := by
  rw [← h.tokens_eq, tokens, tokens, List.length_map, List.length_map]
  exact h.suffix.length_le

/-- The place after the next token. -/
lemma next {t : Token} (hx : Settled x) (ht : tokens x = t :: ts) :
    ∃ rest, Starts t x rest ∧ Place x (rest.dropWhile isBlank) ts ∧
      (rest.dropWhile isBlank).length < x.length := by
  obtain ⟨rest, hstarts, hts, hscan⟩ := hx.starts ht
  have hlt : (rest.dropWhile isBlank).length < x.length :=
    Nat.lt_of_le_of_lt (List.dropWhile_suffix _).length_le hstarts.length_lt
  refine ⟨rest, hstarts, ⟨settled_dropWhile rest, ?_, ?_, hlt.le⟩, hlt⟩
  · rw [tokens_dropWhile, hts]
  · rw [scan_dropWhile, hscan]
    exact List.suffix_cons _ _

end Place

end Token

namespace Parser
open Token Formula
variable {n s s' d : ℕ} {x y q rest : List Char} {a b : Attempts} {ps : List Pair}
  {items : List Item} {ts : List Token} {e : Obstacle} {found found' : Found}
  {P P' : Formula → List Item → Prop} {expected : Expected} {reading : Reading}

/-- An obstacle is at the place `q`, after `x`. What is found ends before it, if anything is found
at all, and neither a parenthesis nor a comma can follow. -/
structure Stuck (x q : List Char) (e : Obstacle)
    (found : Found) : Prop where
  place : Place x q e.remaining
  left : found.2.left = q.length
  expected : found.2.expected = e.expected
  before : ∀ ps rest, found.1 = some (ps, rest) → q.length < (rest.dropWhile isBlank).length ∧
    (tokens rest).head? ≠ some .closing ∧ (tokens rest).head? ≠ some .comma

/-- What is found from `x` on is a part of a row with the property `P`, as descent reads it, and the
row goes on after it. -/
inductive Continues (n : ℕ) (x : List Char) (s : ℕ) (P : Formula → List Item → Prop)
    (found : Found) : Reading → Prop
  | ok {f : Formula} {ts : List Token} {ps : List Pair} {items : List Item} {y : List Char}
      {b : Attempts} (hplace : Place x y ts) (hfresh : b.Fresh y)
      (hitems : Pair.items? ps = some items) (hP : P f items) (hbelow : Below s ts)
      (hfound : settled found = settled (after ps (rounds (expr n) y b))) :
    Continues n x s P found (.ok (f, ts))
  | error {e : Obstacle} {q : List Char} (hlt : q.length < x.length) (h : Stuck x q e found) :
    Continues n x s P found (.error e)

/-- No operand starts at `x`, and all that could have been there is noted. -/
structure Refuses (x : List Char) (expected : Expected)
    (found : Found) (reading : Reading) : Prop where
  found_eq : found = (none, ⟨x.length, operandRules⟩)
  reading_eq : reading = .error ⟨expected, tokens x⟩

/-- A part of a row that starts with an operand. -/
def Agrees (n : ℕ) (x : List Char) (s : ℕ) (P : Formula → List Item → Prop)
    (found : Found) (expected : Expected)
    (reading : Reading) : Prop :=
  Refuses x expected found reading ∨ Continues n x s P found reading

lemma Stuck.of_settled (hfound : settled found = settled (after ps found'))
    (h : Stuck x q e found') : Stuck x q e found := by
  have hattempts : found.2 = found'.2 := (Prod.mk.inj hfound).2
  refine ⟨h.place, hattempts ▸ h.left, hattempts ▸ h.expected, fun qs rest hsome => ?_⟩
  have hfirst := (Prod.mk.inj hfound).1
  obtain ⟨_ | ⟨rs, last⟩, c⟩ := found'
  · simp [after, hsome] at hfirst
  · simp only [after, hsome, Option.map_some, Option.some.injEq, Prod.mk.injEq] at hfirst
    have hbefore := h.before rs last rfl
    rw [← tokens_dropWhile rest, hfirst.2, tokens_dropWhile]
    exact hbefore

lemma Stuck.trans (hplace : Place x y ts) (h : Stuck y q e found) : Stuck x q e found :=
  ⟨hplace.trans h.place, h.left, h.expected, h.before⟩

/-- After a sign or an operator an obstacle at once is one like those further on. -/
lemma Agrees.stuck (hy : Settled y) (h : Agrees n y s P found .operand (.error e)) :
    ∃ q, Stuck y q e found := by
  obtain h | h := h
  · obtain ⟨rfl, heq⟩ := h
    cases heq
    exact ⟨y, Place.self hy, rfl, rfl, by simp⟩
  · cases h with
    | error _ h => exact ⟨_, h⟩

lemma items?_append (ps qs : List Pair) : Pair.items? (ps ++ qs) =
    (Pair.items? ps).bind fun is => (Pair.items? qs).map fun js => is ++ js := by
  induction ps with
  | nil => simp [Pair.items?]
  | cons p ps ih =>
    rw [List.cons_append, Pair.items?, Pair.items?, ih]
    cases p.item? <;> cases Pair.items? ps <;> cases Pair.items? qs <;> rfl

/-- More of the row is found before. -/
lemma Continues.prepend (hplace : Place x y ts) (hps : Pair.items? ps = some items)
    (hfound : settled found = settled (after ps found'))
    (hP : ∀ {f more}, P' f more → P f (items ++ more)) (h : Continues n y s P' found' reading) :
    Continues n x s P found reading := by
  cases h with
  | ok hplace' hfresh hitems hP' hbelow hfound' =>
    refine .ok (hplace.trans hplace') hfresh ?_ (hP hP') hbelow
      (hfound.trans (by rw [settled_after, hfound', ← settled_after, after_after]))
    rw [items?_append, hps, hitems]
    rfl
  | error hlt h =>
    exact .error (Nat.lt_of_lt_of_le hlt hplace.length_le) ((h.trans hplace).of_settled hfound)

/-- Descent reads a phrase that starts the row, and then what continues it. -/
lemma Agrees.bind {Q : Formula → Formula → List Item → Prop} {k : Formula → List Token → Reading}
    (h : Agrees n x s P found expected reading)
    (hk : ∀ {f y ts} {b : Attempts}, Place x y ts → b.Fresh y → Below s ts →
      Continues n y s' (Q f) (rounds (expr n) y b) (k f ts))
    (hP : ∀ {f items g more}, P f items → Q f g more → P' g (items ++ more)) :
    Agrees n x s' P' found expected (reading >>= fun (f, ts) => k f ts) := by
  obtain h | h := h
  · obtain ⟨hfound, rfl⟩ := h
    exact .inl ⟨hfound, rfl⟩
  · right
    cases h with
    | ok hplace hfresh hitems hP' hbelow hfound =>
      exact (hk hplace hfresh hbelow).prepend hplace hitems hfound (hP hP')
    | error hlt h => exact .error hlt h

lemma items?_operator {t : Token} {r : Rule} (hr : t.joins? = some r) (text : String) :
    Pair.items? [⟨r, text, []⟩] = some [.operator r] := by
  cases t <;> cases hr <;> rfl

/-- A phrase that descent reads is found. -/
lemma Continues.found_ne_none {f : Formula} (h : Continues n x s P (none, b) (.ok (f, ts))) :
    False := by
  cases h with
  | @ok _ _ _ _ y b _ _ _ _ _ hfound =>
    obtain ⟨found, hsome⟩ := Option.isSome_iff_exists.mp
      (many_isSome (skip.andThen (operator.seq (signed (expr n)))) y b)
    simp [settled, after, rounds, hsome] at hfound

/-- The row goes on with an operator, unless there is no operand for it. -/
lemma Continues.operator {t : Token} {r : Rule} (hx : Settled x) (ht : tokens x = t :: ts)
    (hr : t.joins? = some r) (ha : x.length ≤ a.left)
    (hrow : ∀ {y : List Char} {b : Attempts}, Place x y ts → b.Fresh y → y.length < x.length →
      Agrees n y s P (row (expr n) y b) .operand reading)
    (hP : ∀ {f items}, P f items → P' f (.operator r :: items)) :
    Continues n x s P' (rounds (expr n) x a) reading := by
  obtain ⟨rest, hstarts, hplace, hlt⟩ := Place.next hx ht
  obtain ⟨text, b, hb, hoperator⟩ := operator_some hstarts hr ha
  have h := hrow hplace (Attempts.fresh_of_lt (Nat.lt_of_lt_of_le hlt hb)) hlt
  rcases hfound : row (expr n) (rest.dropWhile isBlank) b with ⟨_ | found, c⟩ <;> rw [hfound] at h
  · -- Without an operand the repetition stops before the operator, and succeeds.
    have hrounds := rounds_of_none hx hoperator hfound
    cases reading with
    | ok read =>
      obtain ⟨_, ⟨⟩⟩ | h := h
      exact h.found_ne_none.elim
    | error e =>
      obtain ⟨q, hq⟩ := h.stuck hplace.settled
      have hqx := Nat.lt_of_le_of_lt hq.place.length_le hlt
      refine .error hqx ⟨hplace.trans hq.place, by rw [hrounds]; exact hq.left,
        by rw [hrounds]; exact hq.expected, ?_⟩
      rw [hrounds]
      rintro _ _ ⟨⟩
      have hne {u : Token} (hu : u.joins? = none) : (tokens x).head? ≠ some u := by
        rw [ht]
        rintro ⟨⟩
        rw [hu] at hr
        cases hr
      rw [hx]
      exact ⟨hqx, hne rfl, hne rfl⟩
  · obtain ⟨⟨⟩, _⟩ | h := h
    exact h.prepend hplace (items?_operator hr text)
      (by rw [rounds_of_some hx (uses_expr n) hoperator hfound]) hP

/-- A nested expression, as descent reads it. -/
inductive ReadsExpr (x : List Char) (found : Found) : Reading → Prop
  | ok {f : Formula} {ts : List Token} {text : String} {inner : List Pair} {y : List Char}
      (hplace : Place x y ts) (hbelow : Below 20 ts)
      (hformula : (Pair.items? inner).bind ofItems? = some f)
      (hfound : settled found = (some ([⟨.expr, text, inner⟩], y), ⟨y.length, operatorRules⟩)) :
    ReadsExpr x found (.ok (f, ts))
  | refuse (hfound : found = (none, ⟨x.length, [.expr]⟩)) :
    ReadsExpr x found (.error ⟨.expression, tokens x⟩)
  | error {e : Obstacle} {q : List Char} (hlt : q.length < x.length) (h : Stuck x q e found) :
    ReadsExpr x found (.error e)

/-- The arguments up to the closing parenthesis, as descent reads them. -/
inductive ReadsArguments (x : List Char) (found : Found) : ReadingArguments → Prop
  | ok {args : List Formula} {ts : List Token} {ps : List Pair} {y : List Char} {b : Attempts}
      (hplace : Place x y ts) (hfresh : b.Fresh y) (hargs : Pair.formulas? ps = some args)
      (hfound : settled found = (some (ps, y), b)) : ReadsArguments x found (.ok (args, ts))
  | error {e : Obstacle} {q : List Char} {b : Attempts} (hfound : found = (none, b))
      (h : Stuck x q e (none, b)) : ReadsArguments x found (.error e)

lemma Stuck.of_none (hplace : Place x q e.remaining) (hleft : b.left = q.length)
    (hexpected : b.expected = e.expected) : Stuck x q e (none, b) :=
  ⟨hplace, hleft, hexpected, by simp⟩

lemma ReadsArguments.trans {read : ReadingArguments} (hplace : Place x y ts)
    (h : ReadsArguments y found read) : ReadsArguments x found read := by
  cases h with
  | ok hy hfresh hargs hfound => exact .ok (hplace.trans hy) hfresh hargs hfound
  | error hfound h => exact .error hfound (h.trans hplace)

lemma eq_none_of_settled (h : settled found = (none, b)) : found = (none, b) := by
  obtain ⟨_ | _, c⟩ := found <;> cases h
  rfl

lemma joins?_eq_none {t : Token} (h : t.strength < 20) : t.joins? = none := by
  cases t <;> simp_all [joins?, strength]

/-- The row ends where no operator follows. -/
lemma rounds_of_below (hx : Settled x) (h : Below 20 (tokens x)) (ha : a.Fresh x) :
    rounds (expr n) x a = (some ([], x), ⟨x.length, operatorRules⟩) :=
  rounds_end hx (operator_none_of_fresh hx (fun t ht => joins?_eq_none (h t ht)) ha)

lemma readsExpr_of_row (ha : a.Fresh x)
    (h : Agrees n x 20 (fun f items => Climbs 20 10 items f) (row (expr n) x a) .expression
      reading) :
    ReadsExpr x (expr (n + 1) x a) reading := by
  have hbody := exprBody_settled (uses_expr n) x a
  obtain ⟨hrow, rfl⟩ | h := h
  · rw [hrow] at hbody
    refine .refuse ?_
    rw [expr, rule_none _ (eq_none_of_settled hbody), ha.1, Attempts.note, Attempts.count_at,
      if_neg (by decide), if_pos rfl]
    rfl
  · cases h with
    | @ok f ts ps items y b hplace hfresh hitems hP hbelow hfound =>
      rw [rounds_of_below hplace.settled (hplace.tokens_eq ▸ hbelow) hfresh] at hfound
      have hsettled := hbody.trans hfound
      rcases hexpr : exprBody (expr n) x a with ⟨_ | ⟨qs, rest⟩, c⟩ <;> rw [hexpr] at hsettled
      · cases hsettled
      · simp only [settled, after, Option.map_some, List.append_nil, Prod.mk.injEq,
          Option.some.injEq] at hsettled
        obtain ⟨⟨rfl, hrest⟩, rfl⟩ := hsettled
        have hrule : settled (expr (n + 1) x a) =
            (some ([⟨.expr, String.ofList (x.take (x.length - rest.length)), qs⟩], y),
              ⟨y.length, operatorRules⟩) := by
          rw [expr, rule_some _ hexpr, settled_some, hrest, hplace.settled]
        refine .ok hplace hbelow ?_ hrule
        rw [hitems]
        exact ofItems?_of_climbs hP
    | @error e q hlt h =>
      have hstuck := h.of_settled (hbody.trans (by rw [after_nil]))
      rcases hexpr : exprBody (expr n) x a with ⟨_ | ⟨qs, rest⟩, c⟩ <;> rw [hexpr] at hstuck
      · refine .error hlt ?_
        rw [expr, rule_none _ hexpr, Attempts.note_of_past (hstuck.left ▸ hlt)]
        exact hstuck
      · refine .error hlt ?_
        rw [expr, rule_some _ hexpr]
        exact ⟨hstuck.place, hstuck.left, hstuck.expected,
          fun _ _ heq => by cases heq; exact hstuck.before _ _ rfl⟩

section
variable {d : ℕ} (hmore : ∀ {y ts}, Place x y ts →
  ReadsArguments y (moreArguments (expr n) y ⟨y.length, operatorRules⟩) (readArguments d ts))
include hmore

/-- An argument and those after it. -/
lemma readsArguments_of_readsExpr (hx : Settled x) (h : ReadsExpr x (expr n x a) reading) :
    ReadsArguments x ((expr n).seq (moreArguments (expr n)) x a) (do
      let (arg, rest) ← reading
      let (args, rest) ← readArguments d rest
      return (arg :: args, rest)) := by
  cases h with
  | @ok f ts text inner y hplace hbelow hformula hfound =>
    rw [seq_some_of_settled hfound]
    have h := hmore hplace
    cases hread : readArguments d ts with
    | ok read =>
      obtain ⟨args, us⟩ := read
      rw [hread] at h
      cases h with
      | @ok _ _ qs z b hplace' hfresh hargs hfound' =>
        simp only [bind, Except.bind, hread]
        have hboth : settled (after [⟨.expr, text, inner⟩]
            (moreArguments (expr n) y ⟨y.length, operatorRules⟩)) =
              (some (⟨.expr, text, inner⟩ :: qs, z), b) := by
          rw [settled_after, hfound', after_some, List.singleton_append]
        refine .ok (hplace.trans hplace') hfresh ?_ hboth
        obtain ⟨items, hitems, hitems'⟩ := Option.bind_eq_some_iff.mp hformula
        simp [Pair.formulas?, hitems, hitems', hargs]
    | error e =>
      rw [hread] at h
      cases h with
      | error hnone hstuck =>
        simp only [bind, Except.bind, hread]
        exact .error (by rw [hnone]; rfl) (hstuck.trans hplace)
  | refuse hfound =>
    exact .error (seq_none hfound _) (.of_none (Place.self hx) rfl rfl)
  | @error e q hlt h =>
    rcases hexpr : expr n x a with ⟨_ | ⟨qs, rest⟩, c⟩ <;> rw [hexpr] at h
    · exact .error (seq_none hexpr _) h
    · obtain ⟨hlt, hclosing, hcomma⟩ := h.before qs rest rfl
      refine .error (b := c) ?_ (.of_none h.place h.left h.expected)
      rw [seq_some hexpr, moreArguments_none (settled_dropWhile rest) (by rwa [tokens_dropWhile])
        (by rwa [tokens_dropWhile])]
      rfl

end

/-- A single operand, with the rest of the row after it. -/
def IsOperandRow (f : Formula) (items : List Item) : Prop := items = [.operand f]

lemma rounds_settled (n : ℕ) (x : List Char) (a : Attempts) :
    settled (rounds (expr n) x a) = settled (rounds (expr n) (x.dropWhile isBlank) a) := by
  have huses := uses_round (uses_expr n)
  rw [rounds, many_settled huses, many_settled huses, settled_dropWhile x]

lemma continues_of_primary {f : Formula} {p : Pair}
    (h : primary (expr n) x a = (some ([p], rest), b)) (hitem : p.item? = some (.operand f))
    (hplace : Place x (rest.dropWhile isBlank) ts) (hfresh : b.Fresh (rest.dropWhile isBlank)) :
    Continues n x 60 IsOperandRow ((primary (expr n)).andThen (rounds (expr n)) x a)
      (.ok (f, ts)) := by
  have hbelow : Below 60 ts := fun t _ => by cases t <;> simp [strength]
  have hitems : Pair.items? [p] = some [.operand f] := by simp [Pair.items?, hitem]
  refine .ok hplace hfresh hitems (rfl : IsOperandRow f _) hbelow ?_
  rw [andThen_some h, settled_after, rounds_settled, ← settled_after]

lemma continues_of_number {literal : String} (hx : Settled x)
    (ht : tokens x = .number literal :: ts) :
    Continues n x 60 IsOperandRow
      ((primary (expr n)).andThen (rounds (expr n)) x ⟨x.length, [.neg, .pos]⟩)
      (.ok (.number literal, ts)) := by
  obtain ⟨rest, hstarts, hplace, hlt⟩ := Place.next hx ht
  exact continues_of_primary (primary_number hx hstarts (by rw [ht]; rfl)) rfl hplace
    (Attempts.fresh_of_lt hlt)

lemma continues_of_name {s : String} (hx : Settled x) (ht : tokens x = .name s :: ts)
    (hts : ts.head? ≠ some .opening) :
    Continues n x 60 IsOperandRow
      ((primary (expr n)).andThen (rounds (expr n)) x ⟨x.length, [.neg, .pos]⟩)
      (.ok (.name s, ts)) := by
  obtain ⟨rest, hstarts, hplace, hlt⟩ := Place.next hx ht
  have hrest : (tokens rest).head? ≠ some .opening := by
    rwa [← tokens_dropWhile, hplace.tokens_eq]
  exact continues_of_primary (primary_name hx hstarts (by rw [ht]; rfl) hrest) rfl hplace
    (Attempts.fresh_of_lt hlt)

/-- A call whose arguments cannot be read is taken for a name, and no row goes on after that. -/
lemma continues_of_call {s : String} {read : ReadingArguments} (hx : Settled x)
    (ht : tokens x = .name s :: .opening :: ts)
    (hargs : ∀ {z : List Char} {b : Attempts}, Place x z ts → z.length < x.length → b.Fresh z →
      ReadsArguments z ((expr n).seq (moreArguments (expr n)) z b) read) :
    Continues n x 60 IsOperandRow
      ((primary (expr n)).andThen (rounds (expr n)) x ⟨x.length, [.neg, .pos]⟩)
      (read >>= fun (args, us) => pure (.call s args, us)) := by
  obtain ⟨rest, hstarts, hplace, hlt⟩ := Place.next hx ht
  obtain ⟨last, hopening, hplace', hlt'⟩ := Place.next hplace.settled hplace.tokens_eq
  have hltx := hlt'.trans hlt
  have h := hargs (hplace.trans hplace') hltx
    (Attempts.fresh_of_lt (a := ⟨x.length, [.neg, .pos]⟩) hltx)
  cases h with
  | @ok args us ps y b hy hfresh hformulas hfound =>
    rcases hbody : (expr n).seq (moreArguments (expr n)) (last.dropWhile isBlank)
        ⟨x.length, [.neg, .pos]⟩ with ⟨_ | ⟨qs, left⟩, c⟩ <;> rw [hbody] at hfound <;> cases hfound
    obtain ⟨text, hcall⟩ := primary_call hstarts hopening hbody
    exact continues_of_primary hcall (by simp [Pair.item?, hformulas])
      ((hplace.trans hplace').trans hy) hfresh
  | @error e q b hfound hstuck =>
    -- The choice goes on, and the name of the function is the operand.
    have hqy : q.length < (rest.dropWhile isBlank).length :=
      Nat.lt_of_le_of_lt hstuck.place.length_le hlt'
    have hb : b.left < (rest.dropWhile isBlank).length := hstuck.left ▸ hqy
    have hname := primary_call_name hstarts hopening hx (by rw [ht]; rfl) hfound (hb.trans hlt)
    have hend : rounds (expr n) (rest.dropWhile isBlank) b =
        (some ([], rest.dropWhile isBlank), b) :=
      rounds_end hplace.settled <| operator_none_of_past hplace.settled
        (by rw [hplace.tokens_eq]; rintro _ ⟨⟩; rfl) hb
    have hrow : settled ((primary (expr n)).andThen (rounds (expr n)) x ⟨x.length, [.neg, .pos]⟩) =
        settled (some ([⟨.ident, s, []⟩], rest.dropWhile isBlank), b) := by
      rw [andThen_some hname, settled_after, rounds_settled, hend]
      rfl
    refine .error (hqy.trans hlt) (Stuck.of_settled (hrow.trans (by rw [after_nil])) ?_)
    refine ⟨(hplace.trans hplace').trans hstuck.place, hstuck.left, hstuck.expected, ?_⟩
    rintro _ _ ⟨⟩
    rw [hplace.settled, hplace.tokens_eq]
    exact ⟨hqy, by simp, by simp⟩

section Group
variable (hx : Settled x) (ht : tokens x = .opening :: ts) (hstarts : Starts .opening x rest)
  (hplace : Place x (rest.dropWhile isBlank) ts) (hlt : (rest.dropWhile isBlank).length < x.length)
include hx ht hstarts

lemma primary_group_eq : primary (expr n) x ⟨x.length, [.neg, .pos]⟩ =
    (expr n).seq (token (.word ")")) (rest.dropWhile isBlank) ⟨x.length, operandRules⟩ :=
  primary_group hx hstarts (by rw [ht]; rfl)

include hplace hlt

/-- Where a group is not read, neither is anything else. -/
lemma continues_of_no_group (h : (expr n).seq (token (.word ")")) (rest.dropWhile isBlank)
      ⟨x.length, operandRules⟩ = (none, b)) (hq : Stuck (rest.dropWhile isBlank) q e (none, b)) :
    Continues n x 60 IsOperandRow
      ((primary (expr n)).andThen (rounds (expr n)) x ⟨x.length, [.neg, .pos]⟩) (.error e) := by
  rw [andThen_none ((primary_group_eq hx ht hstarts).trans h)]
  exact .error (Nat.lt_of_le_of_lt hq.place.length_le hlt) (hq.trans hplace)

section
variable {f : Formula} {us : List Token} {text : String} {inner : List Pair}
  (hfound : settled (expr n (rest.dropWhile isBlank) ⟨x.length, operandRules⟩) =
    (some ([⟨.expr, text, inner⟩], y), ⟨y.length, operatorRules⟩))
include hfound

omit hlt in
lemma continues_of_closed (hy : Place (rest.dropWhile isBlank) y (.closing :: us))
    (hformula : (Pair.items? inner).bind ofItems? = some f) :
    Continues n x 60 IsOperandRow
      ((primary (expr n)).andThen (rounds (expr n)) x ⟨x.length, [.neg, .pos]⟩) (.ok (f, us)) := by
  obtain ⟨last, hend, hlast, hlt'⟩ := Place.next hy.settled hy.tokens_eq
  have hprimary : primary (expr n) x ⟨x.length, [.neg, .pos]⟩ =
      (some ([⟨.expr, text, inner⟩], last), ⟨y.length, operatorRules⟩) := by
    rw [primary_group_eq hx ht hstarts, seq_some_of_settled hfound,
      token_some ((hend.word_operator (s := ")") rfl rfl).trans (if_pos rfl)), after_some,
      List.append_nil]
  have hitem : Pair.item? ⟨.expr, text, inner⟩ = some (.operand f) := by
    obtain ⟨items, hitems, hitems'⟩ := Option.bind_eq_some_iff.mp hformula
    simp [Pair.item?, hitems, hitems']
  exact continues_of_primary hprimary hitem ((hplace.trans hy).trans hlast)
    (Attempts.fresh_of_lt hlt')

lemma continues_of_unclosed (hy : Place (rest.dropWhile isBlank) y us)
    (hclosing : us.head? ≠ some .closing) :
    Continues n x 60 IsOperandRow
      ((primary (expr n)).andThen (rounds (expr n)) x ⟨x.length, [.neg, .pos]⟩)
      (.error ⟨.operator, us⟩) := by
  have hword : Recognizer.word ")" y = none :=
    hy.settled.word_eq_none (s := ")") rfl rfl (by rwa [hy.tokens_eq])
  have hseq : (expr n).seq (token (.word ")")) (rest.dropWhile isBlank)
      ⟨x.length, operandRules⟩ = (none, ⟨y.length, operatorRules⟩) := by
    rw [seq_some_of_settled hfound, token_none hword, after_none]
  exact continues_of_no_group hx ht hstarts hplace hlt hseq (.of_none hy rfl rfl)

end

lemma continues_of_inner (h : Stuck (rest.dropWhile isBlank) q e
      (expr n (rest.dropWhile isBlank) ⟨x.length, operandRules⟩)) :
    Continues n x 60 IsOperandRow
      ((primary (expr n)).andThen (rounds (expr n)) x ⟨x.length, [.neg, .pos]⟩) (.error e) := by
  rcases hbody : expr n (rest.dropWhile isBlank) ⟨x.length, operandRules⟩ with
    ⟨_ | ⟨qs, left⟩, c⟩ <;> rw [hbody] at h
  · exact continues_of_no_group hx ht hstarts hplace hlt (seq_none hbody _) h
  · have hclosing := (h.before qs left rfl).2.1
    have hword : Recognizer.word ")" (left.dropWhile isBlank) = none :=
      (settled_dropWhile left).word_eq_none (s := ")") rfl rfl (by rwa [tokens_dropWhile])
    have hseq : (expr n).seq (token (.word ")")) (rest.dropWhile isBlank)
        ⟨x.length, operandRules⟩ = (none, c) := by
      rw [seq_some hbody, token_none hword, after_none]
    exact continues_of_no_group hx ht hstarts hplace hlt hseq
      (.of_none h.place h.left h.expected)

end Group

lemma continues_of_group (hx : Settled x) (ht : tokens x = .opening :: ts)
    (hexpr : ∀ {z : List Char} {b : Attempts}, Place x z ts → z.length < x.length → b.Fresh z →
      ReadsExpr z (expr n z b) reading) :
    Continues n x 60 IsOperandRow
      ((primary (expr n)).andThen (rounds (expr n)) x ⟨x.length, [.neg, .pos]⟩) (do
        let (f, rest) ← reading
        match rest with
        | .closing :: rest => return (f, rest)
        | rest => throw ⟨.operator, rest⟩) := by
  obtain ⟨rest, hstarts, hplace, hlt⟩ := Place.next hx ht
  have hread := hexpr hplace hlt (Attempts.fresh_of_lt (a := ⟨x.length, operandRules⟩) hlt)
  cases hread with
  | @ok f us text inner y hy hbelow hformula hfound =>
    simp only [bind, Except.bind]
    split
    · exact continues_of_closed hx ht hstarts hplace hfound hy hformula
    · next hclosing =>
      refine continues_of_unclosed hx ht hstarts hplace hlt hfound hy fun hhead => ?_
      obtain ⟨vs, hvs⟩ := List.head?_eq_some_iff.mp hhead
      exact hclosing vs hvs
  | refuse hfound =>
    exact continues_of_no_group hx ht hstarts hplace hlt (seq_none hfound _)
      (.of_none (Place.self hplace.settled) rfl rfl)
  | error _ h => exact continues_of_inner hx ht hstarts hplace hlt h

/-- A sign before the operand of a row, which descent reads as a phrase of its own. -/
lemma agrees_of_sign {b : Attempts} {r : Rule} {text : String} (hplace : Place x y ts)
    (hlt : y.length < x.length)
    (hrow : row (expr n) x a = after [⟨r, text, []⟩] (row (expr n) y b))
    (hitem : Pair.items? [⟨r, text, []⟩] = some [.operator r])
    (hP : ∀ {f items}, P f items → P' f (.operator r :: items))
    (h : Agrees n y s P (row (expr n) y b) .operand reading) :
    Agrees n x s P' (row (expr n) x a) expected reading := by
  right
  rw [hrow]
  cases reading with
  | error e =>
    obtain ⟨q, hq⟩ := h.stuck hplace.settled
    exact .error (Nat.lt_of_le_of_lt hq.place.length_le hlt) ((hq.trans hplace).of_settled rfl)
  | ok read =>
    obtain ⟨_, ⟨⟩⟩ | h := h
    exact h.prepend hplace hitem rfl hP

/-- Descent makes another formula of the phrase that it has read. -/
lemma Agrees.map {k : Formula → Formula} {Q : Formula → List Item → Prop}
    (h : Agrees n x s P found expected reading) (hP : ∀ {f items}, P f items → Q (k f) items) :
    Agrees n x s Q found expected (reading >>= fun (f, ts) => pure (k f, ts)) := by
  obtain ⟨hfound, rfl⟩ | h := h
  · exact .inl ⟨hfound, rfl⟩
  · right
    cases h with
    | ok hplace hfresh hitems hP' hbelow hfound =>
      exact .ok hplace hfresh hitems (hP hP') hbelow hfound
    | error hlt h => exact .error hlt h

/-- An operator that groups to the left, its operand, and the operators of its level after that. -/
lemma continues_of_operator {u : ℕ} {t : Token} {r : Rule} {f : Formula}
    {join : Formula → Formula} {operand : Reading} {more : Formula → List Token → Reading}
    (hx : Settled x) (ht : tokens x = t :: ts) (hr : t.joins? = some r) (ha : a.Fresh x)
    (hbinding : r.binding? = some (.left, s)) (hupper : s < u)
    (hjoin : ∀ g, joined? r f g = some (join g))
    (hoperand : ∀ {y : List Char} {b : Attempts}, Place x y ts → b.Fresh y →
      Agrees n y u (fun g items => Climbs u s items g) (row (expr n) y b) .operand operand)
    (hmore : ∀ {g : Formula} {y : List Char} {us : List Token} {b : Attempts}, Place x y us →
      us.length ≤ ts.length → b.Fresh y → Below u us →
      Continues n y s (fun h items => Extends s (join g) items h) (rounds (expr n) y b)
        (more (join g) us)) :
    Continues n x s (fun g items => Extends s f items g) (rounds (expr n) x a)
      (operand >>= fun (g, us) => more (join g) us) := by
  refine Continues.operator (P := fun h items => ∃ g first rest, items = first ++ rest ∧
    Climbs u s first g ∧ Extends s (join g) rest h) hx ht hr ha.2 (fun {y b} hy hfresh _ => ?_) ?_
  · refine (hoperand hy hfresh).bind (k := fun g us => more (join g) us)
      (fun {g z us c} hz hfresh hbelow => ?_) fun hfirst hrest => ⟨_, _, _, rfl, hfirst, hrest⟩
    have hlength := hz.tokens_length_le
    rw [hy.tokens_eq] at hlength
    exact hmore (hy.trans hz) hlength hfresh hbelow
  · rintro h _ ⟨g, first, rest, rfl, hfirst, hrest⟩
    exact Extends.cons hbinding hupper hfirst (hjoin g) hrest

end Parser

end EquationCompiler
