import EquationCompiler.Formula.Peg
import Mathlib.Data.List.DropRight
import Mathlib.Order.Nat
import Mathlib.Tactic.SplitIfs

/-!
# Steps of parsers

How much a parser uses up, when a repetition ends, and what becomes of the attempts
when a rule fails. All rules that fail at one place follow each other in the attempts,
and once a rule has failed further on nothing is noted any more.
-/
namespace EquationCompiler

namespace Token

/-- No blank is at the start. -/
def Settled (x : List Char) : Prop := x.dropWhile isBlank = x

lemma settled_dropWhile (cs : List Char) : Settled (cs.dropWhile isBlank) :=
  List.dropWhile_idempotent _ cs

end Token

namespace Attempts
variable {a : Attempts} {x y : List Char} {r : Rule}

/-- Notes a rule without parts. -/
def fail (a : Attempts) (r : Rule) (x : List Char) : Attempts := a.note r x (a.count x)

/-- No rule has failed at the place or further on. -/
def Fresh (a : Attempts) (x : List Char) : Prop := a.count x = 0 ∧ x.length ≤ a.left

lemma fresh_of_lt (h : x.length < a.left) : a.Fresh x := ⟨if_neg h.ne, h.le⟩

lemma note_of_past (h : a.left < x.length) (r : Rule) (before : ℕ) : a.note r x before = a := by
  rw [note, count, if_neg h.ne', if_neg (by omega), if_neg h.ne', if_neg (by omega)]

lemma fail_of_past (h : a.left < x.length) (r : Rule) : a.fail r x = a := note_of_past h _ _

lemma Fresh.fail (h : a.Fresh x) (r : Rule) : a.fail r x = ⟨x.length, [r]⟩ := by
  rw [Attempts.fail, note, h.1, if_neg (by omega)]
  split_ifs with heq hlt
  · rw [heq]
    rfl
  · rfl
  · exact absurd h.2 (by omega)

lemma left_fail (h : x.length ≤ a.left) (r : Rule) : x.length ≤ (a.fail r x).left := by
  rw [fail, note, if_neg (by omega)]
  split_ifs with heq hlt
  exacts [h, Nat.le_refl _, h]

@[simp] lemma count_at (x : List Char) (rules : List Rule) :
    (Attempts.mk x.length rules).count x = rules.length := if_pos rfl

@[simp] lemma fail_at (x : List Char) (rules : List Rule) (r : Rule) :
    (Attempts.mk x.length rules).fail r x = ⟨x.length, rules ++ [r]⟩ := by
  rw [fail, note, count_at, if_neg (by omega), if_pos rfl, List.take_length]

end Attempts

namespace Parser
open Token
variable {p q r : Parser} {x rest : List Char} {a b : Attempts} {ps qs : List Pair}

theorem andThen_assoc (p q r : Parser) : (p.andThen q).andThen r = p.andThen (q.andThen r) := by
  funext x a
  unfold andThen
  rcases p x a with ⟨_ | ⟨ps, rest⟩, b⟩
  · rfl
  · dsimp only
    rcases q rest b with ⟨_ | ⟨qs, rest⟩, b⟩
    · rfl
    · dsimp only
      rcases r rest b with ⟨_ | ⟨rs, rest⟩, b⟩
      · rfl
      · simp only [List.append_assoc]

/-- What a parser gives. -/
abbrev Found := Option (List Pair × List Char) × Attempts

/-- The pairs come before those that were found. -/
def after (ps : List Pair) (found : Found) : Found :=
  (found.1.map fun (qs, rest) => (ps ++ qs, rest), found.2)

@[simp] lemma after_nil (found : Found) : after [] found = found := by
  obtain ⟨_ | ⟨ps, rest⟩, a⟩ := found <;> rfl

@[simp] lemma after_some (ps qs : List Pair) (rest : List Char) (a : Attempts) :
    after ps (some (qs, rest), a) = (some (ps ++ qs, rest), a) := rfl

@[simp] lemma after_none (ps : List Pair) (a : Attempts) : after ps (none, a) = (none, a) := rfl

lemma after_after (ps qs : List Pair) (found : Found) :
    after ps (after qs found) = after (ps ++ qs) found := by
  obtain ⟨_ | ⟨rs, rest⟩, a⟩ := found <;> simp [after]

lemma andThen_some (h : p x a = (some (ps, rest), b)) (q : Parser) :
    p.andThen q x a = after ps (q rest b) := by
  rw [andThen, h]
  dsimp only
  rcases q rest b with ⟨_ | ⟨qs, rest⟩, b⟩ <;> rfl

lemma andThen_none (h : p x a = (none, b)) (q : Parser) : p.andThen q x a = (none, b) := by
  rw [andThen, h]

lemma orElse_some {found : List Pair × List Char} (h : p x a = (some found, b)) (q : Parser) :
    p.orElse q x a = (some found, b) := by
  rw [orElse, h]

lemma orElse_none (h : p x a = (none, b)) (q : Parser) : p.orElse q x a = q x b := by
  rw [orElse, h]

lemma optional_some {found : List Pair × List Char} (h : p x a = (some found, b)) :
    p.optional x a = (some found, b) := by
  rw [optional, h]

lemma optional_none (h : p x a = (none, b)) : p.optional x a = (some ([], x), b) := by
  rw [optional, h]

lemma token_some {f : Recognizer} (h : f x = some rest) (a : Attempts) :
    token f x a = (some ([], rest), a) := by
  rw [token, h, Option.map_some]

lemma token_none {f : Recognizer} (h : f x = none) (a : Attempts) : token f x a = (none, a) := by
  rw [token, h, Option.map_none]

lemma rule_some (name : Rule) (h : p x a = (some (ps, rest), b)) :
    rule name p x a =
      (some ([⟨name, String.ofList (x.take (x.length - rest.length)), ps⟩], rest), b) := by
  rw [rule, h]

lemma rule_none (name : Rule) (h : p x a = (none, b)) :
    rule name p x a = (none, b.note name x (a.count x)) := by
  rw [rule, h]

/-- The parser uses up at least the given number of characters. -/
def Uses (n : ℕ) (p : Parser) : Prop :=
  ∀ ⦃x a ps rest b⦄, p x a = (some (ps, rest), b) → rest.length + n ≤ x.length

namespace Uses
variable {m n : ℕ}

lemma mono (h : Uses n p) (hmn : m ≤ n) : Uses m p := by
  intro x a ps rest b hp
  have := h hp
  omega

lemma token {f : Recognizer} (h : ∀ {x rest}, f x = some rest → rest.length + n ≤ x.length) :
    Uses n (token f) := by
  intro x a ps rest b hp
  cases hf : f x with
  | none =>
    rw [token_none hf] at hp
    cases hp
  | some left =>
    rw [token_some hf] at hp
    cases hp
    exact h hf

lemma andThen (hp : Uses m p) (hq : Uses n q) : Uses (m + n) (p.andThen q) := by
  intro x a ps rest b h
  rcases hfirst : p x a with ⟨_ | ⟨qs, middle⟩, c⟩
  · rw [andThen_none hfirst] at h
    cases h
  · rw [andThen_some hfirst] at h
    rcases hsecond : q middle c with ⟨_ | ⟨rs, last⟩, d⟩
    · rw [hsecond] at h
      cases h
    · rw [hsecond] at h
      cases h
      have := hp hfirst
      have := hq hsecond
      omega

lemma orElse (hp : Uses n p) (hq : Uses n q) : Uses n (p.orElse q) := by
  intro x a ps rest b h
  rcases hfirst : p x a with ⟨_ | found, c⟩
  · rw [orElse_none hfirst] at h
    exact hq h
  · rw [orElse_some hfirst, ← hfirst] at h
    exact hp h

lemma optional (hp : Uses 0 p) : Uses 0 p.optional := by
  intro x a ps rest b h
  rcases hfirst : p x a with ⟨_ | found, c⟩
  · rw [optional_none hfirst] at h
    cases h
    exact Nat.le_refl _
  · rw [optional_some hfirst, ← hfirst] at h
    exact hp h

lemma rule (name : Rule) (hp : Uses n p) : Uses n (rule name p) := by
  intro x a ps rest b h
  rcases hbody : p x a with ⟨_ | ⟨qs, left⟩, c⟩
  · rw [rule_none name hbody] at h
    cases h
  · rw [rule_some name hbody] at h
    cases h
    exact hp hbody

lemma manyIn (hp : Uses 0 p) (rounds : ℕ) : Uses 0 (manyIn p rounds) := by
  induction rounds with
  | zero =>
    rintro x a ps rest b ⟨⟩
    exact Nat.le_refl _
  | succ rounds ih => exact optional (andThen hp ih)

lemma many (hp : Uses 0 p) : Uses 0 (many p) := fun x _ _ _ _ h => manyIn hp (x.length + 1) h

lemma skip : Uses 0 skip := token fun h => by
  cases h
  exact (List.dropWhile_suffix _).length_le

lemma seq (hp : Uses m p) (hq : Uses n q) : Uses (m + n) (p.seq q) := by
  have h := hp.andThen (skip.andThen hq)
  rwa [Nat.zero_add] at h

lemma star (hp : Uses 0 p) : Uses 0 (star p) :=
  optional (hp.andThen (many (skip.andThen hp)))

end Uses

/-- Where a parser uses up characters, its repetition is bounded by nothing but the text. -/
lemma manyIn_eq (hp : Uses 1 p) {m n : ℕ} (hm : x.length < m) (hn : x.length < n) (a : Attempts) :
    manyIn p m x a = manyIn p n x a := by
  induction m generalizing n x a with
  | zero => omega
  | succ m ih =>
    obtain ⟨n, rfl⟩ : ∃ k, n = k + 1 := ⟨n - 1, by omega⟩
    rcases hfirst : p x a with ⟨_ | ⟨ps, rest⟩, b⟩
    · rw [manyIn, manyIn, optional_none (andThen_none hfirst _),
        optional_none (andThen_none hfirst _)]
    · have hrest := hp hfirst
      rw [manyIn, manyIn, optional, optional, andThen_some hfirst, andThen_some hfirst,
        ih (n := n) (by omega) (by omega)]

lemma many_none (h : p x a = (none, b)) : many p x a = (some ([], x), b) :=
  optional_none (andThen_none h _)

/-- A repetition goes on until it cannot be continued, and so it never fails. -/
lemma many_isSome (p : Parser) (x : List Char) (a : Attempts) : (many p x a).1.isSome = true := by
  rw [many, manyIn]
  rcases h : p.andThen (manyIn p x.length) x a with ⟨_ | _, b⟩
  · rw [optional_none h]
    rfl
  · rw [optional_some h]
    rfl

lemma many_some (hp : Uses 1 p) (h : p x a = (some (ps, rest), b)) :
    many p x a = after ps (many p rest b) := by
  have hrest := hp h
  have hmany : manyIn p x.length rest b = many p rest b :=
    manyIn_eq hp (by omega) (Nat.lt_succ_self _) b
  obtain ⟨⟨qs, left⟩, hsome⟩ := Option.isSome_iff_exists.mp (many_isSome p rest b)
  have hround : p.andThen (manyIn p x.length) x a = after ps (many p rest b) := by
    rw [andThen_some h, hmany]
  rw [many, manyIn, optional, hround]
  rcases hlast : many p rest b with ⟨_ | _, c⟩
  · simp [hlast] at hsome
  · rfl

lemma skip_andThen (p : Parser) (x : List Char) (a : Attempts) :
    skip.andThen p x a = p (x.dropWhile isBlank) a :=
  (andThen_some rfl p).trans (after_nil _)

/-- The result without the blanks before what is left. -/
def settled (found : Found) : Found :=
  (found.1.map fun (ps, rest) => (ps, rest.dropWhile isBlank), found.2)

@[simp] lemma settled_some (ps : List Pair) (rest : List Char) (a : Attempts) :
    settled (some (ps, rest), a) = (some (ps, rest.dropWhile isBlank), a) := rfl

@[simp] lemma settled_none (a : Attempts) : settled (none, a) = (none, a) := rfl

lemma seq_some (h : p x a = (some (ps, rest), b)) (q : Parser) :
    p.seq q x a = after ps (q (rest.dropWhile isBlank) b) := by
  rw [seq, andThen_some h, skip_andThen]

lemma seq_some_of_settled {y : List Char} (h : settled (p x a) = (some (ps, y), b)) (q : Parser) :
    p.seq q x a = after ps (q y b) := by
  rcases hp : p x a with ⟨_ | ⟨qs, rest⟩, c⟩ <;> rw [hp] at h <;> cases h
  exact seq_some hp q

lemma seq_none (h : p x a = (none, b)) (q : Parser) : p.seq q x a = (none, b) := andThen_none h _

lemma settled_after (ps : List Pair) (found : Found) :
    settled (after ps found) = after ps (settled found) := by
  obtain ⟨_ | ⟨qs, rest⟩, a⟩ := found <;> rfl

lemma settled_andThen (h : ∀ y b, settled (p y b) = settled (q y b)) (r : Parser) (x : List Char)
    (a : Attempts) : settled (r.andThen p x a) = settled (r.andThen q x a) := by
  rcases hr : r x a with ⟨_ | ⟨ps, rest⟩, b⟩
  · rw [andThen_none hr, andThen_none hr]
  · rw [andThen_some hr, andThen_some hr]
    rw [settled_after, settled_after, h]

/-- What follows in a sequence depends on what was found up to blanks. -/
lemma seq_after {y : List Char} {c : Attempts}
    (h : settled (p x a) = settled (after ps (q y c))) (r : Parser) :
    p.seq r x a = after ps (q.seq r y c) := by
  rcases hp : p x a with ⟨_ | ⟨qs, rest⟩, b⟩ <;> rcases hq : q y c with ⟨_ | ⟨rs, last⟩, d⟩ <;>
    rw [hp, hq] at h <;> simp only [settled, after, Option.map_none, Option.map_some,
      Prod.mk.injEq, Option.some.injEq, reduceCtorEq, true_and, false_and] at h
  · rw [seq_none hp, seq_none hq, h]
    rfl
  · obtain ⟨⟨rfl, hrest⟩, rfl⟩ := h
    rw [seq_some hp, seq_some hq, hrest, after_after]

lemma star_none (h : p x a = (none, b)) : star p x a = (some ([], x), b) :=
  optional_none (andThen_none h _)

lemma star_some (h : p x a = (some (ps, rest), b)) :
    star p x a = after ps (many (skip.andThen p) rest b) := by
  obtain ⟨⟨qs, left⟩, hsome⟩ := Option.isSome_iff_exists.mp (many_isSome (skip.andThen p) rest b)
  rw [star, optional, andThen_some h]
  rcases hmany : many (skip.andThen p) rest b with ⟨_ | _, c⟩
  · simp [hmany] at hsome
  · rfl

/-- It makes no difference whether blanks are skipped before a repetition or before each round. -/
lemma many_settled (hp : Uses 1 p) (x : List Char) (a : Attempts) :
    settled (many (skip.andThen p) x a) = settled (star p (x.dropWhile isBlank) a) := by
  rcases h : p (x.dropWhile isBlank) a with ⟨_ | ⟨ps, rest⟩, b⟩
  · rw [many_none (by rw [skip_andThen, h]), star_none h]
    simp only [settled, Option.map_some]
    rw [settled_dropWhile x]
  · have huses : Uses 1 (skip.andThen p) := (Uses.skip.andThen hp).mono (by omega)
    rw [many_some huses (by rw [skip_andThen, h]), star_some h]

lemma star_seq_none (hx : Settled x) (h : p x a = (none, b)) (q : Parser) :
    (star p).seq q x a = q x b := by
  rw [seq_some (star_none h), hx, after_nil]

lemma star_seq_some (hp : Uses 1 p) (h : p x a = (some (ps, rest), b)) (q : Parser) :
    (star p).seq q x a = after ps ((star p).seq q (rest.dropWhile isBlank) b) :=
  seq_after (by rw [star_some h, settled_after, settled_after, many_settled hp]) q

end Parser

end EquationCompiler
