import EquationCompiler.Expr.Substitute
import EquationCompiler.Proofs.PrintRead

/-!
# Expressions that can be built

Expressions that are parsed, put together by the simplifying constructors,
substituted into and differentiated, in any order and any number of times. Whatever
is obtained in this way is well formed: its symbols are names, none of its sums is
empty, and its functions are applied to as many arguments as they take.
-/
namespace EquationCompiler.Expr
open Token
variable {α : Type}

/-- The symbols have a property, no sum is empty, and every function has as many arguments as it
takes. -/
inductive Formed (Named : String → Prop) : Expr α → Prop
  | number (x : α) : Formed Named (number x)
  | symbol {s : String} (h : Named s) : Formed Named (symbol s)
  | constant (c : Constant) : Formed Named (constant c)
  | sum {ts : List (Expr α)} (hne : ts ≠ []) (h : ∀ t ∈ ts, Formed Named t) :
    Formed Named (sum ts)
  | product {fs : List (Expr α)} (h : ∀ f ∈ fs, Formed Named f) : Formed Named (product fs)
  | power {b e : Expr α} (hb : Formed Named b) (he : Formed Named e) : Formed Named (power b e)
  | call {f : Elementary} {args : List (Expr α)} (hlength : args.length = f.arity)
      (h : ∀ a ∈ args, Formed Named a) : Formed Named (call f args)

section
variable {Named : String → Prop}

lemma hereditary_formed : Hereditary (Formed Named : Expr α → Prop) where
  number := .number
  sum := .sum
  of_sum h := by cases h; assumption
  product := .product
  of_product h := by cases h; assumption
  power := .power
  of_power h := by cases h; exact ⟨by assumption, by assumption⟩
  call := .call
  of_call h := by cases h; assumption

/-- What is well formed can be written. -/
lemma Formed.writable {e : Expr α} (h : Formed (fun s => IsName s.toList) e) : Writable e := by
  induction h with
  | number x => exact .number x
  | symbol h => exact .symbol h
  | constant c => exact .constant c
  | sum hne _ ih => exact .sum hne ih
  | product _ ih => exact .product ih
  | power _ _ hb he => exact .power hb he
  | @call f args hlength _ ih =>
    refine .call ?_ ih
    rintro rfl
    cases f <;> cases hlength

lemma contains_of_mem {s : String} {e : Expr α} {es : List (Expr α)} (he : e ∈ es)
    (hs : e.contains s = true) : containsAny s es = true := by
  induction es with
  | nil => cases he
  | cons f fs ih =>
    rw [containsAny, Bool.or_eq_true]
    rcases List.mem_cons.mp he with rfl | he
    · exact .inl hs
    · exact .inr (ih he)

/-- Only the symbols that occur matter. -/
lemma Formed.of_contains {Other : String → Prop} {e : Expr α} (h : Formed Named e)
    (hother : ∀ s, e.contains s = true → Named s → Other s) : Formed Other e := by
  induction h with
  | number x => exact .number x
  | symbol h => exact .symbol (hother _ (by simp [contains]) h)
  | constant c => exact .constant c
  | sum hne _ ih =>
    exact .sum hne fun t ht => ih t ht fun s hs => hother s (contains_of_mem ht hs)
  | product _ ih =>
    exact .product fun f hf => ih f hf fun s hs => hother s (contains_of_mem hf hs)
  | power _ _ hb he =>
    exact .power (hb fun s hs => hother s (by simp [contains, hs]))
      (he fun s hs => hother s (by simp [contains, hs]))
  | call hlength _ ih =>
    exact .call hlength fun a ha => ih a ha fun s hs => hother s (contains_of_mem ha hs)

end

theorem Formed.substitute [Scalar α] {Named : String → Prop} {name : String} {r : Expr α}
    (hr : Formed Named r) {e : Expr α} (he : Formed Named e) :
    Formed Named (e.substitute name r) := by
  refine hereditary_formed.substitute hereditary_formed.toInherited ?_ (fun h _ => h) hr he
  intro f args args' h hlength hargs
  cases h with
  | call harity _ => exact .call (by rw [hlength, harity]) hargs

/-- What can be had by parsing texts and combining the expressions in every way there is. -/
inductive Obtained [Numeral α] : Expr α → Prop
  | parse {v : Vocabulary} {text : String} {e : Expr α} (h : parse v text = .ok e) : Obtained e
  | number (x : α) : Obtained (number x)
  | add {ts : List (Expr α)} (h : ∀ t ∈ ts, Obtained t) : Obtained (add ts)
  | mul {fs : List (Expr α)} (h : ∀ f ∈ fs, Obtained f) : Obtained (mul fs)
  | pow {b e : Expr α} (hb : Obtained b) (he : Obtained e) : Obtained (pow b e)
  | apply {f : Elementary} {args : List (Expr α)} (hlength : args.length = f.arity)
      (h : ∀ a ∈ args, Obtained a) : Obtained (apply f args)
  | neg {e : Expr α} (h : Obtained e) : Obtained (neg e)
  | sub {a b : Expr α} (ha : Obtained a) (hb : Obtained b) : Obtained (sub a b)
  | div {a b : Expr α} (ha : Obtained a) (hb : Obtained b) : Obtained (div a b)
  | substitute {e r : Expr α} (name : String) (he : Obtained e) (hr : Obtained r) :
    Obtained (e.substitute name r)
  | derivative {e : Expr α} (name : String) (h : Obtained e) : Obtained (derivative name e)

theorem formed_parse [Numeral α] {v : Vocabulary} {text : String} {e : Expr α}
    (h : parse v text = .ok e) : Formed (fun s => IsName s.toList) e := by
  obtain ⟨f, hread, hcompile⟩ := Formula.bind_eq_ok.mp h
  refine Formula.hereditary_compile hereditary_formed .constant (fun s hs => .symbol ?_) hcompile
  exact Formula.isName_of_read hread hs

theorem Obtained.formed [Numeral α] {e : Expr α} (h : Obtained e) :
    Formed (fun s => IsName s.toList) e := by
  induction h with
  | parse h => exact formed_parse h
  | number x => exact .number x
  | add _ ih => exact hereditary_formed.add ih
  | mul _ ih => exact hereditary_formed.mul ih
  | pow _ _ hb he => exact hereditary_formed.pow hb he
  | apply hlength _ ih => exact hereditary_formed.apply hlength ih
  | neg _ ih => exact hereditary_formed.neg ih
  | sub _ _ ha hb => exact hereditary_formed.sub ha hb
  | div _ _ ha hb => exact hereditary_formed.div ha hb
  | substitute name _ _ he hr => exact hr.substitute he
  | derivative name _ ih => exact hereditary_formed.derivative name ih

end EquationCompiler.Expr
