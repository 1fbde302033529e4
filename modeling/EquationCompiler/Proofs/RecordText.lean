import Mathlib
import EquationCompiler.Proofs.PaddedText
import EquationCompiler.Record.Line

/-!
# The text of records

A record is written as `name(p, q) [s = text, t = text] = expression`, with blanks
around every part and with a backslash before every number sign. This module says
what such a line is and which characters its parts cannot have.
-/
namespace EquationCompiler

namespace Comment

/-- The text with a backslash before every number sign. -/
def escape : List Char → List Char
  | [] => []
  | c :: cs => if c = '#' then '\\' :: '#' :: escape cs else c :: escape cs

lemma strip_cons {c : Char} {cs : List Char} (hc : c ≠ '#') (hcs : cs.head? ≠ some '#') :
    strip (c :: cs) = c :: strip cs := by
  rw [strip.eq_def]
  split
  · next h =>
    cases h
    exact absurd rfl hcs
  · next h =>
    cases h
    exact absurd rfl hc
  · next h =>
    cases h
    rfl
  · next h => cases h

lemma head?_escape_append {cs rest : List Char} (hrest : rest.head? ≠ some '#') :
    (escape cs ++ rest).head? ≠ some '#' := by
  cases cs with
  | nil => exact hrest
  | cons c cs => by_cases hc : c = '#' <;> simp [escape, hc]

/-- Escaped text is read as it was, unless a comment starts right after it. There its last
character could be a backslash. -/
theorem strip_escape_append (cs : List Char) {rest : List Char} (hrest : rest.head? ≠ some '#') :
    strip (escape cs ++ rest) = cs ++ strip rest := by
  induction cs with
  | nil => rfl
  | cons c cs ih =>
    by_cases hc : c = '#'
    · simp [escape, hc, ih]
    · rw [escape, if_neg hc, List.cons_append, strip_cons hc (head?_escape_append hrest), ih,
        List.cons_append]

lemma escape_of_not_mem {cs : List Char} (h : '#' ∉ cs) : escape cs = cs := by
  induction cs with
  | nil => rfl
  | cons c cs ih =>
    rw [List.mem_cons, not_or] at h
    rw [escape, if_neg (Ne.symm h.1), ih h.2]

lemma strip_of_not_mem {cs : List Char} (h : '#' ∉ cs) : strip cs = cs := by
  induction cs with
  | nil => rfl
  | cons c cs ih =>
    rw [List.mem_cons, not_or] at h
    have hhead : cs.head? ≠ some '#' := fun hhead => h.2 (List.mem_of_mem_head? hhead)
    rw [strip_cons (Ne.symm h.1) hhead, ih h.2]

end Comment

open Text (Padded)

/-- A substitution that can stand in a block: its text has none of the characters that end it. -/
structure Substitution.Writable (s : Substitution) : Prop where
  name : Record.isName s.name.toList = true
  text_ne_nil : s.text.toList ≠ []
  trimmed : Text.trim s.text.toList = s.text.toList
  no_comma : ',' ∉ s.text.toList
  no_opening : '[' ∉ s.text.toList
  no_closing : ']' ∉ s.text.toList

namespace Record

/-- A record that can be written on a line. -/
structure Writable (r : Record) : Prop where
  name : isName r.name.toList = true
  parameters_ne_nil : r.parameters ≠ []
  parameters : ∀ p ∈ r.parameters, isName p.toList = true
  nodup : r.parameters.Nodup
  substitutions : ∀ s ∈ r.substitutions, s.Writable
  expression_ne_nil : r.expression.toList ≠ []
  trimmed : Text.trim r.expression.toList = r.expression.toList

/-- The name of a function and its parameters in parentheses. -/
def WritesHead (name : String) (parameters : List String) (text : List Char) : Prop :=
  ∃ first texts, Padded Shape.isBlank name.toList first ∧
    List.Forall₂ (fun p t => Padded Shape.isBlank p.toList t) parameters texts ∧
    text = first ++ '(' :: ([','].intercalate texts ++ [')'])

/-- A substitution in a block. White space of any kind may stand around its text. -/
def WritesSubstitution (s : Substitution) (text : List Char) : Prop :=
  ∃ name value, Padded Shape.isBlank s.name.toList name ∧
    Padded Text.isBlank s.text.toList value ∧ text = name ++ '=' :: value

/-- What stands between the parameters and the defining equals sign. -/
inductive WritesBlock : List Substitution → List Char → Prop
  | missing {gap : List Char} (hgap : ∀ c ∈ gap, Shape.isBlank c = true) : WritesBlock [] gap
  | present {subs : List Substitution} {texts : List (List Char)} {before after : List Char}
      (hne : subs ≠ []) (hbefore : ∀ c ∈ before, Shape.isBlank c = true)
      (hafter : ∀ c ∈ after, Shape.isBlank c = true)
      (htexts : List.Forall₂ WritesSubstitution subs texts) :
      WritesBlock subs (before ++ '[' :: ([','].intercalate texts ++ ']' :: after))

/-- What stands before the defining equals sign, of names and texts that can stand there. -/
structure Front (f : String) (ps : List String) (subs : List Substitution)
    (head block : List Char) : Prop where
  name : isName f.toList = true
  parameters_ne_nil : ps ≠ []
  parameters : ∀ p ∈ ps, isName p.toList = true
  substitutions : ∀ s ∈ subs, s.Writable
  writesHead : WritesHead f ps head
  writesBlock : WritesBlock subs block

/-- The line writes the record. -/
def Writes (r : Record) (line : List Char) : Prop :=
  ∃ head block expression, WritesHead r.name r.parameters head ∧
    WritesBlock r.substitutions block ∧ Padded Text.isBlank r.expression.toList expression ∧
    line = head ++ (block ++ '=' :: expression)

end Record

lemma Shape.isBlank_text {c : Char} (h : Shape.isBlank c = true) : Text.isBlank c = true := by
  simp only [Shape.isBlank, Bool.or_eq_true, decide_eq_true_eq] at h
  rcases h with (rfl | rfl) | rfl <;> decide

/-- The blanks before a text are trimmed off. -/
lemma Shape.trim_append {gap : List Char} (hgap : ∀ c ∈ gap, isBlank c = true) (text : List Char) :
    Text.trim (gap ++ text) = Text.trim text :=
  Text.trim_padded ((Padded.refl _ _).append_left fun c hc => isBlank_text (hgap c hc))

lemma Shape.isBlank_space : ∀ c ∈ [' '], isBlank c = true :=
  List.forall_mem_singleton.mpr (by decide)

lemma Shape.isBlank_eq_false {c : Char} (h : Text.isBlank c = false) : Shape.isBlank c = false := by
  by_contra hc
  rw [Bool.not_eq_false] at hc
  rw [Shape.isBlank_text hc] at h
  cases h

lemma Shape.isNameChar_spec {c : Char} (h : Shape.isNameChar c = true) :
    Text.isBlank c = false := by
  simp only [Shape.isNameChar, Char.isAlphanum, Char.isAlpha, Char.isUpper, Char.isLower,
    Char.isDigit, Bool.or_eq_true, Bool.and_eq_true, decide_eq_true_eq, ge_iff_le,
    UInt32.le_iff_toNat_le] at h
  have hrange : (48 ≤ c.toNat ∧ c.toNat ≤ 57) ∨ (65 ≤ c.toNat ∧ c.toNat ≤ 122) := by
    rcases h with ((h | h) | h) | rfl
    · exact .inr ⟨h.1, h.2.trans (by decide)⟩
    · exact .inr ⟨le_trans (by decide) h.1, h.2⟩
    · exact .inl h
    · decide
  simp only [Text.isBlank, Text.blankRanges, List.any_cons, List.any_nil, Bool.or_false,
    Bool.or_eq_false_iff, Bool.and_eq_false_iff, decide_eq_false_iff_not]
  omega

namespace Record
variable {cs : List Char} {name : String} {text : List Char}

lemma isName_iff : isName cs = true ↔ cs ≠ [] ∧ ∀ c ∈ cs, Shape.isNameChar c = true := by
  simp [isName, Shape.isNameChar]

lemma not_blank_of_isName (h : isName cs = true) : ∀ c ∈ cs, Text.isBlank c = false :=
  fun c hc => Shape.isNameChar_spec ((isName_iff.mp h).2 c hc)

/-- A separator stands in no padded name. -/
lemma not_mem_of_padded (hname : isName cs = true) (h : Padded Shape.isBlank cs text) {c : Char}
    (hc : Shape.isNameChar c = false) (hblank : Shape.isBlank c = false) : c ∉ text :=
  h.not_mem (fun hmem => by simp [(isName_iff.mp hname).2 c hmem] at hc) hblank

lemma trim_of_padded (hname : isName cs = true) (h : Padded Shape.isBlank cs text) :
    Text.trim text = cs := by
  have hcs := not_blank_of_isName hname
  rw [Text.trim_padded (h.mono fun _ => Shape.isBlank_text)]
  exact Text.trim_eq_self (fun c hc => hcs c (List.mem_of_mem_head? hc))
    fun c hc => hcs c (List.mem_of_mem_getLast? hc)

lemma padded_trimStart (hname : isName cs = true) (h : Padded Shape.isBlank cs text) :
    Padded Shape.isBlank cs (Text.trimStart text) :=
  h.trimStart (fun _ => Shape.isBlank_text)
    (fun c hc => not_blank_of_isName hname c (List.mem_of_mem_head? hc)) (isName_iff.mp hname).1

lemma toName_of_padded (role : NameRole) (hname : isName name.toList = true)
    (h : Padded Shape.isBlank name.toList text) : toName role text = .ok name := by
  rw [toName, trim_of_padded hname h]
  simp [hname]

end Record

section
variable {α β : Type} {R : α → β → Prop} {xs : List α} {ys : List β}

lemma forall_mem_of_forall₂ {P : β → Prop} (h : List.Forall₂ R xs ys)
    (hP : ∀ x ∈ xs, ∀ y, R x y → P y) : ∀ y ∈ ys, P y := by
  induction h with
  | nil => exact nofun
  | cons hxy _ ih =>
    rw [List.forall_mem_cons] at hP
    exact List.forall_mem_cons.mpr ⟨hP.1 _ hxy, ih hP.2⟩

/-- A function that gives the elements of the one list from those of the other. -/
lemma mapM_of_forall₂ {m : Type → Type} [Monad m] [LawfulMonad m] {f : β → m α}
    (h : List.Forall₂ R xs ys) (hf : ∀ x ∈ xs, ∀ y, R x y → f y = pure x) :
    ys.mapM f = pure xs := by
  induction h with
  | nil => rfl
  | cons hxy _ ih =>
    rw [List.forall_mem_cons] at hf
    simp [hf.1 _ hxy, ih hf.2]

end

lemma mapM_eq_ok_iff {β γ ε : Type} {f : β → Except ε γ} {ys : List β} {zs : List γ} :
    ys.mapM f = .ok zs ↔ List.Forall₂ (fun y z => f y = .ok z) ys zs := by
  refine ⟨fun h => ?_, fun h => mapM_of_forall₂ h.flip fun _ _ _ hz => hz⟩
  induction ys generalizing zs with
  | nil =>
    cases h
    exact .nil
  | cons y ys ih =>
    rw [List.mapM_cons] at h
    cases hy : f y with
    | error cause => simp [hy, bind, Except.bind] at h
    | ok z =>
      cases hys : ys.mapM f with
      | error cause => simp [hy, hys, bind, Except.bind] at h
      | ok more =>
        obtain rfl : z :: more = zs := by
          simpa [hy, hys, bind, Except.bind, pure, Except.pure] using h
        exact .cons hy (ih hys)

/-- The error is that of the first element that has one. -/
lemma mapM_eq_error_iff {β γ ε : Type} {f : β → Except ε γ} {ys : List β} {cause : ε} :
    ys.mapM f = .error cause ↔ ∃ before y after, ys = before ++ y :: after ∧
      (∀ b ∈ before, ∃ z, f b = .ok z) ∧ f y = .error cause := by
  induction ys with
  | nil => exact ⟨nofun, fun ⟨before, y, after, h, _⟩ => by simp at h⟩
  | cons first ys ih =>
    rw [List.mapM_cons]
    cases hfirst : f first with
    | error other =>
      constructor
      · rintro ⟨⟩
        exact ⟨[], first, ys, rfl, nofun, hfirst⟩
      · rintro ⟨before, y, after, hys, hbefore, hy⟩
        cases before with
        | nil =>
          cases hys
          cases hfirst.symm.trans hy
          rfl
        | cons b before =>
          cases hys
          obtain ⟨z, hz⟩ := hbefore _ List.mem_cons_self
          cases hfirst.symm.trans hz
    | ok z =>
      have hrest : (Except.ok z >>= fun z => ys.mapM f >>= fun zs => pure (z :: zs)) =
          Except.error cause ↔ ys.mapM f = .error cause := by
        cases ys.mapM f <;> simp [bind, Except.bind, pure, Except.pure]
      rw [hrest, ih]
      constructor
      · rintro ⟨before, y, after, rfl, hbefore, hy⟩
        exact ⟨first :: before, y, after, rfl, List.forall_mem_cons.mpr ⟨⟨z, hfirst⟩, hbefore⟩, hy⟩
      · rintro ⟨before, y, after, hys, hbefore, hy⟩
        cases before with
        | nil =>
          cases hys
          cases hfirst.symm.trans hy
        | cons b before =>
          cases hys
          exact ⟨before, y, after, rfl, (List.forall_mem_cons.mp hbefore).2, hy⟩

lemma mapM_eq_some_iff {β γ : Type} {f : β → Option γ} {ys : List β} {zs : List γ} :
    ys.mapM f = some zs ↔ List.Forall₂ (fun z y => f y = some z) zs ys := by
  refine ⟨fun h => ?_, fun h => mapM_of_forall₂ h fun _ _ _ hz => hz⟩
  induction ys generalizing zs with
  | nil =>
    cases h
    exact .nil
  | cons y ys ih =>
    rw [List.mapM_cons] at h
    obtain ⟨z, hz, h⟩ := Option.bind_eq_some_iff.mp h
    obtain ⟨more, hmore, h⟩ := Option.bind_eq_some_iff.mp h
    cases h
    exact .cons hz (ih hmore)

lemma mapM_eq_none {β γ : Type} {f : β → Option γ} {ys : List β} {y : β} (hy : y ∈ ys)
    (h : f y = none) : ys.mapM f = none := by
  induction ys with
  | nil => cases hy
  | cons first ys ih =>
    rw [List.mapM_cons]
    rcases List.mem_cons.mp hy with rfl | hy
    · rw [h]
      rfl
    · rw [ih hy]
      cases f first <;> rfl

namespace Record
variable {parameters : List String} {texts : List (List Char)}

section
variable (hparameters : ∀ p ∈ parameters, isName p.toList = true)
  (htexts : List.Forall₂ (fun p t => Padded Shape.isBlank p.toList t) parameters texts)
include hparameters htexts

lemma not_mem_parameters {c : Char} (hc : Shape.isNameChar c = false)
    (hblank : Shape.isBlank c = false) : ∀ t ∈ texts, c ∉ t :=
  forall_mem_of_forall₂ htexts fun p hp _ ht => not_mem_of_padded (hparameters p hp) ht hc hblank

lemma pieces_parameters (hne : parameters ≠ []) :
    Text.pieces ',' ([','].intercalate texts) = texts := by
  refine Text.pieces_intercalate
    (not_mem_parameters hparameters htexts (by decide) (by decide)) ?_
  rintro rfl
  cases htexts
  exact hne rfl

/-- The text without the blanks before the first parameter still has the parameters in it. -/
lemma exists_trimStart (hne : parameters ≠ []) :
    ∃ trimmed, List.Forall₂ (fun p t => Padded Shape.isBlank p.toList t) parameters trimmed ∧
      Text.trimStart ([','].intercalate texts) = [','].intercalate trimmed := by
  cases htexts with
  | nil => exact absurd rfl hne
  | @cons p first more rest hfirst hrest =>
    have hp := hparameters p List.mem_cons_self
    have hpadded := padded_trimStart hp hfirst
    have hstart : Text.trimStart first ≠ [] := by
      intro hempty
      obtain ⟨left, right, -, -, h⟩ := hpadded
      rw [hempty] at h
      simp [(isName_iff.mp hp).1] at h
    refine ⟨Text.trimStart first :: rest, .cons hpadded hrest, ?_⟩
    cases rest with
    | nil => simp [List.intercalate]
    | cons second rest =>
      rw [Text.intercalate_cons_cons, Text.trimStart_append_of_ne_nil hstart,
        Text.intercalate_cons_cons]

end

end Record

end EquationCompiler
