import EquationCompiler.Template.Basic
import Mathlib.Data.List.Forall2

/-!
# Types of templates

A context says which names a template may use and what can be asked of their
values. A template that fits a context is rendered in every scope that keeps what
the context promises, and the text depends on nothing else in the scope.
-/
namespace EquationCompiler

/-- What can be asked of a value. Every value has a text and counts as true or false. -/
inductive ValueType where
  | any
  | list (item : ValueType)
  | record (fields : List (String × ValueType))

/-- The value can be asked for what the type says. -/
inductive Value.Has : Value → ValueType → Prop
  | any (v : Value) : v.Has .any
  | list {items : List Value} {τ : ValueType} (h : ∀ v ∈ items, v.Has τ) :
      (Value.list items).Has (.list τ)
  | noField (v : Value) : v.Has (.record [])
  | field {v w : Value} {name : String} {τ : ValueType} {fields : List (String × ValueType)}
      (hw : v.field? name = some w) (hτ : w.Has τ) (h : v.Has (.record fields)) :
      v.Has (.record ((name, τ) :: fields))

namespace ValueType

def field? (name : String) : ValueType → Option ValueType
  | record fields => fields.lookup name
  | _ => none

/-- The type that a row of fields leads to. -/
def follow? (τ : ValueType) (fields : List String) : Option ValueType :=
  fields.foldlM (fun τ name => τ.field? name) τ

@[simp] theorem follow?_nil (τ : ValueType) : τ.follow? [] = some τ := rfl

@[simp] theorem follow?_cons (τ : ValueType) (name : String) (fields : List String) :
    τ.follow? (name :: fields) = (τ.field? name).bind fun σ => σ.follow? fields := rfl

/-- The type of what a filter makes. -/
def filtered? (τ : ValueType) (filter : String) : Option ValueType :=
  match τ with
  | list _ => if filter = "length" then some any else none
  | _ => none

end ValueType

namespace Value.Has

theorem field? {v : Value} {fields : List (String × ValueType)} {name : String} {τ : ValueType}
    (h : v.Has (.record fields)) (hτ : fields.lookup name = some τ) :
    ∃ w, v.field? name = some w ∧ w.Has τ := by
  induction fields with
  | nil => cases hτ
  | cons entry fields ih =>
    obtain ⟨first, σ⟩ := entry
    cases h with | field hw hσ h =>
    rw [List.lookup_cons] at hτ
    split at hτ
    · next heq =>
      obtain rfl := beq_iff_eq.mp heq
      cases hτ
      exact ⟨_, hw, hσ⟩
    · exact ih h hτ

theorem follow? {v : Value} {τ σ : ValueType} {fields : List String} (h : v.Has τ)
    (hσ : τ.follow? fields = some σ) : ∃ w, v.follow? fields = some w ∧ w.Has σ := by
  induction fields generalizing v τ with
  | nil =>
    cases hσ
    exact ⟨v, rfl, h⟩
  | cons name fields ih =>
    rw [ValueType.follow?_cons] at hσ
    obtain ⟨next, hnext, hrest⟩ := Option.bind_eq_some_iff.mp hσ
    cases τ with
    | any | list => cases hnext
    | record types =>
      obtain ⟨u, hu, hnextu⟩ := h.field? hnext
      obtain ⟨w, hw, hwσ⟩ := ih hnextu hrest
      exact ⟨w, by rw [Value.follow?_cons, hu, Option.bind_some, hw], hwσ⟩

theorem filtered {v : Value} {τ σ : ValueType} {filter : String} (h : v.Has τ)
    (hσ : τ.filtered? filter = some σ) : ∃ w, v.filtered filter = .ok w ∧ w.Has σ := by
  cases h with
  | any | noField | field => cases hσ
  | list _ =>
    rw [ValueType.filtered?] at hσ
    split at hσ
    · next hfilter =>
      cases hσ
      exact ⟨_, by rw [Value.filtered, if_pos hfilter]; rfl, .any _⟩
    · cases hσ

theorem foldlM_filtered {v : Value} {τ σ : ValueType} {filters : List String} (h : v.Has τ)
    (hσ : filters.foldlM ValueType.filtered? τ = some σ) :
    ∃ w, filters.foldlM Value.filtered v = .ok w ∧ w.Has σ := by
  induction filters generalizing v τ with
  | nil =>
    cases hσ
    exact ⟨v, rfl, h⟩
  | cons filter filters ih =>
    rw [List.foldlM_cons] at hσ
    obtain ⟨next, hnext, hrest⟩ := Option.bind_eq_some_iff.mp hσ
    obtain ⟨u, hu, hnextu⟩ := h.filtered hnext
    obtain ⟨w, hw, hwσ⟩ := ih hnextu hrest
    exact ⟨w, by rw [List.foldlM_cons, hu]; exact hw, hwσ⟩

end Value.Has

/-- What a template may ask for: the names with their types, innermost first, and inside a loop
where the round stands in it. -/
structure Context where
  names : List (String × ValueType)
  inLoop : Bool := false

namespace Context

/-- What can be asked under the name `loop`. -/
def place? : List String → Option ValueType
  | [place] => if place ∈ ["index", "index0", "first", "last"] then some .any else none
  | _ => none

def type? (ctx : Context) : ValuePath → Option ValueType
  | [] => none
  | name :: fields =>
    if name = "loop" then if ctx.inLoop then place? fields else none
    else (ctx.names.lookup name).bind fun τ => τ.follow? fields

/-- The context inside a loop over values of the given type. -/
def enter (ctx : Context) (item : String) (τ : ValueType) : Context :=
  ⟨(item, τ) :: ctx.names, true⟩

end Context

def Operand.type? (ctx : Context) : Operand → Option ValueType
  | .flag _ => some .any
  | .path names => ctx.type? names

def Query.type? (ctx : Context) (q : Query) : Option ValueType := do
  let τ ← q.operand.type? ctx
  let τ ← q.filters.foldlM ValueType.filtered? τ
  return if q.negated then .any else τ

mutual
/-- Whether a part of a template asks for nothing but what the context promises. -/
def Piece.fits (ctx : Context) : Piece → Bool
  | .text _ => true
  | .value query => (query.type? ctx).isSome
  | .forEach item container body otherwise =>
    match container.type? ctx with
    | some (.list τ) =>
      Template.fits (ctx.enter item τ) body && Template.fits ctx otherwise
    | _ => false
  | .branch condition yes no =>
    (condition.type? ctx).isSome && Template.fits ctx yes && Template.fits ctx no
def Template.fits (ctx : Context) : List Piece → Bool
  | [] => true
  | p :: ps => Piece.fits ctx p && Template.fits ctx ps
end

theorem LoopRound.place?_of_place? (r : LoopRound) {fields : List String} {τ : ValueType}
    (h : Context.place? fields = some τ) : ∃ v, r.place? fields = some v ∧ v.Has τ := by
  match fields with
  | [] | _ :: _ :: _ => cases h
  | [place] =>
    rw [Context.place?] at h
    split at h
    · next hplace =>
      cases h
      simp only [List.mem_cons, List.not_mem_nil, or_false] at hplace
      obtain rfl | rfl | rfl | rfl := hplace <;> exact ⟨_, rfl, .any _⟩
    · cases h

/-- Both scopes have what the context promises, and it is the same in both. -/
def Scope.Agree (ctx : Context) (s t : Scope) : Prop :=
  ∀ path τ, ctx.type? path = some τ → ∃ v, s.find? path = some v ∧ t.find? path = some v ∧ v.Has τ

/-- A context without promises is kept everywhere. -/
theorem Scope.agree_empty (s t : Scope) : Scope.Agree ⟨[], false⟩ s t := by
  intro path τ hτ
  cases path with
  | nil => cases hτ
  | cons name rest =>
    rw [Context.type?] at hτ
    split at hτ <;> cases hτ

/-- Outside of loops the fields of a scope keep the promises of their types. -/
theorem Scope.agree_self {fields : List (String × Value)} {names : List (String × ValueType)}
    (h : (Value.record fields).Has (.record names)) :
    Scope.Agree ⟨names, false⟩ { fields } { fields } := by
  intro path τ hτ
  cases path with
  | nil => cases hτ
  | cons name rest =>
    rw [Context.type?] at hτ
    split at hτ
    · cases hτ
    · have hrecord : (ValueType.record names).follow? (name :: rest) = some τ := hτ
      obtain ⟨v, hv, hvτ⟩ := h.follow? hrecord
      exact ⟨v, hv, hv, hvτ⟩

/-- A round of a loop keeps the agreement, and its item is known. -/
theorem Scope.Agree.enter {ctx : Context} {s t : Scope} (h : Scope.Agree ctx s t) {τ : ValueType}
    (r : LoopRound) (hr : r.item.Has τ) :
    Scope.Agree (ctx.enter r.name τ) (s.enter r) (t.enter r) := by
  intro path σ hσ
  simp only [find?_enter]
  cases path with
  | nil => cases hσ
  | cons name fields =>
    rw [Context.type?] at hσ
    rw [LoopRound.find?]
    split at hσ
    · next hname =>
      obtain ⟨v, hv, hvσ⟩ := r.place?_of_place? hσ
      exact ⟨v, by simp [hname, hv], by simp [hname, hv], hvσ⟩
    · next hname =>
      rw [if_neg hname]
      rw [Context.enter, List.lookup_cons] at hσ
      split at hσ
      · next hitem =>
        obtain ⟨v, hv, hvσ⟩ := hr.follow? hσ
        exact ⟨v, by simp [beq_iff_eq.mp hitem, hv], by simp [beq_iff_eq.mp hitem, hv], hvσ⟩
      · next hitem =>
        rw [if_neg (by simpa using hitem)]
        exact h (name :: fields) σ (by rw [Context.type?, if_neg hname, hσ])

theorem Operand.evaluate_of_type? {ctx : Context} {s t : Scope} (h : s.Agree ctx t)
    {o : Operand} {τ : ValueType} (ho : o.type? ctx = some τ) :
    ∃ v, o.evaluate s = .ok v ∧ o.evaluate t = .ok v ∧ v.Has τ := by
  cases o with
  | flag b =>
    cases ho
    exact ⟨.flag b, rfl, rfl, .any _⟩
  | path names =>
    obtain ⟨v, hs, ht, hv⟩ := h names τ ho
    refine ⟨v, ?_, ?_, hv⟩
    · rw [Operand.evaluate, Scope.find, hs]
    · rw [Operand.evaluate, Scope.find, ht]

namespace Query
variable {ctx : Context} {s t : Scope}

theorem evaluate_of_type? (h : s.Agree ctx t) {q : Query} {τ : ValueType}
    (hq : q.type? ctx = some τ) :
    ∃ v, q.evaluate s = .ok v ∧ q.evaluate t = .ok v ∧ v.Has τ := by
  obtain ⟨operandType, ho, hq⟩ := Option.bind_eq_some_iff.mp hq
  obtain ⟨filteredType, hf, hτ⟩ := Option.bind_eq_some_iff.mp hq
  obtain ⟨v, hs, ht, hv⟩ := Operand.evaluate_of_type? h ho
  obtain ⟨w, hw, hwτ⟩ := hv.foldlM_filtered hf
  refine ⟨if q.negated then .flag w.isEmpty else w, ?_, ?_, ?_⟩
  · simp only [evaluate, hs, hw]
    rfl
  · simp only [evaluate, ht, hw]
    rfl
  · cases hnegated : q.negated with
    | false =>
      rw [hnegated] at hτ
      cases hτ
      exact hwτ
    | true =>
      rw [hnegated] at hτ
      cases hτ
      exact .any _

theorem holds_eq (h : s.Agree ctx t) {q : Query} (hq : (q.type? ctx).isSome) :
    q.holds s = q.holds t := by
  obtain ⟨τ, hτ⟩ := Option.isSome_iff_exists.mp hq
  obtain ⟨v, hs, ht, -⟩ := evaluate_of_type? h hτ
  rw [holds, hs, holds, ht]

end Query

/-- Functions that succeed with the same results on lists side by side do so on the whole lists. -/
theorem exists_mapM_eq_ok {α β γ ε : Type} {f : α → Except ε γ} {g : β → Except ε γ}
    {xs : List α} {ys : List β}
    (h : List.Forall₂ (fun x y => ∃ z, f x = .ok z ∧ g y = .ok z) xs ys) :
    ∃ zs, xs.mapM f = .ok zs ∧ ys.mapM g = .ok zs := by
  induction h with
  | nil => exact ⟨[], rfl, rfl⟩
  | cons hxy _ ih =>
    obtain ⟨z, hx, hy⟩ := hxy
    obtain ⟨zs, hxs, hys⟩ := ih
    refine ⟨z :: zs, ?_, ?_⟩
    · rw [List.mapM_cons, hx, hxs]
      rfl
    · rw [List.mapM_cons, hy, hys]
      rfl

/-- The rounds of a loop over the same items, side by side. -/
theorem Scope.forall₂_loop {ctx : Context} {s t : Scope} (h : s.Agree ctx t) {τ : ValueType}
    (name : String) {items : List Value} (hitems : ∀ v ∈ items, v.Has τ) :
    List.Forall₂ (Scope.Agree (ctx.enter name τ)) (s.loop name items) (t.loop name items) := by
  rw [List.forall₂_iff_get]
  refine ⟨by simp, fun i hs ht => ?_⟩
  simp only [Scope.loop, List.get_eq_getElem, List.getElem_mapIdx]
  exact h.enter ⟨name, _, i, items.length⟩ (hitems _ (List.getElem_mem _))

/-- A loop over some items gives their texts in succession. -/
theorem Piece.render_forEach {s : Scope} {item : String} {container : Query}
    {body otherwise : List Piece} {first : Value} {rest : List Value} {texts : List String}
    (hv : container.evaluate s = .ok (.list (first :: rest)))
    (htexts : ((s.loop item (first :: rest)).mapM fun t => Template.render t body) = .ok texts) :
    Piece.render s (.forEach item container body otherwise) = .ok (String.join texts) := by
  rw [Piece.render, hv]
  change (((s.loop item (first :: rest)).mapM fun t => Template.render t body) >>= _) = _
  rw [htexts]
  rfl

namespace Template

theorem fits_append {ctx : Context} {ps qs : List Piece} :
    fits ctx (ps ++ qs) = (fits ctx ps && fits ctx qs) := by
  induction ps with
  | nil => rfl
  | cons p ps ih => simp [fits, ih, Bool.and_assoc]

theorem render_append {s : Scope} {ps qs : List Piece} {first rest : String}
    (hps : render s ps = .ok first) (hqs : render s qs = .ok rest) :
    render s (ps ++ qs) = .ok (first ++ rest) := by
  induction ps generalizing first with
  | nil =>
    cases hps
    rw [List.nil_append, hqs, String.empty_append]
  | cons p ps ih =>
    rw [render] at hps
    cases hp : Piece.render s p with
    | error cause => simp [hp, bind, Except.bind] at hps
    | ok text =>
      cases htexts : render s ps with
      | error cause => simp [hp, htexts, bind, Except.bind] at hps
      | ok texts =>
        rw [hp, htexts] at hps
        cases hps
        rw [List.cons_append, render, hp, ih htexts, String.append_assoc]
        rfl

end Template

mutual
/-- A part that fits a context has the same text in scopes that agree on the context. -/
theorem Piece.render_of_fits {ctx : Context} {s t : Scope} (h : s.Agree ctx t) (p : Piece)
    (hp : p.fits ctx = true) : ∃ text, p.render s = .ok text ∧ p.render t = .ok text := by
  cases p with
  | text part => exact ⟨part, rfl, rfl⟩
  | value q =>
    obtain ⟨τ, hτ⟩ := Option.isSome_iff_exists.mp hp
    obtain ⟨v, hs, ht, -⟩ := q.evaluate_of_type? h hτ
    exact ⟨v.toText, by rw [Piece.render, hs]; rfl, by rw [Piece.render, ht]; rfl⟩
  | forEach item container body otherwise =>
    rw [Piece.fits] at hp
    split at hp
    · next τ hτ =>
      rw [Bool.and_eq_true] at hp
      obtain ⟨v, hs, ht, hv⟩ := container.evaluate_of_type? h hτ
      cases hv with | @list items _ hitems =>
      cases items with
      | nil =>
        obtain ⟨text, hns, hnt⟩ := Template.render_of_fits h otherwise hp.2
        refine ⟨text, ?_, ?_⟩
        · rw [Piece.render, hs]
          exact hns
        · rw [Piece.render, ht]
          exact hnt
      | cons first rest =>
        have hrounds := (Scope.forall₂_loop h item hitems).imp fun _ _ hround =>
          Template.render_of_fits hround body hp.1
        obtain ⟨texts, hms, hmt⟩ := exists_mapM_eq_ok hrounds
        exact ⟨String.join texts, Piece.render_forEach hs hms, Piece.render_forEach ht hmt⟩
    · cases hp
  | branch condition yes no =>
    rw [Piece.fits, Bool.and_eq_true, Bool.and_eq_true] at hp
    obtain ⟨⟨hcondition, hyes⟩, hno⟩ := hp
    rw [Piece.render, Piece.render, Query.holds_eq h hcondition]
    split
    · exact Template.render_of_fits h yes hyes
    · exact Template.render_of_fits h no hno
theorem Template.render_of_fits {ctx : Context} {s t : Scope} (h : s.Agree ctx t)
    (ps : List Piece) (hps : Template.fits ctx ps = true) :
    ∃ text, Template.render s ps = .ok text ∧ Template.render t ps = .ok text := by
  cases ps with
  | nil => exact ⟨"", rfl, rfl⟩
  | cons p ps =>
    rw [Template.fits, Bool.and_eq_true] at hps
    obtain ⟨first, hs, ht⟩ := Piece.render_of_fits h p hps.1
    obtain ⟨rest, hss, hts⟩ := Template.render_of_fits h ps hps.2
    refine ⟨first ++ rest, ?_, ?_⟩
    · rw [Template.render, hs, hss]
      rfl
    · rw [Template.render, ht, hts]
      rfl
end

/-- The text of a part stands in the text of a template that fits. -/
theorem Template.render_of_mem {ctx : Context} {s : Scope} (h : s.Agree ctx s) {ps : List Piece}
    (hps : fits ctx ps = true) {p : Piece} (hp : p ∈ ps) {text : String}
    (htext : p.render s = .ok text) :
    ∃ before after, render s ps = .ok (before ++ text ++ after) := by
  obtain ⟨init, tail, rfl⟩ := List.append_of_mem hp
  rw [fits_append, fits, Bool.and_eq_true, Bool.and_eq_true] at hps
  obtain ⟨before, hbefore, -⟩ := render_of_fits h init hps.1
  obtain ⟨after, hafter, -⟩ := render_of_fits h tail hps.2.2
  have hrest : render s (p :: tail) = .ok (text ++ after) := by
    rw [render, htext, hafter]
    rfl
  exact ⟨before, after, by rw [render_append hbefore hrest, String.append_assoc]⟩

end EquationCompiler
