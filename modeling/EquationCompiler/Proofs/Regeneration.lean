import EquationCompiler.Proofs.FailedRun

/-!
# Running again

A run reads its templates and its input and then writes two files. Where these are
other files than those it reads, the next run finds everything as this one did.
-/
namespace EquationCompiler

variable {β γ : Type}

namespace FileTree

/-- The paths do not lead to one place. -/
def Apart (t : FileTree) (first second : String) : Prop :=
  ∀ l, t.locate first = .ok l → t.locate second ≠ .ok l

theorem read_eq_ok {t : FileTree} {path text : String} :
    t.read path = .ok text ↔
      ∃ contents, t.readBytes path = .ok contents ∧ String.fromUTF8? contents = some text := by
  rw [read]
  cases t.readBytes path with
  | error fault => simp [bind, Except.bind]
  | ok contents =>
    simp only [bind, Except.bind, Except.ok.injEq, exists_eq_left']
    cases String.fromUTF8? contents <;>
      simp [throw, throwThe, MonadExceptOf.throw, pure, Except.pure]

section
variable {t : FileTree} {l : Location} (hl : t.hasFolder l = false)
include hl

end

end FileTree

/-- The computation only reads, and what it gives on the first tree it gives on the second. -/
structure Carries (t t' : FileTree) (x : ExceptT Failure (StateM FileTree) β) : Prop where
  reads : Reads x
  carries : ∀ b, (onTree x t).1 = .ok b → (onTree x t').1 = .ok b

theorem onTree_readFile (path : String) (t : FileTree) :
    onTree (readFile path) t = ((t.read path).mapError (Failure.file path), t) := by
  rw [readFile, onTree_bind]
  change (match (Except.ok (t.read path), t) with
    | (.ok b, t') => onTree _ t'
    | (.error cause, t') => (.error cause, t')) = _
  cases t.read path <;> rfl

namespace Carries
variable {t t' : FileTree}

theorem pure (b : β) : Carries t t' (Pure.pure b) := ⟨fun _ => rfl, fun _ h => h⟩

theorem bind {x : ExceptT Failure (StateM FileTree) β}
    {f : β → ExceptT Failure (StateM FileTree) γ} (hx : Carries t t' x)
    (hf : ∀ b, Carries t t' (f b)) : Carries t t' (x >>= f) := by
  refine ⟨hx.reads.bind fun b => (hf b).reads, fun c h => ?_⟩
  rw [onTree_bind, hx.reads.eq t] at h
  rw [onTree_bind, hx.reads.eq t']
  rcases hfirst : (onTree x t).1 with cause | b
  · rw [hfirst] at h
    cases h
  · rw [hfirst] at h
    rw [hx.carries b hfirst]
    exact (hf b).carries c h

/-- What is computed from what has been read does not look at a tree. -/
theorem lift (x : Except Failure β) : Carries t t' (liftM x) :=
  ⟨fun _ => rfl, fun _ h => h⟩

theorem readFile {path : String} (h : ∀ text, t.read path = .ok text → t'.read path = .ok text) :
    Carries t t' (readFile path) := by
  refine ⟨Reads.readFile path, fun text htext => ?_⟩
  rw [onTree_readFile] at htext ⊢
  cases hread : t.read path with
  | error fault =>
    rw [hread] at htext
    cases htext
  | ok contents =>
    rw [hread] at htext
    rw [h contents hread]
    exact htext

theorem readOptional {path : Option String}
    (h : ∀ p ∈ path, ∀ text, t.read p = .ok text → t'.read p = .ok text) :
    Carries t t' (readOptional path) := by
  cases path with
  | none => exact pure none
  | some path => exact (readFile (h path rfl)).bind fun text => pure (some text)

end Carries

namespace Settings

end Settings

namespace Artifacts
variable (a : Artifacts) {declarations definitions : String} {t t' : FileTree}

section
variable {l k : Location} (hl : t.hasFolder l = false) (hk : t.hasFolder k = false)
include hl hk

end

end Artifacts

namespace Settings

section
variable [TemplateEngine] {α : Type} [Numeral α]

end

end Settings

end EquationCompiler
