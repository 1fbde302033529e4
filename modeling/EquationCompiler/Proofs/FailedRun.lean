import Mathlib.Tactic.ByContra
import Mathlib.Tactic.SplitIfs
import EquationCompiler.Files.Tree
import EquationCompiler.Number.Machine
import EquationCompiler.Run

/-!
# Runs that fail

Nothing is written before both artifacts are rendered and both folders are found.
The header is written first, so a run can still stop halfway: where the folder of
the source file is there, but no file can be written at its path.
-/
namespace EquationCompiler

variable {β γ : Type}

/-- The result of a computation on a tree, and the tree that it leaves. -/
def onTree (x : ExceptT Failure (StateM FileTree) β) (t : FileTree) :
    Except Failure β × FileTree := x.run.run t

section
variable (t : FileTree) (path : String)

@[simp] theorem onTree_pure (b : β) : onTree (pure b) t = (.ok b, t) := rfl

@[simp] theorem onTree_throw (cause : Failure) :
    onTree (throw cause : ExceptT Failure (StateM FileTree) β) t = (.error cause, t) := rfl

@[simp] theorem onTree_isFolder :
    onTree (FileStore.isFolder path) t = (.ok (t.isFolder path), t) := rfl

theorem onTree_write (contents : String) :
    onTree (FileStore.write path contents) t =
      match t.write path contents with
      | .ok written => (.ok (.ok ()), written)
      | .error cause => (.ok (.error cause), t) := by
  change StateT.run (ExceptT.run (ExceptT.lift _)) t = _
  simp only [ExceptT.run_lift, FileStore.write]
  cases h : t.write path contents with
  | ok written => simp [h, StateT.run_bind]; rfl
  | error cause => simp [h, StateT.run_bind]; rfl

theorem onTree_bind (x : ExceptT Failure (StateM FileTree) β)
    (f : β → ExceptT Failure (StateM FileTree) γ) :
    onTree (x >>= f) t =
      match onTree x t with
      | (.ok b, t') => onTree (f b) t'
      | (.error cause, t') => (.error cause, t') := by
  rw [onTree, ExceptT.run_bind, StateT.run_bind]
  change _ = match x.run.run t with
    | (.ok b, t') => onTree (f b) t'
    | (.error cause, t') => (.error cause, t')
  obtain ⟨b | cause, t'⟩ := x.run.run t <;> rfl

end

/-- The computation leaves every tree as it is. -/
def Reads (x : ExceptT Failure (StateM FileTree) β) : Prop := ∀ t, (onTree x t).2 = t

namespace Reads

theorem bind {x : ExceptT Failure (StateM FileTree) β}
    {f : β → ExceptT Failure (StateM FileTree) γ} (hx : Reads x) (hf : ∀ b, Reads (f b)) :
    Reads (x >>= f) := by
  intro t
  have ht := hx t
  rw [onTree_bind]
  generalize onTree x t = done at ht ⊢
  obtain ⟨cause | b, t'⟩ := done
  · exact ht
  · exact (hf b t').trans ht

theorem eq {x : ExceptT Failure (StateM FileTree) β} (hx : Reads x) (t : FileTree) :
    onTree x t = ((onTree x t).1, t) := Prod.ext rfl (hx t)

theorem readFile (path : String) : Reads (readFile path) := by
  refine bind (fun t => rfl) fun b => ?_
  cases b <;> exact fun t => rfl

theorem readOptional (path : Option String) : Reads (readOptional path) := by
  cases path with
  | none => exact fun t => rfl
  | some path => exact (readFile path).bind fun text t => rfl

theorem checkFolder (path : String) : Reads (checkFolder path) := by
  rw [EquationCompiler.checkFolder]
  split
  · exact fun t => rfl
  · split_ifs
    · refine bind (fun t => rfl) fun b => ?_
      cases b <;> exact fun t => rfl
    · exact fun t => rfl

theorem load [TemplateEngine] (s : Settings) : Reads (Templates.load s) :=
  (readOptional _).bind fun _ => (readOptional _).bind fun _ _ => rfl

theorem build [TemplateEngine] (α : Type) [Numeral α] (s : Settings) : Reads (s.build α) :=
  (load s).bind fun _ => (readFile _).bind fun _ =>
    bind (fun _ => rfl) fun _ => bind (fun _ => rfl) fun _ _ => rfl

end Reads

namespace FileTree

/-- The folder that a path lies in is there, if it lies in one. -/
def HasFolderOf (t : FileTree) (path : String) : Prop :=
  ∀ folder, Path.parent? path = some folder → folder ≠ "" → t.isFolder folder = true

theorem find?_put_of_ne (t : FileTree) {l l' : Location} (e : FileEntry) (h : l' ≠ l) :
    (t.put l e).find? l' = t.find? l' := by
  have hlookup : (t.entries.filter fun entry => entry.1 ≠ l).lookup l' = t.entries.lookup l' := by
    induction t.entries with
    | nil => rfl
    | cons entry entries ih =>
      obtain ⟨key, value⟩ := entry
      by_cases hkey : key = l
      · have hne : (l' == key) = false := by simpa [hkey] using h
        rw [List.filter_cons_of_neg (by simpa using hkey), ih, List.lookup_cons, hne]
      · rw [List.filter_cons_of_pos (by simpa using hkey), List.lookup_cons, List.lookup_cons, ih]
  have hne : (l' == l) = false := by simpa using h
  rw [find?, find?, isAbove_put, put, List.lookup_cons, hne, hlookup]

/-- An output can be written where there is no folder. -/
theorem locateOutput_eq_ok {t : FileTree} {path : String} {l : Location} :
    t.locateOutput path = .ok l ↔
      path.endsWith "/" = false ∧ t.locate path = .ok l ∧ t.hasFolder l = false := by
  rw [locateOutput, locate]
  cases checkPath path with
  | error fault => simp [bind, Except.bind]
  | ok _ =>
    cases path.endsWith "/" with
    | true =>
      cases t.follow (t.start path) (partsOf path).dropLast.dropLast <;>
        simp [bind, Except.bind, throw, throwThe, MonadExceptOf.throw]
    | false =>
      cases hlocate : t.follow (t.start path) (partsOf path) with
      | error fault => simp [bind, Except.bind]
      | ok target =>
        cases hfolder : t.hasFolder target with
        | false =>
          simp only [bind, Except.bind, hfolder, Bool.false_eq_true, if_false, pure, Except.pure,
            Except.ok.injEq, true_and]
          exact ⟨fun h => ⟨h, h ▸ hfolder⟩, And.left⟩
        | true =>
          simp only [bind, Except.bind, hfolder, Bool.false_eq_true, if_false, if_true, throw,
            throwThe, MonadExceptOf.throw, reduceCtorEq, Except.ok.injEq, true_and, false_iff,
            not_and]
          rintro rfl
          simp [hfolder]

section
variable {t : FileTree} {l : Location} (hl : t.hasFolder l = false) (contents : ByteArray)
include hl

theorem hasFolder_put (l' : Location) :
    (t.put l (.file contents)).hasFolder l' = t.hasFolder l' := by
  by_cases h : l' = l
  · have habove : t.isAbove l = false := by
      by_contra habove
      rw [Bool.not_eq_false] at habove
      simp [hasFolder, find?, FileEntry.isFolder, habove] at hl
    rw [h, hl, hasFolder, find?_put_self _ _ habove]
    rfl
  · rw [hasFolder, find?_put_of_ne t _ h, hasFolder]

/-- A new file leads nowhere that could not be reached before. -/
theorem follow_put (start target : Location) (parts : List String) :
    (t.put l (.file contents)).follow start parts = .ok target ↔
      t.follow start parts = .ok target := by
  induction parts generalizing start with
  | nil => rfl
  | cons part rest ih =>
    have hfolder := hasFolder_put hl contents start
    rw [hasFolder, hasFolder] at hfolder
    rw [follow, follow]
    -- Only folders are followed, and the folders are the same.
    rcases hold : t.find? start with _ | _ | _ <;>
      rcases hnew : (t.put l (.file contents)).find? start with _ | _ | _ <;>
      simp [hold, hnew, FileEntry.isFolder] at hfolder ⊢
    split_ifs
    · rfl
    · exact ih _

theorem locate_put (path : String) (target : Location) :
    (t.put l (.file contents)).locate path = .ok target ↔ t.locate path = .ok target := by
  rw [locate, locate]
  cases checkPath path with
  | error fault => rfl
  | ok _ => exact follow_put hl contents _ target _

theorem locateOutput_put (path : String) (target : Location) :
    (t.put l (.file contents)).locateOutput path = .ok target ↔
      t.locateOutput path = .ok target := by
  rw [locateOutput_eq_ok, locateOutput_eq_ok, locate_put hl, hasFolder_put hl]

end

/-- Of two outputs only the first has a place to go to. The folders of both are there. -/
structure TakesOnlyFirst (t : FileTree) (first second : String) (l : Location) : Prop where
  folder_first : t.HasFolderOf first
  folder_second : t.HasFolderOf second
  first : t.locateOutput first = .ok l
  second : ∀ target, t.locateOutput second ≠ .ok target

end FileTree

theorem checkFolder_eq_ok {path : String} {t : FileTree} :
    (onTree (checkFolder path) t).1 = .ok () ↔ t.HasFolderOf path := by
  rw [checkFolder, FileTree.HasFolderOf]
  cases Path.parent? path with
  | none => simp
  | some folder =>
    by_cases hempty : folder = ""
    · simp [hempty]
    · cases hfolder : t.isFolder folder <;> simp [hempty, hfolder, onTree_bind]

theorem onTree_writeFile (path contents : String) (t : FileTree) :
    onTree (writeFile path contents) t =
      match t.locateOutput path with
      | .ok l => (.ok (), t.put l (.file contents.toUTF8))
      | .error fault => (.error (.file path fault), t) := by
  rw [writeFile, onTree_bind, onTree_write, FileTree.write, FileTree.writeBytes]
  cases t.locateOutput path <;> rfl

namespace Artifacts
variable (a : Artifacts) {declarations definitions : String} {t t' : FileTree}

/-- A folder that is missing keeps both outputs from being written. -/
theorem onTree_write_of_missing
    (h : ¬(t.HasFolderOf declarations ∧ t.HasFolderOf definitions)) :
    ∃ cause, onTree (a.write declarations definitions) t = (.error cause, t) := by
  rw [← checkFolder_eq_ok, ← checkFolder_eq_ok] at h
  rw [write, onTree_bind, (Reads.checkFolder declarations).eq t]
  rcases hfirst : (onTree (checkFolder declarations) t).1 with cause | _
  · exact ⟨cause, rfl⟩
  · dsimp only
    rw [onTree_bind, (Reads.checkFolder definitions).eq t]
    rcases hsecond : (onTree (checkFolder definitions) t).1 with cause | _
    · exact ⟨cause, rfl⟩
    · exact absurd ⟨hfirst, hsecond⟩ h

/-- With both folders there, the outputs are written one after the other. -/
theorem onTree_write (hdeclarations : t.HasFolderOf declarations)
    (hdefinitions : t.HasFolderOf definitions) :
    onTree (a.write declarations definitions) t =
      match t.locateOutput declarations with
      | .error fault => (.error (.file declarations fault), t)
      | .ok l =>
        let written := t.put l (.file a.declarations.toUTF8)
        match written.locateOutput definitions with
        | .error fault => (.error (.file definitions fault), written)
        | .ok target => (.ok (), written.put target (.file a.definitions.toUTF8)) := by
  rw [← checkFolder_eq_ok] at hdeclarations hdefinitions
  rw [write, onTree_bind, (Reads.checkFolder declarations).eq t, hdeclarations]
  dsimp only
  rw [onTree_bind, (Reads.checkFolder definitions).eq t, hdefinitions]
  dsimp only
  rw [onTree_bind, onTree_writeFile]
  cases t.locateOutput declarations with
  | error fault => rfl
  | ok l =>
    dsimp only
    rw [onTree_writeFile]
    cases FileTree.locateOutput _ definitions <;> rfl

theorem write_of_takesOnlyFirst {l : Location}
    (h : t.TakesOnlyFirst declarations definitions l) :
    ∃ fault, onTree (a.write declarations definitions) t =
      (.error (.file definitions fault), t.put l (.file a.declarations.toUTF8)) := by
  have hfolder := (FileTree.locateOutput_eq_ok.mp h.first).2.2
  rw [a.onTree_write h.folder_first h.folder_second, h.first]
  dsimp only
  rcases hsecond : (t.put l (.file a.declarations.toUTF8)).locateOutput definitions
    with fault | target
  · exact ⟨fault, rfl⟩
  · exact absurd ((FileTree.locateOutput_put hfolder _ _ _).mp hsecond) (h.second target)

/-- Only the first output can have been written when writing fails. -/
theorem write_failed {cause : Failure}
    (h : onTree (a.write declarations definitions) t = (.error cause, t')) :
    t' = t ∨ ∃ l, t.TakesOnlyFirst declarations definitions l ∧
      t' = t.put l (.file a.declarations.toUTF8) := by
  by_cases hfolders : t.HasFolderOf declarations ∧ t.HasFolderOf definitions
  case neg =>
    obtain ⟨failure, hwrite⟩ := a.onTree_write_of_missing hfolders
    exact .inl (congrArg Prod.snd (h.symm.trans hwrite))
  rw [a.onTree_write hfolders.1 hfolders.2] at h
  rcases hfirst : t.locateOutput declarations with fault | l
  · rw [hfirst] at h
    cases h
    exact .inl rfl
  · rw [hfirst] at h
    dsimp only at h
    have hfolder := (FileTree.locateOutput_eq_ok.mp hfirst).2.2
    rcases hsecond : (t.put l (.file a.declarations.toUTF8)).locateOutput definitions
      with fault | target
    · rw [hsecond] at h
      cases h
      refine .inr ⟨l, ⟨hfolders.1, hfolders.2, hfirst, fun target htarget => ?_⟩, rfl⟩
      rw [(FileTree.locateOutput_put hfolder _ _ _).mpr htarget] at hsecond
      cases hsecond
    · rw [hsecond] at h
      cases h

end Artifacts

namespace Settings

section
variable [TemplateEngine] {α : Type} [Numeral α]

theorem onTree_run (s : Settings) (dryRun : Bool) (t : FileTree) :
    onTree (s.run α dryRun) t =
      match (onTree (s.build α) t).1 with
      | .error cause => (.error cause, t)
      | .ok (report, a) =>
        if dryRun then (.ok ⟨report, a, []⟩, t)
        else
          match onTree (a.write s.declarations s.definitions) t with
          | (.ok (), written) => (.ok ⟨report, a, [s.declarations, s.definitions]⟩, written)
          | (.error cause, written) => (.error cause, written) := by
  rw [run, onTree_bind, (Reads.build α s).eq t]
  rcases (onTree (s.build α) t).1 with cause | ⟨report, a⟩
  · rfl
  · cases dryRun with
    | true => rfl
    | false =>
      dsimp only
      rw [if_neg (by decide), onTree_bind, if_neg (by decide)]
      rcases onTree (a.write s.declarations s.definitions) t with ⟨_ | _, _⟩ <;> rfl

/-- A run that fails leaves every file as it was, unless its artifacts are ready and only the header
has a place to go to. Then the header is written and the run fails at the source file. -/
theorem run_failed (s : Settings) (t : FileTree) :
    (∀ dryRun cause t', onTree (s.run α dryRun) t = (.error cause, t') →
      t' = t ∨ dryRun = false ∧ ∃ report a l, (onTree (s.build α) t).1 = .ok (report, a) ∧
        t.TakesOnlyFirst s.declarations s.definitions l ∧
        t' = t.put l (.file a.declarations.toUTF8)) ∧
    ∀ report a l, (onTree (s.build α) t).1 = .ok (report, a) →
      t.TakesOnlyFirst s.declarations s.definitions l →
      ∃ fault, onTree (s.run α false) t =
        (.error (.file s.definitions fault), t.put l (.file a.declarations.toUTF8)) := by
  refine ⟨fun dryRun cause t' h => ?_, fun report a l hbuild h => ?_⟩
  · rw [onTree_run] at h
    rcases hbuild : (onTree (s.build α) t).1 with failure | ⟨report, a⟩
    · rw [hbuild] at h
      cases h
      exact .inl rfl
    · rw [hbuild] at h
      cases dryRun with
      | true => cases h
      | false =>
        dsimp only at h
        rw [if_neg (by decide)] at h
        rcases hwrite : onTree (a.write s.declarations s.definitions) t with ⟨failure | _, written⟩
        · rw [hwrite] at h
          cases h
          obtain rfl | ⟨l, hl, rfl⟩ := a.write_failed hwrite
          · exact .inl rfl
          · exact .inr ⟨rfl, report, a, l, rfl, hl, rfl⟩
        · rw [hwrite] at h
          cases h
  · obtain ⟨fault, hwrite⟩ := a.write_of_takesOnlyFirst h
    refine ⟨fault, ?_⟩
    rw [onTree_run, hbuild]
    dsimp only
    rw [if_neg (by decide), hwrite]

end

/-- A folder at the path of the source file does not keep the header from being written. Where the
input is missing, nothing is written. -/
theorem run_failed_folder :
    (∃ cause, onTree (({} : Settings).run Float false) {} = (.error cause, {})) ∧
      ∃ t t' cause header, onTree (({} : Settings).run Float false) t = (.error cause, t') ∧
        t.find? ["work", "SolverFunctions.h"] = none ∧
        t'.find? ["work", "SolverFunctions.h"] = some (.file header) := by
  constructor
  · obtain ⟨cause, hmissing⟩ : ∃ cause,
        (onTree (({} : Settings).run Float false) {}).1 = .error cause := ⟨_, rfl⟩
    refine ⟨cause, Prod.ext hmissing ?_⟩
    obtain hsame | ⟨-, report, a, l, hbuild, -, -⟩ :=
      (run_failed {} {}).1 false cause _ (Prod.ext hmissing rfl)
    · exact hsame
    · cases hbuild
  · let t : FileTree := {
      entries := [(["work", "solver_functions.txt"], .file "f(a) = a\n".toUTF8),
        (["work", "SolverFunctions.cpp"], .folder)] }
    have hbuilt : (onTree (({} : Settings).build Float) t).1.isOk = true := by decide +kernel
    have hparent {path : String} (h : Path.parent? path = some "") : t.HasFolderOf path := by
      intro folder hfolder hne
      exact absurd (Option.some.inj (hfolder.symm.trans h)) hne
    have hpaths : t.TakesOnlyFirst "SolverFunctions.h" "SolverFunctions.cpp"
        ["work", "SolverFunctions.h"] := by
      refine ⟨hparent (by decide), hparent (by decide), ?_, fun target htarget => ?_⟩
      · exact FileTree.locateOutput_eq_ok.mpr ⟨by decide +kernel, rfl, rfl⟩
      · obtain ⟨-, hlocate, hfolder⟩ := FileTree.locateOutput_eq_ok.mp htarget
        cases hlocate
        cases hfolder
    rcases hbuild : (onTree (({} : Settings).build Float) t).1 with cause | ⟨report, a⟩
    · rw [hbuild] at hbuilt
      cases hbuilt
    · obtain ⟨fault, hrun⟩ := (run_failed {} t).2 report a _ hbuild hpaths
      exact ⟨t, _, _, _, hrun, rfl, FileTree.find?_put_self _ _ rfl⟩

end Settings

end EquationCompiler
