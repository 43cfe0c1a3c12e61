import Codex.Base.Forall
import Codex.ApplyPatch.Parser
import Codex.ApplyPatch.TextFiles

/-!
# Which paths a patch touches, and which are checked

Verification collects one change for each path: a later hunk on a path replaces
the earlier one, together with its move destination. Application runs every
hunk. `logged` records the paths that are written or removed, and
`touched_checked_iff` says exactly when all of them are among the paths the
safety check looks at.
-/

namespace Codex.ApplyPatch

open Codex.Text

variable {Path σ : Type}

namespace ExecutorFileSystem

/-- The file system with a record of the paths that are written or removed. -/
def logged (fs : ExecutorFileSystem Path σ) : ExecutorFileSystem Path (σ × List Path) where
  join := fs.join
  parent := fs.parent
  nativePath := fs.nativePath
  readFileText path s := ((fs.readFileText path s.1).1, (fs.readFileText path s.1).2, s.2)
  getMetadata path s := ((fs.getMetadata path s.1).1, (fs.getMetadata path s.1).2, s.2)
  writeFile path c s :=
    ((fs.writeFile path c s.1).1, (fs.writeFile path c s.1).2, s.2 ++ [path])
  remove path s := ((fs.remove path s.1).1, (fs.remove path s.1).2, s.2 ++ [path])
  createDirectory path s :=
    ((fs.createDirectory path s.1).1, (fs.createDirectory path s.1).2, s.2)

variable (fs : ExecutorFileSystem Path σ)

/-- The view of the record. -/
def loggedPaths : Abstraction fs.logged (List Path) where
  view := Prod.snd
  Reads _ _ _ := True
  write log path _ := log ++ [path]
  failedWrite log path _ := log ++ [path]
  remove log path := log ++ [path]
  readFileText_view h := by cases h; rfl
  readFileText_reads _ := trivial
  getMetadata_view h := by cases h; rfl
  createDirectory_view h := by cases h; rfl
  writeFile_view h := by
    obtain ⟨-, rfl⟩ := Prod.mk.inj h
    rfl
  writeFile_notFound h _ := by
    obtain ⟨-, rfl⟩ := Prod.mk.inj h
    rfl
  remove_view h := by
    obtain ⟨-, rfl⟩ := Prod.mk.inj h
    rfl

/-- The view that sees nothing. -/
def unseen : Abstraction fs Unit where
  view _ := ()
  Reads _ _ _ := True
  write _ _ _ := ()
  failedWrite _ _ _ := ()
  remove _ _ := ()
  readFileText_view _ := rfl
  readFileText_reads _ := trivial
  getMetadata_view _ := rfl
  createDirectory_view _ := rfl
  writeFile_view _ := rfl
  writeFile_notFound _ _ := rfl
  remove_view _ := rfl

/-- The resolved move destination of a hunk. -/
def moveDest (cwd : Path) (hunk : Hunk) : Option Path :=
  hunk.movePath.bind fun dest => (fs.join cwd dest).toOption

/-- Every move destination is the path of a hunk, or the destination of a hunk that no later hunk
on the same path replaces. -/
def MovesCovered (cwd : Path) (hunks : List Hunk) : Prop :=
  ∀ hunk ∈ hunks, ∀ dest, fs.moveDest cwd hunk = some dest →
    (∃ h ∈ hunks, fs.resolvePath cwd h = .ok dest) ∨
    ∃ pre h post, hunks = pre ++ h :: post ∧ fs.moveDest cwd h = some dest ∧
      ∀ g ∈ post, fs.resolvePath cwd g ≠ fs.resolvePath cwd h

end ExecutorFileSystem

variable {fs : ExecutorFileSystem Path σ} {cwd : Path}

/-! ## Application -/

theorem hunkEffect_log {hunk : Hunk} {log log' : List Path}
    (h : fs.loggedPaths.HunkEffect cwd hunk log log') (path : Path) :
    path ∈ log' ↔ path ∈ log ∨ fs.resolvePath cwd hunk = .ok path ∨
      fs.moveDest cwd hunk = some path := by
  have hwritten : ∀ {log log' : List Path} {target : Path} {c : Str},
      fs.loggedPaths.Written log target c log' →
        ∀ path, path ∈ log' ↔ path ∈ log ∨ target = path := by
    rintro log log' target c (rfl | rfl) path
    · simp [ExecutorFileSystem.loggedPaths, eq_comm]
    · simp [ExecutorFileSystem.loggedPaths, eq_comm]
  cases h with
  | add hp hw =>
    have hp : fs.join cwd _ = _ := hp
    rw [hwritten hw]
    simp [ExecutorFileSystem.resolvePath, ExecutorFileSystem.moveDest, Hunk.sourcePath,
      Hunk.movePath, hp]
  | delete hp | rewrite hp hr hn =>
    have hp : fs.join cwd _ = _ := hp
    simp [ExecutorFileSystem.resolvePath, ExecutorFileSystem.moveDest, Hunk.sourcePath,
      Hunk.movePath, hp, ExecutorFileSystem.loggedPaths, eq_comm]
  | move hp hd hr hn hw =>
    have hp : fs.join cwd _ = _ := hp
    have hd : fs.join cwd _ = _ := hd
    have hrem : ∀ (l : List Path) q, path ∈ fs.loggedPaths.remove l q ↔ path ∈ l ∨ q = path := by
      simp [ExecutorFileSystem.loggedPaths, eq_comm]
    rw [hrem, hwritten hw]
    simp [ExecutorFileSystem.resolvePath, ExecutorFileSystem.moveDest, Hunk.sourcePath,
      Hunk.movePath, hp, hd, Except.toOption, or_assoc, or_comm]

/-- The paths a patch touches are those of its hunks and their move destinations. -/
theorem effects_log {hunks : List Hunk} {log log' : List Path}
    (h : fs.loggedPaths.Effects cwd hunks log log') (path : Path) :
    path ∈ log' ↔ path ∈ log ∨ ∃ hunk ∈ hunks, fs.resolvePath cwd hunk = .ok path ∨
      fs.moveDest cwd hunk = some path := by
  induction h with
  | nil => simp
  | cons hhunk _ ih =>
    rw [ih, hunkEffect_log hhunk, or_assoc]
    simp

/-! ## Verification -/

def ApplyPatchFileChange.movePath : ApplyPatchFileChange Path → Option Path
  | .update _ movePath _ => movePath
  | _ => none

theorem HunkVerified.paths {β : Type} {A : Abstraction fs β} {b : β} {hunk : Hunk} {path : Path}
    {change : ApplyPatchFileChange Path} (h : A.HunkVerified cwd b hunk (path, change)) :
    fs.resolvePath cwd hunk = .ok path ∧ fs.moveDest cwd hunk = change.movePath := by
  cases h with
  | add hp | delete hp _ | rewrite hp _ _ => exact ⟨hp, rfl⟩
  | move hp hd _ _ =>
    refine ⟨hp, ?_⟩
    rw [ExecutorFileSystem.moveDest, Hunk.movePath, Option.bind_some, hd]
    rfl

variable [DecidableEq Path]

/-- The checked paths are the paths of all hunks and the destinations of the hunks that are the
last on their path. -/
theorem mem_checkedPaths_iff {β : Type} {A : Abstraction fs β} {b : β} {hunks : List Hunk}
    {changes : List (Path × ApplyPatchFileChange Path)} {action : ApplyPatchAction Path}
    (hv : List.Forall₂ (A.HunkVerified cwd b) hunks changes)
    (hc : action.changes = insertAll changes) (path : Path) :
    path ∈ action.checkedPaths ↔
      (∃ h ∈ hunks, fs.resolvePath cwd h = .ok path) ∨
      ∃ pre h post, hunks = pre ++ h :: post ∧ fs.moveDest cwd h = some path ∧
        ∀ g ∈ post, fs.resolvePath cwd g ≠ fs.resolvePath cwd h := by
  rw [mem_checkedPaths, hc, mem_insertAll]
  refine or_congr ?_ ?_
  · constructor
    · rintro ⟨change, hmem⟩
      obtain ⟨h, hh, hver⟩ := forall₂_mem_right hv hmem
      exact ⟨h, hh, (HunkVerified.paths hver).1⟩
    · rintro ⟨h, hh, hp⟩
      obtain ⟨⟨key, change⟩, hmem, hver⟩ := forall₂_mem_left hv hh
      have hkey := (HunkVerified.paths hver).1
      rw [hp] at hkey
      cases hkey
      exact ⟨change, hmem⟩
  · simp only [lookup_insertAll]
    constructor
    · rintro ⟨key, diff, content, pre', post', heq, hlast⟩
      obtain ⟨pre, h, post, rfl, -, hver, hpost⟩ := forall₂_split_right hv heq
      obtain ⟨hkey, hdest⟩ := HunkVerified.paths hver
      refine ⟨pre, h, post, rfl, hdest, fun g hg hsame => ?_⟩
      obtain ⟨⟨key', change'⟩, hmem, hver'⟩ := forall₂_mem_left hpost hg
      have hkey' := (HunkVerified.paths hver').1
      rw [hsame, hkey] at hkey'
      cases hkey'
      exact hlast _ hmem rfl
    · rintro ⟨pre, h, post, heq, hdest, hlast⟩
      obtain ⟨pre', ⟨key, change⟩, post', rfl, -, hver, hpost⟩ := forall₂_split_left hv heq
      obtain ⟨hkey, hmove⟩ := HunkVerified.paths hver
      rw [hdest] at hmove
      cases change with
      | add content => cases hmove
      | delete content => cases hmove
      | update diff movePath content =>
        obtain rfl : movePath = some path := hmove.symm
        refine ⟨key, diff, content, pre', post', rfl, fun kv hkv hsame => ?_⟩
        obtain ⟨g, hg, hver'⟩ := forall₂_mem_right hpost hkv
        have hkey' := (HunkVerified.paths hver').1
        rw [hsame, ← hkey] at hkey'
        exact hlast g hg hkey'

/-- **Every path the application writes or removes is checked exactly when every move destination
is the path of a hunk or belongs to the last hunk on its path.** -/
theorem touched_checked_iff {unifiedDiff : ExecutorFileSystem.UnifiedDiff} {args : ApplyPatchArgs}
    {dir : Path} {action : ApplyPatchAction Path} {s s' : σ} {affected : AffectedPaths}
    {st : ApplyState (σ × List Path)} (hdir : fs.effectiveCwd cwd args.workdir = .ok dir)
    (hv : Returns (fs.tryVerifyApplyPatchArgs unifiedDiff args cwd) s action s')
    (ha : Returns (fs.logged.applyHunksToFiles args.hunks dir) { fs := (s, []) } affected st) :
    (∀ path ∈ st.fs.2, path ∈ action.checkedPaths) ↔ fs.MovesCovered dir args.hunks := by
  obtain ⟨hcwd, changes, hver, hchanges⟩ := fs.unseen.tryVerify_verified hv
  rw [hdir] at hcwd
  cases hcwd
  have hlog := effects_log (fs.loggedPaths.applyHunksToFiles_effect ha)
  have hchecked := mem_checkedPaths_iff hver hchanges
  constructor
  · intro h hunk hhunk dest hdest
    exact (hchecked dest).1 (h dest ((hlog dest).2 (.inr ⟨hunk, hhunk, .inr hdest⟩)))
  · intro h path hpath
    rcases (hlog path).1 hpath with hnil | ⟨hunk, hhunk, hsrc | hdest⟩
    · cases hnil
    · exact (hchecked path).2 (.inl ⟨hunk, hhunk, hsrc⟩)
    · exact (hchecked path).2 (h hunk hhunk path hdest)

/-! ## A move that a later hunk hides -/

/-- Renames `a` to `b` and adds a new `a`. -/
def hiddenMovePatch : Str :=
  "*** Begin Patch\n*** Update File: a\n*** Move to: b\n@@\n-x\n+y\n*** Add File: a\n+z\n*** End Patch".toList

def hiddenMoveArgs : ApplyPatchArgs where
  patch := hiddenMovePatch
  hunks := [.updateFile ['a'] (some ['b']) [⟨none, [['x']], [['y']], false⟩],
            .addFile ['a'] ['z', '\n']]
  workdir := none
  environmentId := none

def workDir : Str := "/w".toList

/-- One file, `/w/a`. -/
def oneFile : List (Str × Str) := [("/w/a".toList, "x\n".toList)]

def noDiff : ExecutorFileSystem.UnifiedDiff := fun _ _ _ => []

/-- `/w/b` is written, but only `/w/a` is checked. -/
theorem hidden_move_unchecked :
    parsePatch hiddenMovePatch = .ok hiddenMoveArgs ∧
    ∃ action s' affected st,
      Returns (memoryFs.tryVerifyApplyPatchArgs noDiff hiddenMoveArgs workDir) oneFile action s' ∧
      Returns (memoryFs.logged.applyHunksToFiles hiddenMoveArgs.hunks workDir)
        { fs := (oneFile, []) } affected st ∧
      ¬ ∀ path ∈ st.fs.2, path ∈ action.checkedPaths := by
  refine ⟨by decide +kernel, ?_⟩
  have hv : returnsWith (memoryFs.tryVerifyApplyPatchArgs noDiff hiddenMoveArgs workDir) oneFile
      (fun action _ => decide ("/w/b".toList ∉ action.checkedPaths)) = true := by decide +kernel
  have ha : returnsWith (memoryFs.logged.applyHunksToFiles hiddenMoveArgs.hunks workDir)
      { fs := (oneFile, []) } (fun _ st => decide ("/w/b".toList ∈ st.fs.2)) = true := by
    decide +kernel
  obtain ⟨action, s', hv, hunchecked⟩ := exists_returns _ hv
  obtain ⟨affected, st, ha, htouched⟩ := exists_returns _ ha
  exact ⟨action, s', affected, st, hv, ha, fun h =>
    of_decide_eq_true hunchecked (h _ (of_decide_eq_true htouched))⟩

/-- A rename and a new file, on different paths. -/
def plainMoveArgs : ApplyPatchArgs where
  patch := []
  hunks := [.updateFile ['a'] (some ['b']) [⟨none, [['x']], [['y']], false⟩],
            .addFile ['c'] ['z', '\n']]
  workdir := none
  environmentId := none

theorem exists_verified_plainMove :
    ∃ action s', Returns (memoryFs.tryVerifyApplyPatchArgs noDiff plainMoveArgs workDir) oneFile
      action s' := by
  obtain ⟨action, s', hv, -⟩ := exists_returns (fun _ _ => true)
    (show returnsWith (memoryFs.tryVerifyApplyPatchArgs noDiff plainMoveArgs workDir) oneFile _ =
      true by decide +kernel)
  exact ⟨action, s', hv⟩

theorem touched_checked_plainMove :
    ∃ action s' affected st,
      Returns (memoryFs.tryVerifyApplyPatchArgs noDiff plainMoveArgs workDir) oneFile action s' ∧
      Returns (memoryFs.logged.applyHunksToFiles plainMoveArgs.hunks workDir)
        { fs := (oneFile, []) } affected st ∧
      ∀ path ∈ st.fs.2, path ∈ action.checkedPaths := by
  obtain ⟨action, s', hv⟩ := exists_verified_plainMove
  obtain ⟨affected, st, ha, -⟩ := exists_returns (fun _ _ => true)
    (show returnsWith (memoryFs.logged.applyHunksToFiles plainMoveArgs.hunks workDir)
      { fs := (oneFile, []) } _ = true by decide +kernel)
  refine ⟨action, s', affected, st, hv, ha, (touched_checked_iff rfl hv ha).2 ?_⟩
  intro hunk hhunk dest hdest
  rcases List.mem_cons.1 hhunk with rfl | hhunk
  · refine .inr ⟨[], _, _, rfl, hdest, fun g hg => ?_⟩
    rw [List.mem_singleton.1 hg]
    decide +kernel
  · rw [List.mem_singleton.1 hhunk] at hdest
    cases hdest

end Codex.ApplyPatch
