import Codex.ApplyPatch.Apply

/-!
# What applying a hunk does

`Abstraction` is a view of a file system's state with the effect of each
operation on it. For every view, a hunk that is applied successfully has the
effect `HunkEffect` of its kind, whatever happens to the delta. The loop over
the hunks is then a chain of effects (`applyEach_effect`).
-/

namespace Codex.ApplyPatch

open Codex.Text

variable {Path σ α β : Type}

/-- A view of the state of `fs`: what successful reads see, what writes and removals do to it, and
what a write that fails because of a missing parent does to it. -/
structure Abstraction (fs : ExecutorFileSystem Path σ) (β : Type) where
  view : σ → β
  Reads : β → Path → Str → Prop
  write : β → Path → Str → β
  failedWrite : β → Path → Str → β
  remove : β → Path → β
  readFileText_view : ∀ {path s r s'}, fs.readFileText path s = (r, s') → view s' = view s
  readFileText_reads : ∀ {path s c s'}, fs.readFileText path s = (.ok c, s') →
    Reads (view s) path c
  getMetadata_view : ∀ {path s r s'}, fs.getMetadata path s = (r, s') → view s' = view s
  createDirectory_view : ∀ {path s r s'}, fs.createDirectory path s = (r, s') → view s' = view s
  writeFile_view : ∀ {path c s s'}, fs.writeFile path c s = (.ok (), s') →
    view s' = write (view s) path c
  writeFile_notFound : ∀ {path c s e s'}, fs.writeFile path c s = (.error e, s') →
    e.kind = .notFound → view s' = failedWrite (view s) path c
  remove_view : ∀ {path s s'}, fs.remove path s = (.ok (), s') → view s' = remove (view s) path

/-! ## Steps on the state -/

variable {a : α} {u : Unit}

theorem returns_fileOp {op : σ → α × σ} {st st' : ApplyState σ} :
    Returns (fileOp op) st a st' ↔ op st.fs = (a, st'.fs) ∧ st'.delta = st.delta := by
  obtain ⟨s, delta⟩ := st
  obtain ⟨s', delta'⟩ := st'
  show EStateM.Result.ok (op s).1 (⟨(op s).2, delta⟩ : ApplyState σ) = .ok a ⟨s', delta'⟩ ↔ _
  simp only [EStateM.Result.ok.injEq, ApplyState.mk.injEq, Prod.ext_iff]
  exact ⟨fun ⟨h1, h2, h3⟩ => ⟨⟨h1, h2⟩, h3.symm⟩, fun ⟨⟨h1, h2⟩, h3⟩ => ⟨h1, h2, h3.symm⟩⟩

theorem returns_liftFs {ε : Type} {wrap : ε → ApplyError} {x : EStateM ε σ α}
    {st st' : ApplyState σ} (h : Returns (liftFs wrap x) st a st') : Returns x st.fs a st'.fs := by
  unfold Returns liftFs at h
  unfold Returns
  split at h
  · next hx =>
    cases h
    exact hx
  · cases h

theorem returns_andExact {ok : Bool} {st st' : ApplyState σ} (h : Returns (andExact ok) st u st') :
    st'.fs = st.fs := by
  rw [andExact, returns_modify] at h
  rw [h]

theorem returns_pushChange {change : AppliedPatchChange} {st st' : ApplyState σ}
    (h : Returns (pushChange change) st u st') : st'.fs = st.fs := by
  rw [pushChange, returns_modify] at h
  rw [h]

theorem returns_setChange {index : Nat} {change : AppliedPatchChange} {st st' : ApplyState σ}
    (h : Returns (setChange index change) st u st') : st'.fs = st.fs := by
  rw [setChange, returns_modify] at h
  rw [h]

theorem returns_tryWrite {result : Except ApplyError α} {st st' : ApplyState σ}
    (h : Returns (ExecutorFileSystem.tryWrite result) st a st') :
    result = .ok a ∧ st'.fs = st.fs := by
  cases result with
  | ok value =>
    obtain ⟨rfl, rfl⟩ := returns_pure.1 h
    exact ⟨rfl, rfl⟩
  | error e =>
    obtain ⟨_, _, _, h⟩ := returns_bind.1 h
    exact (returns_throw.1 h).elim

namespace Abstraction

variable {fs : ExecutorFileSystem Path σ} (A : Abstraction fs β) {path : Path}
  {st st' : ApplyState σ}

/-! ## Helpers of the loop -/

theorem ensureNotDirectory_view {r : Except IoError Unit}
    (h : Returns (fs.ensureNotDirectory path) st r st') : A.view st'.fs = A.view st.fs := by
  obtain ⟨m, st₁, hm, h⟩ := returns_bind.1 h
  have hview := A.getMetadata_view (returns_fileOp.1 hm).1
  cases m with
  | error e =>
    obtain ⟨-, rfl⟩ := returns_pure.1 h
    exact hview
  | ok metadata =>
    dsimp only at h
    split at h
    · obtain ⟨-, rfl⟩ := returns_pure.1 h
      exact hview
    · obtain ⟨-, rfl⟩ := returns_pure.1 h
      exact hview

variable {u : Unit} {cwd : Path} {affected : AffectedPaths}

theorem noteExistingPathDeltaSupport_view
    (h : Returns (fs.noteExistingPathDeltaSupport path) st u st') :
    A.view st'.fs = A.view st.fs := by
  obtain ⟨m, st₁, hm, h⟩ := returns_bind.1 h
  have hview := A.getMetadata_view (returns_fileOp.1 hm).1
  cases m with
  | error e | ok metadata => rw [returns_andExact h, hview]

theorem readOptionalFileTextForDelta_view {o : Option Str}
    (h : Returns (fs.readOptionalFileTextForDelta path) st o st') :
    A.view st'.fs = A.view st.fs := by
  obtain ⟨_, st₁, hnote, h⟩ := returns_bind.1 h
  obtain ⟨r, st₂, hr, h⟩ := returns_bind.1 h
  have hview := A.readFileText_view (returns_fileOp.1 hr).1
  have hnote' := A.noteExistingPathDeltaSupport_view hnote
  cases r with
  | ok content =>
    obtain ⟨-, rfl⟩ := returns_pure.1 h
    rw [hview, hnote']
  | error e =>
    obtain ⟨_, st₃, he, h⟩ := returns_bind.1 h
    obtain ⟨-, rfl⟩ := returns_pure.1 h
    rw [returns_andExact he, hview, hnote']

theorem createParent_view {r : Except IoError Unit} (h : Returns (fs.createParent path) st r st') :
    A.view st'.fs = A.view st.fs := by
  unfold ExecutorFileSystem.createParent at h
  split at h
  · exact A.createDirectory_view (returns_fileOp.1 h).1
  · obtain ⟨-, rfl⟩ := returns_pure.1 h
    rfl

/-- A file written, possibly in a second attempt. -/
def Written (b : β) (path : Path) (c : Str) (b' : β) : Prop :=
  b' = A.write b path c ∨ b' = A.write (A.failedWrite b path c) path c

theorem writeFileWithMissingParentRetry_view {c : Str}
    (h : Returns (fs.writeFileWithMissingParentRetry path c) st (.ok ()) st') :
    A.Written (A.view st.fs) path c (A.view st'.fs) := by
  obtain ⟨r, st₁, hr, h⟩ := returns_bind.1 h
  obtain ⟨hr, -⟩ := returns_fileOp.1 hr
  cases r with
  | ok u =>
    obtain ⟨-, rfl⟩ := returns_pure.1 h
    exact .inl (A.writeFile_view hr)
  | error e =>
    dsimp only at h
    split at h
    · next hk =>
      obtain ⟨created, st₂, hc, h⟩ := returns_bind.1 h
      have hview := A.createParent_view hc
      cases created with
      | error e' =>
        obtain ⟨he, -⟩ := returns_pure.1 h
        cases he
      | ok u =>
        obtain ⟨r₂, st₃, hr₂, h⟩ := returns_bind.1 h
        obtain ⟨hr₂, -⟩ := returns_fileOp.1 hr₂
        cases r₂ with
        | error e' =>
          obtain ⟨he, -⟩ := returns_pure.1 h
          cases he
        | ok u' =>
          obtain ⟨-, rfl⟩ := returns_pure.1 h
          right
          rw [A.writeFile_view hr₂, hview, A.writeFile_notFound hr hk]
    · obtain ⟨he, -⟩ := returns_pure.1 h
      cases he

theorem removeFile_view {context : String} {expected : Option Str}
    (h : Returns (fs.removeFile path context expected) st u st') :
    A.view st'.fs = A.remove (A.view st.fs) path := by
  obtain ⟨r, st₁, hr, h⟩ := returns_bind.1 h
  have hview := A.ensureNotDirectory_view hr
  cases r with
  | error e => exact (returns_throw.1 h).elim
  | ok _ =>
    obtain ⟨r₂, st₂, hr₂, h⟩ := returns_bind.1 h
    obtain ⟨hr₂, -⟩ := returns_fileOp.1 hr₂
    cases r₂ with
    | ok _ =>
      obtain ⟨-, rfl⟩ := returns_pure.1 h
      rw [← hview]
      exact A.remove_view hr₂
    | error e =>
      obtain ⟨_, _, _, h⟩ := returns_bind.1 h
      obtain ⟨_, _, _, h⟩ := returns_bind.1 h
      exact (returns_throw.1 h).elim

/-! ## Hunks -/

/-- The effect of a hunk that was applied successfully. -/
inductive HunkEffect (cwd : Path) : Hunk → β → β → Prop where
  | add {b b' : β} {path : Path} {p contents : Str} (hp : fs.join cwd p = .ok path)
      (hw : A.Written b path contents b') : HunkEffect cwd (.addFile p contents) b b'
  | delete {b : β} {path : Path} {p : Str} (hp : fs.join cwd p = .ok path) :
      HunkEffect cwd (.deleteFile p) b (A.remove b path)
  | rewrite {b : β} {path : Path} {p old new : Str} {chunks : List UpdateFileChunk}
      (hp : fs.join cwd p = .ok path) (hr : A.Reads b path old)
      (hn : newContents old chunks = .ok new) :
      HunkEffect cwd (.updateFile p none chunks) b (A.write b path new)
  | move {b b' : β} {path dest : Path} {p d old new : Str} {chunks : List UpdateFileChunk}
      (hp : fs.join cwd p = .ok path) (hd : fs.join cwd d = .ok dest) (hr : A.Reads b path old)
      (hn : newContents old chunks = .ok new) (hw : A.Written b dest new b') :
      HunkEffect cwd (.updateFile p (some d) chunks) b (A.remove b' path)

theorem applyAdd_view {c : Str} (h : Returns (fs.applyAdd path c) st u st') :
    A.Written (A.view st.fs) path c (A.view st'.fs) := by
  obtain ⟨o, st₁, ho, h⟩ := returns_bind.1 h
  obtain ⟨r, st₂, hr, h⟩ := returns_bind.1 h
  obtain ⟨_, st₃, ht, h⟩ := returns_bind.1 h
  obtain ⟨hok, hfs⟩ := returns_tryWrite ht
  rw [hok] at hr
  rw [returns_pushChange h, hfs, ← A.readOptionalFileTextForDelta_view ho]
  exact A.writeFileWithMissingParentRetry_view hr

theorem applyDelete_view (h : Returns (fs.applyDelete path) st u st') :
    A.view st'.fs = A.remove (A.view st.fs) path := by
  obtain ⟨_, st₁, hnote, h⟩ := returns_bind.1 h
  obtain ⟨r, st₂, hr, h⟩ := returns_bind.1 h
  obtain ⟨_, st₃, he, h⟩ := returns_bind.1 h
  obtain ⟨_, st₄, hrem, h⟩ := returns_bind.1 h
  have hview : A.view st₃.fs = A.view st.fs := by
    rw [returns_andExact he, A.readFileText_view (returns_fileOp.1 hr).1,
      A.noteExistingPathDeltaSupport_view hnote]
  have hfs : st'.fs = st₄.fs := by
    split at h
    · exact returns_pushChange h
    · obtain ⟨-, rfl⟩ := returns_pure.1 h
      rfl
  rw [hfs, A.removeFile_view hrem, hview]

theorem applyMove_view {dest : Path} {patch : AppliedPatch}
    (h : Returns (fs.applyMove path dest patch) st u st') :
    ∃ b, A.Written (A.view st.fs) dest patch.newContents b ∧
      A.view st'.fs = A.remove b path := by
  obtain ⟨o, st₁, ho, h⟩ := returns_bind.1 h
  obtain ⟨r, st₂, hr, h⟩ := returns_bind.1 h
  obtain ⟨_, st₃, ht, h⟩ := returns_bind.1 h
  obtain ⟨hok, hfs⟩ := returns_tryWrite ht
  rw [hok] at hr
  obtain ⟨_, st₄, hget, h⟩ := returns_bind.1 h
  obtain ⟨-, rfl⟩ := returns_get.1 hget
  obtain ⟨_, st₅, hpush, h⟩ := returns_bind.1 h
  obtain ⟨_, st₆, hrem, h⟩ := returns_bind.1 h
  refine ⟨A.view st₂.fs, ?_, ?_⟩
  · rw [← A.readOptionalFileTextForDelta_view ho]
    exact A.writeFileWithMissingParentRetry_view hr
  · rw [returns_setChange h, A.removeFile_view hrem, returns_pushChange hpush, hfs]

theorem applyRewrite_view {patch : AppliedPatch}
    (h : Returns (fs.applyRewrite path patch) st u st') :
    A.view st'.fs = A.write (A.view st.fs) path patch.newContents := by
  obtain ⟨r, st₁, hr, h⟩ := returns_bind.1 h
  obtain ⟨hr, -⟩ := returns_fileOp.1 hr
  cases r with
  | ok _ => rw [returns_pushChange h, A.writeFile_view hr]
  | error e =>
    obtain ⟨he, -⟩ := returns_tryWrite h
    cases he

theorem applyUpdate_view {p : Str} {movePath : Option Str}
    {chunks : List UpdateFileChunk} (hp : fs.join cwd p = .ok path)
    (h : Returns (fs.applyUpdate cwd path movePath chunks) st u st') :
    A.HunkEffect cwd (.updateFile p movePath chunks) (A.view st.fs) (A.view st'.fs) := by
  obtain ⟨_, st₁, hnote, h⟩ := returns_bind.1 h
  obtain ⟨patch, st₂, hpatch, h⟩ := returns_bind.1 h
  obtain ⟨hread, hnew⟩ := returns_derive.1 (returns_liftFs hpatch)
  have hview := A.noteExistingPathDeltaSupport_view hnote
  have hreads := A.readFileText_reads hread
  have hview₂ := A.readFileText_view hread
  rw [hview] at hreads hview₂
  cases movePath with
  | none =>
    rw [A.applyRewrite_view h, hview₂]
    exact .rewrite hp hreads hnew
  | some d =>
    obtain ⟨dest, st₃, hdest, h⟩ := returns_bind.1 h
    obtain ⟨hd, hfs⟩ := returns_ofExcept.1 (returns_liftFs hdest)
    obtain ⟨b, hw, hrem⟩ := A.applyMove_view h
    rw [hfs, hview₂] at hw
    rw [hrem]
    exact .move hp hd hreads hnew hw

/-- **A hunk that is applied has the effect of its kind.** -/
theorem applyHunk_effect {hunk : Hunk} {affected' : AffectedPaths}
    (h : Returns (fs.applyHunk cwd hunk affected) st affected' st') :
    A.HunkEffect cwd hunk (A.view st.fs) (A.view st'.fs) := by
  obtain ⟨path, st₁, hpath, h⟩ := returns_bind.1 h
  obtain ⟨hp, hfs⟩ := returns_ofExcept.1 (returns_liftFs hpath)
  rw [← hfs]
  cases hunk with
  | addFile p contents =>
    obtain ⟨_, st₂, hadd, h⟩ := returns_bind.1 h
    obtain ⟨-, rfl⟩ := returns_pure.1 h
    exact .add hp (A.applyAdd_view hadd)
  | deleteFile p =>
    obtain ⟨_, st₂, hdel, h⟩ := returns_bind.1 h
    obtain ⟨-, rfl⟩ := returns_pure.1 h
    rw [A.applyDelete_view hdel]
    exact .delete hp
  | updateFile p movePath chunks =>
    obtain ⟨_, st₂, hupd, h⟩ := returns_bind.1 h
    obtain ⟨-, rfl⟩ := returns_pure.1 h
    exact A.applyUpdate_view hp hupd

/-- The effects of a list of hunks, one after the other. -/
inductive Effects (cwd : Path) : List Hunk → β → β → Prop where
  | nil (b : β) : Effects cwd [] b b
  | cons {hunk : Hunk} {hunks : List Hunk} {b b' b'' : β} (h : A.HunkEffect cwd hunk b b')
      (hs : Effects cwd hunks b' b'') : Effects cwd (hunk :: hunks) b b''

/-- **A successful run of the loop is a chain of hunk effects.** -/
theorem applyEach_effect {hunks : List Hunk} {affected' : AffectedPaths}
    (h : Returns (fs.applyEach cwd hunks affected) st affected' st') :
    A.Effects cwd hunks (A.view st.fs) (A.view st'.fs) := by
  induction hunks generalizing affected st with
  | nil =>
    obtain ⟨-, rfl⟩ := returns_pure.1 h
    exact .nil _
  | cons hunk hunks ih =>
    obtain ⟨_, st₁, hhunk, h⟩ := returns_bind.1 h
    exact .cons (A.applyHunk_effect hhunk) (ih h)

theorem applyHunksToFiles_effect {hunks : List Hunk}
    (h : Returns (fs.applyHunksToFiles hunks cwd) st affected st') :
    A.Effects cwd hunks (A.view st.fs) (A.view st'.fs) := by
  unfold ExecutorFileSystem.applyHunksToFiles at h
  split at h
  · exact (returns_throw.1 h).elim
  · exact A.applyEach_effect h

end Abstraction

end Codex.ApplyPatch
