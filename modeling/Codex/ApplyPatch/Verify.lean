import Codex.Base.InsertAll
import Codex.ApplyPatch.ApplySpec

/-!
# Verifying a patch

`try_verify_apply_patch_args` of `apply-patch/src/invocation.rs`: every hunk is
resolved and evaluated against the unmodified file system, and the results are
collected in a map from paths to changes. `core/src/safety.rs` then checks the
paths of that map for writability.
-/

namespace Codex.ApplyPatch

open Codex.Text

inductive ApplyPatchFileChange (Path : Type) where
  | add (content : Str)
  | delete (content : Str)
  | update (unifiedDiff : Str) (movePath : Option Path) (newContent : Str)
  deriving DecidableEq

structure ApplyPatchAction (Path : Type) where
  changes : AList fun _ : Path => ApplyPatchFileChange Path
  patch : Str
  cwd : Path

variable {Path σ β : Type} [DecidableEq Path]

namespace ExecutorFileSystem

variable (fs : ExecutorFileSystem Path σ)

/-- `cwd.join(workdir)` if a working directory was given. -/
def effectiveCwd (cwd : Path) (workdir : Option Str) : Except PathUriParseError Path :=
  match workdir with
  | some dir => fs.join cwd dir
  | none => .ok cwd

/-- `?` on the result of `PathUri::join`. -/
def joinPath (cwd : Path) (path : Str) : EStateM ApplyPatchError σ Path :=
  ofExcept ((fs.join cwd path).mapError .pathUri)

/-- The unified diff of the `similar` crate: context radius, old text, new text. -/
abbrev UnifiedDiff := Nat → Str → Str → Str

def unifiedDiffFromChunks (unifiedDiff : UnifiedDiff) (path : Path)
    (chunks : List UpdateFileChunk) : EStateM ApplyPatchError σ (Str × Str) := do
  let patch ← fs.deriveNewContentsFromChunks path chunks
  return (unifiedDiff 1 patch.originalContents patch.newContents, patch.newContents)

/-- The body of the loop: the key and the change a hunk inserts. -/
def verifyHunk (unifiedDiff : UnifiedDiff) (cwd : Path) (hunk : Hunk) :
    EStateM ApplyPatchError σ (Path × ApplyPatchFileChange Path) := do
  let path ← fs.joinPath cwd hunk.sourcePath
  match hunk with
  | .addFile _ contents => return (path, .add contents)
  | .deleteFile _ =>
    match ← run (fs.readFileText path) with
    | .ok content => return (path, .delete content)
    | .error source => throw (.ioError ("Failed to read ".toList ++ fs.nativePath path) source)
  | .updateFile _ movePath chunks =>
    let (diff, contents) ← fs.unifiedDiffFromChunks unifiedDiff path chunks
    match movePath with
    | some dest => return (path, .update diff (some (← fs.joinPath cwd dest)) contents)
    | none => return (path, .update diff none contents)

def verifyEach (unifiedDiff : UnifiedDiff) (cwd : Path) : List Hunk →
    EStateM ApplyPatchError σ (List (Path × ApplyPatchFileChange Path))
  | [] => return []
  | hunk :: hunks => do
    let change ← fs.verifyHunk unifiedDiff cwd hunk
    return change :: (← verifyEach unifiedDiff cwd hunks)

def tryVerifyApplyPatchArgs (unifiedDiff : UnifiedDiff) (args : ApplyPatchArgs) (cwd : Path) :
    EStateM ApplyPatchError σ (ApplyPatchAction Path) := do
  let effectiveCwd ← ofExcept ((fs.effectiveCwd cwd args.workdir).mapError .pathUri)
  let changes ← fs.verifyEach unifiedDiff effectiveCwd args.hunks
  return { changes := insertAll changes, patch := args.patch, cwd := effectiveCwd }

end ExecutorFileSystem

/-! ## The safety check -/

/-- The paths of a change that are checked for writability. -/
def ApplyPatchFileChange.checkedPaths (path : Path) : ApplyPatchFileChange Path → List Path
  | .add _ | .delete _ => [path]
  | .update _ movePath _ => path :: movePath.toList

def ApplyPatchAction.checkedPaths (action : ApplyPatchAction Path) : List Path :=
  action.changes.entries.flatMap fun entry => entry.2.checkedPaths entry.1

theorem mem_checkedPaths {action : ApplyPatchAction Path} {path : Path} :
    path ∈ action.checkedPaths ↔ path ∈ action.changes ∨
      ∃ key diff content, action.changes.lookup key = some (.update diff (some path) content) := by
  have hentry : ∀ key change, ⟨key, change⟩ ∈ action.changes.entries ↔
      action.changes.lookup key = some change := fun key change =>
    AList.mem_lookup_iff.symm
  simp only [ApplyPatchAction.checkedPaths, List.mem_flatMap, Sigma.exists, hentry]
  constructor
  · rintro ⟨key, change, hc, hpath⟩
    have hkey : key ∈ action.changes := AList.lookup_isSome.1 (by rw [hc]; rfl)
    cases change with
    | add content | delete content =>
      rw [List.mem_singleton.1 hpath]
      exact .inl hkey
    | update diff movePath content =>
      rcases List.mem_cons.1 hpath with rfl | hpath
      · exact .inl hkey
      · obtain rfl := Option.mem_toList.1 hpath
        exact .inr ⟨key, diff, content, hc⟩
  · rintro (hkey | ⟨key, diff, content, hc⟩)
    · obtain ⟨change, hc⟩ := Option.isSome_iff_exists.1 (AList.lookup_isSome.2 hkey)
      refine ⟨path, change, hc, ?_⟩
      cases change <;> simp [ApplyPatchFileChange.checkedPaths]
    · exact ⟨key, _, hc, by simp [ApplyPatchFileChange.checkedPaths]⟩

/-! ## What verification says about a hunk -/

/-- The key and the change verification computes for a hunk from the view `b`. -/
inductive Abstraction.HunkVerified {fs : ExecutorFileSystem Path σ} (A : Abstraction fs β)
    (cwd : Path) (b : β) : Hunk → Path × ApplyPatchFileChange Path → Prop where
  | add {path : Path} {p contents : Str} (hp : fs.join cwd p = .ok path) :
      HunkVerified A cwd b (.addFile p contents) (path, .add contents)
  | delete {path : Path} {p content : Str} (hp : fs.join cwd p = .ok path)
      (hr : A.Reads b path content) :
      HunkVerified A cwd b (.deleteFile p) (path, .delete content)
  | rewrite {path : Path} {p diff old new : Str} {chunks : List UpdateFileChunk}
      (hp : fs.join cwd p = .ok path) (hr : A.Reads b path old)
      (hn : newContents old chunks = .ok new) :
      HunkVerified A cwd b (.updateFile p none chunks) (path, .update diff none new)
  | move {path dest : Path} {p d diff old new : Str} {chunks : List UpdateFileChunk}
      (hp : fs.join cwd p = .ok path) (hd : fs.join cwd d = .ok dest) (hr : A.Reads b path old)
      (hn : newContents old chunks = .ok new) :
      HunkVerified A cwd b (.updateFile p (some d) chunks) (path, .update diff (some dest) new)

omit [DecidableEq Path] in
theorem returns_joinPath {fs : ExecutorFileSystem Path σ} {cwd path : Path} {p : Str} {s s' : σ}
    (h : Returns (fs.joinPath cwd p) s path s') : fs.join cwd p = .ok path ∧ s' = s := by
  obtain ⟨hp, hs⟩ := returns_ofExcept.1 h
  cases hj : fs.join cwd p with
  | error e =>
    rw [hj] at hp
    cases hp
  | ok path' =>
    rw [hj] at hp
    cases hp
    exact ⟨rfl, hs⟩

namespace Abstraction

variable {fs : ExecutorFileSystem Path σ} (A : Abstraction fs β)

variable {unifiedDiff : ExecutorFileSystem.UnifiedDiff} {cwd : Path} {s s' : σ}

omit [DecidableEq Path] in
/-- **Verification reads the file system and leaves it as it was.** -/
theorem verifyHunk_verified {hunk : Hunk} {change : Path × ApplyPatchFileChange Path}
    (h : Returns (fs.verifyHunk unifiedDiff cwd hunk) s change s') :
    A.HunkVerified cwd (A.view s) hunk change ∧ A.view s' = A.view s := by
  rw [ExecutorFileSystem.verifyHunk, returns_bind] at h
  obtain ⟨path, s₁, hpath, h⟩ := h
  obtain ⟨hp, rfl⟩ := returns_joinPath hpath
  cases hunk with
  | addFile p contents =>
    obtain ⟨rfl, rfl⟩ := returns_pure.1 h
    exact ⟨.add hp, rfl⟩
  | deleteFile p =>
    rw [returns_bind] at h
    obtain ⟨r, s₂, hr, h⟩ := h
    rw [returns_run] at hr
    cases r with
    | error e => exact (returns_throw.1 h).elim
    | ok content =>
      obtain ⟨rfl, rfl⟩ := returns_pure.1 h
      exact ⟨.delete hp (A.readFileText_reads hr), A.readFileText_view hr⟩
  | updateFile p movePath chunks =>
    rw [returns_bind] at h
    obtain ⟨⟨diff, contents⟩, s₂, hdiff, h⟩ := h
    rw [ExecutorFileSystem.unifiedDiffFromChunks, returns_bind] at hdiff
    obtain ⟨patch, s₃, hpatch, hdiff⟩ := hdiff
    obtain ⟨hpure, rfl⟩ := returns_pure.1 hdiff
    cases hpure
    obtain ⟨hr, hn⟩ := returns_derive.1 hpatch
    cases movePath with
    | none =>
      obtain ⟨rfl, rfl⟩ := returns_pure.1 h
      exact ⟨.rewrite hp (A.readFileText_reads hr) hn, A.readFileText_view hr⟩
    | some d =>
      rw [returns_bind] at h
      obtain ⟨dest, s₄, hdest, h⟩ := h
      obtain ⟨hd, rfl⟩ := returns_joinPath hdest
      obtain ⟨rfl, rfl⟩ := returns_pure.1 h
      exact ⟨.move hp hd (A.readFileText_reads hr) hn, A.readFileText_view hr⟩

omit [DecidableEq Path] in
theorem verifyEach_verified {hunks : List Hunk} {changes : List (Path × ApplyPatchFileChange Path)}
    (h : Returns (fs.verifyEach unifiedDiff cwd hunks) s changes s') :
    List.Forall₂ (A.HunkVerified cwd (A.view s)) hunks changes := by
  induction hunks generalizing changes s with
  | nil =>
    obtain ⟨rfl, -⟩ := returns_pure.1 h
    exact .nil
  | cons hunk hunks ih =>
    rw [ExecutorFileSystem.verifyEach, returns_bind] at h
    obtain ⟨change, s₁, hchange, h⟩ := h
    rw [returns_bind] at h
    obtain ⟨rest, s₂, hrest, h⟩ := h
    obtain ⟨rfl, rfl⟩ := returns_pure.1 h
    obtain ⟨hv, hview⟩ := A.verifyHunk_verified hchange
    have hrest := ih hrest
    rw [hview] at hrest
    exact .cons hv hrest

/-- **A verified action holds the change of every hunk, the last one for each path.** -/
theorem tryVerify_verified {args : ApplyPatchArgs} {action : ApplyPatchAction Path}
    (h : Returns (fs.tryVerifyApplyPatchArgs unifiedDiff args cwd) s action s') :
    fs.effectiveCwd cwd args.workdir = .ok action.cwd ∧
      ∃ changes, List.Forall₂ (A.HunkVerified action.cwd (A.view s)) args.hunks changes ∧
        action.changes = insertAll changes := by
  rw [ExecutorFileSystem.tryVerifyApplyPatchArgs, returns_bind] at h
  obtain ⟨dir, s₁, hdir, h⟩ := h
  rw [returns_bind] at h
  obtain ⟨changes, s₂, hchanges, h⟩ := h
  obtain ⟨rfl, -⟩ := returns_pure.1 h
  obtain ⟨hd, rfl⟩ := returns_ofExcept.1 hdir
  refine ⟨?_, changes, A.verifyEach_verified hchanges, rfl⟩
  cases he : fs.effectiveCwd cwd args.workdir with
  | error e =>
    rw [he] at hd
    cases hd
  | ok dir' =>
    rw [he] at hd
    cases hd
    rfl

end Abstraction

end Codex.ApplyPatch
