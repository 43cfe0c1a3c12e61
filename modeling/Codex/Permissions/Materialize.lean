import Codex.Permissions.Policy

/-!
# Materialized project roots

`materialize_project_roots_with_cwd` (`protocol/src/permissions.rs`) binds the
symbolic entries of a policy to one working directory, so that the policy keeps
its meaning when the working directory changes. Every entry resolves as before.
The test for shadowed entries does not resolve, though: it compares the paths as
they are written, and a symbolic entry only meets a concrete one after the
binding. `Reveals` is the case where that turns full-disk write access on.
-/

namespace Codex.Permissions

open List Codex.Text

variable (host : Host)

def projectRootsGlobPatternPrefix : Str := "codex-project-roots://".toList

def parseProjectRootsGlobPattern (pattern : Str) : Option Path :=
  (stripPrefix pattern projectRootsGlobPatternPrefix).map Path.parse

def resolveProjectRootsGlobPattern (subpath : Path) (root : AbsolutePathBuf) : Str :=
  (resolvePathAgainstBase host subpath root).toStringLossy

/-- The path of an entry, bound to the working directory. -/
def materializePath (cwd : AbsolutePathBuf) : FileSystemPath → FileSystemPath
  | .special (.projectRoots subpath) =>
    match resolveFileSystemPath host (.special (.projectRoots subpath)) cwd with
    | some path => .path path
    | none => .special (.projectRoots subpath)
  | .globPattern pattern =>
    match parseProjectRootsGlobPattern pattern with
    | some subpath => .globPattern (resolveProjectRootsGlobPattern host subpath cwd)
    | none => .globPattern pattern
  | path => path

namespace FileSystemSandboxPolicy

def materializeProjectRootsWithCwd (policy : FileSystemSandboxPolicy) (cwd : AbsolutePathBuf) :
    FileSystemSandboxPolicy :=
  { policy with
    entries := policy.entries.map fun entry =>
      { entry with path := materializePath host cwd entry.path } }

end FileSystemSandboxPolicy

/-! ## Resolving -/

/-- Where a symbolic entry of the workspace points to. -/
def projectRootsPath (subpath : Option Path) (cwd : AbsolutePathBuf) : AbsolutePathBuf :=
  match subpath with
  | some subpath => resolvePathAgainstBase host subpath cwd
  | none => cwd

@[simp] theorem resolveFileSystemPath_projectRoots (subpath : Option Path)
    (cwd : AbsolutePathBuf) :
    resolveFileSystemPath host (.special (.projectRoots subpath)) cwd =
      some (projectRootsPath host subpath cwd) := by
  cases subpath <;> rfl

@[simp] theorem materializePath_projectRoots (cwd : AbsolutePathBuf) (subpath : Option Path) :
    materializePath host cwd (.special (.projectRoots subpath)) =
      .path (projectRootsPath host subpath cwd) := by
  simp only [materializePath, resolveFileSystemPath_projectRoots]

theorem materializePath_globPattern (cwd : AbsolutePathBuf) (pattern : Str) :
    ∃ pattern', materializePath host cwd (.globPattern pattern) = .globPattern pattern' := by
  simp only [materializePath]
  split
  · exact ⟨_, rfl⟩
  · exact ⟨_, rfl⟩

/-- After the binding, an entry resolves in every directory to what it resolved to before. -/
theorem resolveEntryPath_materializePath (cwd cwd' : AbsolutePathBuf) (path : FileSystemPath) :
    resolveEntryPath host (materializePath host cwd path) cwd' = resolveEntryPath host path cwd := by
  cases path with
  | path path => rfl
  | globPattern pattern =>
    obtain ⟨pattern', heq⟩ := materializePath_globPattern host cwd pattern
    rw [heq]
    rfl
  | special value =>
    cases value with
    | projectRoots subpath =>
      rw [materializePath_projectRoots]
      exact (resolveFileSystemPath_projectRoots host subpath cwd).symm
    | root | minimal | tmpdir | slashTmp | unknown => rfl

variable {path : FileSystemPath}

theorem materializePath_eq_root {cwd : AbsolutePathBuf} :
    materializePath host cwd path = .special .root ↔ path = .special .root := by
  cases path with
  | path path => exact Iff.rfl
  | globPattern pattern =>
    obtain ⟨pattern', heq⟩ := materializePath_globPattern host cwd pattern
    simp [heq]
  | special value =>
    cases value with
    | projectRoots subpath => simp
    | root | minimal | tmpdir | slashTmp | unknown => exact Iff.rfl

namespace FileSystemSandboxPolicy

variable (policy : FileSystemSandboxPolicy) (cwd cwd' : AbsolutePathBuf)

@[simp] theorem materialize_kind :
    (policy.materializeProjectRootsWithCwd host cwd).kind = policy.kind := rfl

theorem resolvedEntriesWithCwd_materialize :
    (policy.materializeProjectRootsWithCwd host cwd).resolvedEntriesWithCwd host cwd' =
      policy.resolvedEntriesWithCwd host cwd := by
  simp only [resolvedEntriesWithCwd, materializeProjectRootsWithCwd, filterMap_map,
    Function.comp_def, resolveEntryPath_materializePath]

theorem hasRootAccess_materialize (allows : FileSystemAccessMode → Bool) :
    (policy.materializeProjectRootsWithCwd host cwd).hasRootAccess allows =
      policy.hasRootAccess allows := by
  simp only [hasRootAccess, materializeProjectRootsWithCwd, any_map, Function.comp_def,
    decide_eq_decide.2 (materializePath_eq_root host)]
  rfl

theorem hasFullDiskReadAccess_materialize :
    (policy.materializeProjectRootsWithCwd host cwd).hasFullDiskReadAccess =
      policy.hasFullDiskReadAccess := by
  have hdeny : (policy.materializeProjectRootsWithCwd host cwd).hasDeniedReadRestrictions =
      policy.hasDeniedReadRestrictions := by
    rw [hasDeniedReadRestrictions, materializeProjectRootsWithCwd, any_map]
    rfl
  simp only [hasFullDiskReadAccess, hasRootAccess_materialize, hdeny, materialize_kind]

/-- An absolute path has the access that it had. -/
theorem resolveAccessWithCwd_materialize {p : Path} (hp : p.hasRoot = true) :
    (policy.materializeProjectRootsWithCwd host cwd).resolveAccessWithCwd host p cwd' =
      policy.resolveAccessWithCwd host p cwd := by
  simp only [resolveAccessWithCwd, resolveCandidatePath, if_pos hp, materialize_kind,
    resolvedEntriesWithCwd_materialize]

theorem isMetadataWriteDenied_materialize {p : Path} (hp : p.hasRoot = true) :
    (policy.materializeProjectRootsWithCwd host cwd).isMetadataWriteDenied host p cwd' =
      policy.isMetadataWriteDenied host p cwd := by
  simp only [isMetadataWriteDenied, resolveCandidatePath, if_pos hp, materialize_kind,
    metadataChildOfWritableRoot, hasExplicitWriteEntryForMetadataPath,
    resolvedEntriesWithCwd_materialize]

end FileSystemSandboxPolicy

/-! ## Shadowed entries -/

def FileSystemPath.isProjectRoots : FileSystemPath → Bool
  | .special (.projectRoots _) => true
  | _ => false

/-- The place of a path, where it is fixed by the working directory alone. -/
def FileSystemPath.placeAt (cwd : AbsolutePathBuf) : FileSystemPath → Option AbsolutePathBuf
  | .path p => some p
  | .special .root => some []
  | .special .slashTmp => some slashTmpPath
  | .special (.projectRoots subpath) => some (projectRootsPath host subpath cwd)
  | _ => none

/-- Two paths at one place, one of them symbolic: the binding makes them share their target. -/
def SamePlace (cwd : AbsolutePathBuf) (left right : FileSystemPath) : Prop :=
  (left.isProjectRoots = true ∨ right.isProjectRoots = true) ∧
    left.placeAt host cwd = right.placeAt host cwd ∧ left.placeAt host cwd ≠ none

theorem SamePlace.symm {cwd : AbsolutePathBuf} {left right : FileSystemPath}
    (h : SamePlace host cwd left right) : SamePlace host cwd right left := by
  obtain ⟨hsymbolic, heq, hsome⟩ := h
  exact ⟨hsymbolic.symm, heq.symm, heq ▸ hsome⟩

theorem fileSystemPathsShareTarget_comm (left right : FileSystemPath) :
    fileSystemPathsShareTarget left right = fileSystemPathsShareTarget right left := by
  cases left with
  | path l | globPattern l => cases right <;> simp [fileSystemPathsShareTarget, eq_comm]
  | special l =>
    cases right with
    | path r => rfl
    | globPattern r => rfl
    | special r =>
      show specialPathsShareTarget l r = specialPathsShareTarget r l
      cases l <;> cases r <;> simp [specialPathsShareTarget, eq_comm]

/-- A concrete path shares the target of what the binding puts at its place. -/
theorem shareTarget_path_materialize {p cwd : AbsolutePathBuf} :
    fileSystemPathsShareTarget (.path p) (materializePath host cwd path) = true ↔
      path.placeAt host cwd = some p := by
  cases path with
  | path q =>
    show decide (p = q) = true ↔ some q = some p
    simp [eq_comm]
  | globPattern pattern =>
    obtain ⟨pattern', heq⟩ := materializePath_globPattern host cwd pattern
    simp [heq, fileSystemPathsShareTarget, FileSystemPath.placeAt]
  | special value =>
    cases value with
    | projectRoots subpath =>
      simp [fileSystemPathsShareTarget, FileSystemPath.placeAt, eq_comm]
    | root =>
      show p.parent.isNone = true ↔ some [] = some p
      cases p <;> simp [AbsolutePathBuf.parent]
    | slashTmp =>
      show decide (p = slashTmpPath) = true ↔ some slashTmpPath = some p
      simp [eq_comm]
    | minimal | tmpdir | unknown =>
      simp [materializePath, fileSystemPathsShareTarget, specialPathMatchesAbsolutePath,
        FileSystemPath.placeAt]

variable {subpath : Option Path}

theorem samePlace_projectRoots_iff {cwd : AbsolutePathBuf} :
    SamePlace host cwd (.special (.projectRoots subpath)) path ↔
      path.placeAt host cwd = some (projectRootsPath host subpath cwd) := by
  exact ⟨fun h => h.2.1.symm, fun h => ⟨.inl rfl, h.symm, Option.some_ne_none _⟩⟩

/-- A symbolic path, before the binding, only shares its target with its own spelling. -/
theorem samePlace_of_shareTarget {cwd : AbsolutePathBuf}
    (h : fileSystemPathsShareTarget (.special (.projectRoots subpath)) path = true) :
    SamePlace host cwd (.special (.projectRoots subpath)) path := by
  cases path with
  | path p => cases h
  | globPattern pattern => cases h
  | special value =>
    cases value with
    | projectRoots subpath' =>
      rw [of_decide_eq_true h]
      exact (samePlace_projectRoots_iff host).2 rfl
    | root | minimal | tmpdir | slashTmp | unknown => cases h

theorem shareTarget_materialize_projectRoots {cwd : AbsolutePathBuf} :
    fileSystemPathsShareTarget (materializePath host cwd (.special (.projectRoots subpath)))
        (materializePath host cwd path) = true ↔
      fileSystemPathsShareTarget (.special (.projectRoots subpath)) path = true ∨
        SamePlace host cwd (.special (.projectRoots subpath)) path := by
  rw [materializePath_projectRoots, shareTarget_path_materialize, ← samePlace_projectRoots_iff]
  exact ⟨.inr, fun h => h.elim (samePlace_of_shareTarget host) id⟩

theorem materializePath_of_not_projectRoots {cwd : AbsolutePathBuf}
    (h : path.isProjectRoots = false) (hglob : ∀ pattern, path ≠ .globPattern pattern) :
    materializePath host cwd path = path := by
  cases path with
  | path p => rfl
  | globPattern pattern => exact absurd rfl (hglob pattern)
  | special value =>
    cases value with
    | projectRoots subpath => cases h
    | root | minimal | tmpdir | slashTmp | unknown => rfl

theorem FileSystemPath.exists_of_isProjectRoots (h : path.isProjectRoots = true) :
    ∃ subpath, path = .special (.projectRoots subpath) := by
  unfold isProjectRoots at h
  split at h
  next subpath => exact ⟨subpath, rfl⟩
  · cases h

/-- What shares a target after the binding shared it before, or was at the same place. -/
theorem shareTarget_materialize {cwd : AbsolutePathBuf} {left right : FileSystemPath}
    (hglob : ∀ pattern, right ≠ .globPattern pattern) :
    fileSystemPathsShareTarget (materializePath host cwd left) (materializePath host cwd right) =
        true ↔
      fileSystemPathsShareTarget left right = true ∨ SamePlace host cwd left right := by
  by_cases hl : left.isProjectRoots = true
  · obtain ⟨subpath, rfl⟩ := left.exists_of_isProjectRoots hl
    exact shareTarget_materialize_projectRoots host
  by_cases hr : right.isProjectRoots = true
  · obtain ⟨subpath, rfl⟩ := right.exists_of_isProjectRoots hr
    rw [fileSystemPathsShareTarget_comm, shareTarget_materialize_projectRoots,
      fileSystemPathsShareTarget_comm left]
    exact or_congr_right ⟨SamePlace.symm host, SamePlace.symm host⟩
  have hno : ¬ SamePlace host cwd left right := fun h => h.1.elim hl hr
  rw [or_iff_left hno, materializePath_of_not_projectRoots host (by simpa using hr) hglob]
  by_cases hgl : ∃ pattern, left = .globPattern pattern
  · obtain ⟨pattern, rfl⟩ := hgl
    obtain ⟨pattern', heq⟩ := materializePath_globPattern host cwd pattern
    rw [heq]
    cases right with
    | globPattern r => exact absurd rfl (hglob r)
    | path r => exact Iff.rfl
    | special r => exact Iff.rfl
  · rw [materializePath_of_not_projectRoots host (by simpa using hl)
      fun pattern heq => hgl ⟨pattern, heq⟩]

namespace FileSystemSandboxPolicy

/-- A write entry stands at the place of a read entry, and only the binding shows it. -/
def RevealedAt (policy : FileSystemSandboxPolicy) (cwd : AbsolutePathBuf)
    (entry : FileSystemSandboxEntry) : Prop :=
  entry.access = .read ∧ ∃ candidate ∈ policy.entries,
    candidate.access = .write ∧ SamePlace host cwd candidate.path entry.path

/-- The whole disk is granted, and every entry that narrows the grant is shown to be shadowed. -/
structure Reveals (policy : FileSystemSandboxPolicy) (cwd : AbsolutePathBuf) : Prop where
  restricted : policy.kind = .restricted
  rootWrite : policy.hasRootAccess FileSystemAccessMode.canWrite = true
  narrowed : policy.hasWriteNarrowingEntries = true
  revealed : ∀ entry ∈ policy.entries, policy.narrowsWrites entry = true →
    policy.RevealedAt host cwd entry

variable {policy : FileSystemSandboxPolicy} {cwd : AbsolutePathBuf}
  {entry : FileSystemSandboxEntry}

theorem hasSameTargetWriteOverride_materialize
    (hglob : ∀ pattern, entry.path ≠ .globPattern pattern) :
    (policy.materializeProjectRootsWithCwd host cwd).hasSameTargetWriteOverride
        { entry with path := materializePath host cwd entry.path } = true ↔
      policy.hasSameTargetWriteOverride entry = true ∨ policy.RevealedAt host cwd entry := by
  rw [hasSameTargetWriteOverride_iff, hasSameTargetWriteOverride_iff, RevealedAt, ← and_or_left,
    ← exists_or]
  refine and_congr_right fun _ => ?_
  simp only [materializeProjectRootsWithCwd, mem_map, exists_exists_and_eq_and,
    shareTarget_materialize host hglob, ← and_or_left]

/-- After the binding, an entry narrows what it narrowed unless it is shown to be shadowed. -/
theorem narrowsWrites_materialize :
    (policy.materializeProjectRootsWithCwd host cwd).narrowsWrites
        { entry with path := materializePath host cwd entry.path } = true ↔
      policy.narrowsWrites entry = true ∧ ¬ policy.RevealedAt host cwd entry := by
  have hshadow (hglob : ∀ pattern, entry.path ≠ .globPattern pattern) :
      (!entry.access.canWrite &&
          !hasSameTargetWriteOverride (policy.materializeProjectRootsWithCwd host cwd)
            { entry with path := materializePath host cwd entry.path }) = true ↔
        (!entry.access.canWrite && !policy.hasSameTargetWriteOverride entry) = true ∧
          ¬ policy.RevealedAt host cwd entry := by
    rw [Bool.and_eq_true, Bool.and_eq_true, and_assoc]
    refine and_congr_right fun _ => ?_
    rw [Bool.not_eq_true', Bool.not_eq_true', ← Bool.not_eq_true, ← Bool.not_eq_true,
      hasSameTargetWriteOverride_materialize host hglob, not_or]
  obtain ⟨path, access⟩ := entry
  cases path with
  | path p => exact hshadow fun _ => by simp
  | globPattern pattern =>
    obtain ⟨pattern', heq⟩ := materializePath_globPattern host cwd pattern
    have hno : ¬ policy.RevealedAt host cwd ⟨.globPattern pattern, access⟩ := by
      rintro ⟨-, candidate, -, -, -, hplace, hsome⟩
      exact hsome hplace
    simp only [heq]
    exact (and_iff_left hno).symm
  | special value =>
    cases value with
    | root =>
      refine ⟨fun h => ⟨h, fun hrev => ?_⟩, And.left⟩
      have hread : access = .read := hrev.1
      rw [hread] at h
      cases h
    | minimal | unknown name subpath => simp [narrowsWrites, materializePath]
    | projectRoots subpath =>
      have h := hshadow fun _ => by simp
      simp only [materializePath_projectRoots] at h ⊢
      exact h
    | tmpdir | slashTmp => exact hshadow fun _ => by simp

theorem hasWriteNarrowingEntries_materialize :
    (policy.materializeProjectRootsWithCwd host cwd).hasWriteNarrowingEntries = true ↔
      policy.kind = .restricted ∧ ∃ entry ∈ policy.entries,
        policy.narrowsWrites entry = true ∧ ¬ policy.RevealedAt host cwd entry := by
  rw [hasWriteNarrowingEntries_iff, materialize_kind]
  refine and_congr_right fun _ => ?_
  have hmem (entry : FileSystemSandboxEntry) :
      entry ∈ (policy.materializeProjectRootsWithCwd host cwd).entries ↔
        ∃ source ∈ policy.entries,
          { source with path := materializePath host cwd source.path } = entry := mem_map
  simp only [hmem, exists_exists_and_eq_and, narrowsWrites_materialize]

/-- The binding turns full-disk write access on exactly where it reveals. -/
theorem hasFullDiskWriteAccess_materialize :
    (policy.materializeProjectRootsWithCwd host cwd).hasFullDiskWriteAccess = true ↔
      policy.hasFullDiskWriteAccess = true ∨ policy.Reveals host cwd := by
  cases hkind : policy.kind with
  | unrestricted | externalSandbox => simp [hasFullDiskWriteAccess, hkind]
  | restricted =>
    simp only [hasFullDiskWriteAccess, materialize_kind, hkind, hasRootAccess_materialize,
      Bool.and_eq_true, Bool.not_eq_true', ← Bool.not_eq_true]
    rw [hasWriteNarrowingEntries_materialize]
    refine ⟨?_, ?_⟩
    · rintro ⟨hroot, hno⟩
      by_cases hnarrow : policy.hasWriteNarrowingEntries = true
      · refine .inr ⟨hkind, hroot, hnarrow, fun entry hentry hen => ?_⟩
        exact not_not.1 fun hrev => hno ⟨hkind, entry, hentry, hen, hrev⟩
      · exact .inl ⟨hroot, hnarrow⟩
    · rintro (⟨hroot, hno⟩ | hrev)
      · refine ⟨hroot, ?_⟩
        rintro ⟨-, entry, hentry, hen, -⟩
        exact hno (hasWriteNarrowingEntries_iff.2 ⟨hkind, entry, hentry, hen⟩)
      · refine ⟨hrev.rootWrite, ?_⟩
        rintro ⟨-, entry, hentry, hen, hnot⟩
        exact hnot (hrev.revealed entry hentry hen)

theorem Reveals.not_hasFullDiskWriteAccess (h : policy.Reveals host cwd) :
    policy.hasFullDiskWriteAccess = false := by
  simp [hasFullDiskWriteAccess, h.restricted, h.narrowed]

theorem hasFullDiskWriteAccess_materialize_eq (hno : ¬ policy.Reveals host cwd) :
    (policy.materializeProjectRootsWithCwd host cwd).hasFullDiskWriteAccess =
      policy.hasFullDiskWriteAccess :=
  Bool.eq_iff_iff.2 ((hasFullDiskWriteAccess_materialize host).trans (or_iff_left hno))

/-- **A policy that is bound to its working directory reads as before from every directory, and
writes as before unless the binding reveals**: then the whole disk is open as far as the entries
go, without protection of metadata. -/
theorem materializeProjectRootsWithCwd_access (policy : FileSystemSandboxPolicy)
    (cwd cwd' : AbsolutePathBuf) {p : Path} (hp : p.hasRoot = true) :
    let bound := policy.materializeProjectRootsWithCwd host cwd
    bound.canReadPathWithCwd host p cwd' = policy.canReadPathWithCwd host p cwd ∧
      bound.hasFullDiskReadAccess = policy.hasFullDiskReadAccess ∧
      (bound.hasFullDiskWriteAccess = policy.hasFullDiskWriteAccess ↔
        ¬ policy.Reveals host cwd) ∧
      (¬ policy.Reveals host cwd →
        bound.canWritePathWithCwd host p cwd' = policy.canWritePathWithCwd host p cwd) ∧
      (policy.Reveals host cwd →
        bound.canWritePathWithCwd host p cwd' =
          (policy.resolveAccessWithCwd host p cwd).canWrite) := by
  have haccess := resolveAccessWithCwd_materialize host policy cwd cwd' hp
  refine ⟨?_, hasFullDiskReadAccess_materialize host policy cwd, ⟨fun heq hrev => ?_,
    hasFullDiskWriteAccess_materialize_eq host⟩, fun hno => ?_, fun hrev => ?_⟩
  · rw [canReadPathWithCwd, canReadPathWithCwd, haccess]
  · have hfull := (hasFullDiskWriteAccess_materialize host).2 (.inr hrev)
    rw [heq, hrev.not_hasFullDiskWriteAccess] at hfull
    cases hfull
  · rw [canWritePathWithCwd, canWritePathWithCwd, haccess,
      hasFullDiskWriteAccess_materialize_eq host hno,
      isMetadataWriteDenied_materialize host policy cwd cwd' hp]
  · rw [canWritePathWithCwd, haccess, if_pos ((hasFullDiskWriteAccess_materialize host).2
      (.inr hrev))]
    cases (policy.resolveAccessWithCwd host p cwd).canWrite <;> rfl

end FileSystemSandboxPolicy

def repoDir : AbsolutePathBuf := ["repo".toList]

/-- Everything is writable; the workspace is read-only by its symbol and writable by its path. -/
def twiceNamedPolicy : FileSystemSandboxPolicy :=
  .restricted [⟨.special .root, .write⟩, ⟨.special (.projectRoots none), .read⟩,
    ⟨.path repoDir, .write⟩]

/-- The binding opens the repository's `.git`. -/
theorem twiceNamed_git_opened :
    twiceNamedPolicy.canWritePathWithCwd emptyHost (repoDir ++ [gitName]).asPath repoDir = false ∧
      (twiceNamedPolicy.materializeProjectRootsWithCwd emptyHost repoDir).canWritePathWithCwd
        emptyHost (repoDir ++ [gitName]).asPath repoDir = true ∧
      twiceNamedPolicy.hasFullDiskWriteAccess = false ∧
      (twiceNamedPolicy.materializeProjectRootsWithCwd emptyHost
        repoDir).hasFullDiskWriteAccess = true := by
  decide +kernel

def workspacePolicy : FileSystemSandboxPolicy :=
  .restricted [⟨.special .root, .read⟩, ⟨.special (.projectRoots none), .write⟩]

/-- Bound to the repository, the workspace stays writable from elsewhere. -/
theorem workspace_bound_elsewhere :
    (workspacePolicy.materializeProjectRootsWithCwd emptyHost repoDir).canWritePathWithCwd
        emptyHost (repoDir ++ ["src".toList]).asPath [] =
      workspacePolicy.canWritePathWithCwd emptyHost (repoDir ++ ["src".toList]).asPath repoDir := by
  have h := workspacePolicy.materializeProjectRootsWithCwd_access emptyHost repoDir []
    (p := (repoDir ++ ["src".toList]).asPath) rfl
  refine h.2.2.2.1 fun hrev => ?_
  have hno : workspacePolicy.hasRootAccess FileSystemAccessMode.canWrite = false := by decide
  rw [hrev.rootWrite] at hno
  cases hno

end Codex.Permissions
