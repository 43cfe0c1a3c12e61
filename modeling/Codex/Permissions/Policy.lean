import Codex.Permissions.Path

/-!
# File system policies

The entries of a `FileSystemSandboxPolicy` (`protocol/src/permissions.rs`), how
they resolve against a working directory, and the access that they give to a
path: the deepest entry decides, and of several entries at one path `deny` beats
`write`, which beats `read`.
-/

namespace Codex.Permissions

open List Codex.Text

inductive FileSystemAccessMode where
  | read
  | write
  | deny
  deriving DecidableEq

namespace FileSystemAccessMode

def canRead (mode : FileSystemAccessMode) : Bool := mode ≠ .deny

def canWrite (mode : FileSystemAccessMode) : Bool := mode = .write

/-- The derived order: conflict precedence, not breadth. -/
def rank : FileSystemAccessMode → ℕ
  | .read => 0
  | .write => 1
  | .deny => 2

/-- What the mode allows, in the order none, read, write. -/
def breadth : FileSystemAccessMode → ℕ
  | .deny => 0
  | .read => 1
  | .write => 2

theorem rank_injective : Function.Injective rank := by
  intro a b h
  cases a <;> cases b <;> first | rfl | cases h

@[simp] theorem canWrite_eq_true {mode : FileSystemAccessMode} :
    mode.canWrite = true ↔ mode = .write := by
  simp [canWrite]

@[simp] theorem canRead_eq_true {mode : FileSystemAccessMode} :
    mode.canRead = true ↔ mode ≠ .deny := by
  simp [canRead]

end FileSystemAccessMode

inductive FileSystemSpecialPath where
  | root
  | minimal
  | projectRoots (subpath : Option Path)
  | tmpdir
  | slashTmp
  | unknown (path : Str) (subpath : Option Path)
  deriving DecidableEq

inductive FileSystemPath where
  | path (path : AbsolutePathBuf)
  | globPattern (pattern : Str)
  | special (value : FileSystemSpecialPath)
  deriving DecidableEq

structure FileSystemSandboxEntry where
  path : FileSystemPath
  access : FileSystemAccessMode
  deriving DecidableEq

inductive FileSystemSandboxKind where
  | restricted
  | unrestricted
  | externalSandbox
  deriving DecidableEq

structure FileSystemSandboxPolicy where
  kind : FileSystemSandboxKind
  globScanMaxDepth : Option ℕ
  entries : List FileSystemSandboxEntry
  deriving DecidableEq

structure ResolvedFileSystemEntry where
  path : AbsolutePathBuf
  access : FileSystemAccessMode
  deriving DecidableEq

/-! ## Resolving entries -/

variable (host : Host)

def slashTmpPath : AbsolutePathBuf := ["tmp".toList]

def resolveFileSystemSpecialPath (value : FileSystemSpecialPath) (cwd : AbsolutePathBuf) :
    Option AbsolutePathBuf :=
  match value with
  | .root | .minimal | .unknown _ _ => none
  | .projectRoots (some subpath) => some (resolvePathAgainstBase host subpath cwd)
  | .projectRoots none => some cwd
  | .tmpdir =>
    match host.tmpdirVar with
    | none => none
    | some tmpdir => if tmpdir = [] then none else fromAbsolutePath host (Path.parse tmpdir)
  | .slashTmp => if host.isDir slashTmpPath then some slashTmpPath else none

def resolveFileSystemPath (path : FileSystemPath) (cwd : AbsolutePathBuf) :
    Option AbsolutePathBuf :=
  match path with
  | .path path => some path
  | .globPattern _ => none
  | .special value => resolveFileSystemSpecialPath host value cwd

/-- The root of the file system that `cwd` is in. -/
def absoluteRootPathForCwd (_cwd : AbsolutePathBuf) : AbsolutePathBuf := []

def resolveEntryPath (path : FileSystemPath) (cwd : AbsolutePathBuf) : Option AbsolutePathBuf :=
  match path with
  | .special .root => some (absoluteRootPathForCwd cwd)
  | path => resolveFileSystemPath host path cwd

namespace FileSystemSandboxPolicy

def restricted (entries : List FileSystemSandboxEntry) : FileSystemSandboxPolicy :=
  ⟨.restricted, none, entries⟩

def resolvedEntriesWithCwd (policy : FileSystemSandboxPolicy) (cwd : AbsolutePathBuf) :
    List ResolvedFileSystemEntry :=
  policy.entries.filterMap fun entry =>
    (resolveEntryPath host entry.path cwd).map fun path => ⟨path, entry.access⟩

end FileSystemSandboxPolicy

variable {host} in
theorem mem_resolvedEntries {policy : FileSystemSandboxPolicy} {cwd : AbsolutePathBuf}
    {e : ResolvedFileSystemEntry} :
    e ∈ policy.resolvedEntriesWithCwd host cwd ↔
      ∃ entry ∈ policy.entries, resolveEntryPath host entry.path cwd = some e.path ∧
        entry.access = e.access := by
  rw [FileSystemSandboxPolicy.resolvedEntriesWithCwd, mem_filterMap]
  refine exists_congr fun entry => and_congr_right fun _ => ?_
  rw [Option.map_eq_some_iff]
  refine ⟨?_, ?_⟩
  · rintro ⟨path, hpath, rfl⟩
    exact ⟨hpath, rfl⟩
  · rintro ⟨hpath, haccess⟩
    exact ⟨e.path, hpath, by rw [haccess]⟩

/-- A concrete path, the root, or a path in the workspace: what every host resolves. -/
def FileSystemPath.isPlain : FileSystemPath → Bool
  | .path _ | .special .root | .special (.projectRoots _) => true
  | _ => false

/-- Where a plain path points to. -/
def FileSystemPath.target (path : FileSystemPath) (cwd : AbsolutePathBuf) : AbsolutePathBuf :=
  (resolveEntryPath host path cwd).getD []

theorem resolveEntryPath_eq_target {path : FileSystemPath} (h : path.isPlain = true)
    (cwd : AbsolutePathBuf) : resolveEntryPath host path cwd = some (path.target host cwd) := by
  unfold FileSystemPath.isPlain at h
  split at h
  · rfl
  · rfl
  next subpath => cases subpath <;> rfl
  · cases h

variable {host} in
theorem mem_resolvedEntriesWithCwd {policy : FileSystemSandboxPolicy} {cwd : AbsolutePathBuf}
    (hplain : ∀ entry ∈ policy.entries, entry.path.isPlain = true)
    {e : ResolvedFileSystemEntry} :
    e ∈ policy.resolvedEntriesWithCwd host cwd ↔
      ∃ entry ∈ policy.entries, e = ⟨entry.path.target host cwd, entry.access⟩ := by
  rw [FileSystemSandboxPolicy.resolvedEntriesWithCwd, mem_filterMap]
  refine exists_congr fun entry => and_congr_right fun hentry => ?_
  rw [resolveEntryPath_eq_target host (hplain entry hentry), Option.map_some, Option.some_inj,
    eq_comm]

/-! ## Access -/

def resolvedEntryPrecedence (entry : ResolvedFileSystemEntry) : ℕ ×ₗ ℕ :=
  toLex (entry.path.componentCount, entry.access.rank)

/-- The access of a path under resolved entries. -/
def resolveAccess (entries : List ResolvedFileSystemEntry) (path : AbsolutePathBuf) :
    FileSystemAccessMode :=
  match maxByKey resolvedEntryPrecedence (entries.filter fun entry => entry.path <+: path) with
  | some entry => entry.access
  | none => .deny

/-- The entry that decides the access of a path. -/
abbrev Decides (entries : List ResolvedFileSystemEntry) (path : AbsolutePathBuf)
    (entry : ResolvedFileSystemEntry) : Prop :=
  Governs ResolvedFileSystemEntry.path (fun entry => entry.access.rank) entries path entry

section Access

variable {entries : List ResolvedFileSystemEntry} {path : AbsolutePathBuf}
  {entry : ResolvedFileSystemEntry}

theorem resolveAccess_spec (entries : List ResolvedFileSystemEntry) (path : AbsolutePathBuf) :
    (∃ entry, Decides entries path entry ∧ resolveAccess entries path = entry.access) ∨
      (∀ entry ∈ entries, ¬ entry.path <+: path) ∧ resolveAccess entries path = .deny := by
  unfold resolveAccess
  split
  next entry hsome => exact .inl ⟨entry, governs_of_maxByKey hsome, rfl⟩
  next hnone =>
    refine .inr ⟨fun entry hentry hp => ?_, rfl⟩
    exact filter_eq_nil_iff.1 (maxByKey_eq_none hnone) entry hentry (decide_eq_true hp)

theorem Decides.access_unique {entry' : ResolvedFileSystemEntry} (h : Decides entries path entry)
    (h' : Decides entries path entry') : entry.access = entry'.access :=
  FileSystemAccessMode.rank_injective (h.rank_unique h')

theorem Decides.resolveAccess_eq (h : Decides entries path entry) :
    resolveAccess entries path = entry.access := by
  rcases resolveAccess_spec entries path with ⟨entry', h', heq⟩ | ⟨hno, -⟩
  · rw [heq, h.access_unique h']
  · exact absurd h.covers (hno entry h.mem)

theorem exists_decides (h : resolveAccess entries path ≠ .deny) :
    ∃ entry, Decides entries path entry := by
  rcases resolveAccess_spec entries path with ⟨entry, hd, -⟩ | ⟨-, hdeny⟩
  · exact ⟨entry, hd⟩
  · exact absurd hdeny h

/-- A path with an entry of its own has the strongest access among the entries there. -/
theorem decides_at_entry (h : entry ∈ entries) :
    ∃ entry', Decides entries entry.path entry' ∧ entry'.path = entry.path := by
  obtain ⟨entry', h'⟩ : ∃ entry', Decides entries entry.path entry' :=
    exists_governs h (prefix_refl _)
  exact ⟨entry', h', prefix_antisymm h'.covers (h'.deepest entry h (prefix_refl _))⟩

theorem resolveAccess_eq_deny_of_mem (h : entry ∈ entries) (hdeny : entry.access = .deny) :
    resolveAccess entries entry.path = .deny := by
  obtain ⟨entry', hd, hpath⟩ := decides_at_entry h
  have hrank := hd.strongest entry h hpath.symm
  rw [hd.resolveAccess_eq]
  cases hmode : entry'.access with
  | deny => rfl
  | read | write => simp [hdeny, hmode, FileSystemAccessMode.rank] at hrank

end Access

namespace FileSystemSandboxPolicy

def resolveAccessWithCwd (policy : FileSystemSandboxPolicy) (path : Path) (cwd : AbsolutePathBuf) :
    FileSystemAccessMode :=
  match policy.kind with
  | .unrestricted | .externalSandbox => .write
  | .restricted =>
    match resolveCandidatePath host path cwd with
    | none => .deny
    | some path => resolveAccess (policy.resolvedEntriesWithCwd host cwd) path

def canReadPathWithCwd (policy : FileSystemSandboxPolicy) (path : Path) (cwd : AbsolutePathBuf) :
    Bool :=
  (policy.resolveAccessWithCwd host path cwd).canRead

/-! ## Full access -/

def hasRootAccess (policy : FileSystemSandboxPolicy) (allows : FileSystemAccessMode → Bool) :
    Bool :=
  policy.kind = .restricted &&
    policy.entries.any fun entry => entry.path = .special .root && allows entry.access

theorem hasRootAccess_iff {policy : FileSystemSandboxPolicy}
    {allows : FileSystemAccessMode → Bool} :
    policy.hasRootAccess allows = true ↔ policy.kind = .restricted ∧
      ∃ entry ∈ policy.entries, entry.path = .special .root ∧ allows entry.access = true := by
  simp only [hasRootAccess, Bool.and_eq_true, decide_eq_true_eq, any_eq_true]

def hasDeniedReadRestrictions (policy : FileSystemSandboxPolicy) : Bool :=
  policy.kind = .restricted && policy.entries.any fun entry => entry.access = .deny

def hasFullDiskReadAccess (policy : FileSystemSandboxPolicy) : Bool :=
  match policy.kind with
  | .unrestricted | .externalSandbox => true
  | .restricted =>
    policy.hasRootAccess FileSystemAccessMode.canRead && !policy.hasDeniedReadRestrictions

theorem hasFullDiskReadAccess_iff {policy : FileSystemSandboxPolicy}
    (hkind : policy.kind = .restricted) :
    policy.hasFullDiskReadAccess = true ↔
      (∃ entry ∈ policy.entries, entry.path = .special .root ∧ entry.access ≠ .deny) ∧
        ∀ entry ∈ policy.entries, entry.access ≠ .deny := by
  simp only [hasFullDiskReadAccess, hkind, Bool.and_eq_true, hasRootAccess_iff, true_and,
    FileSystemAccessMode.canRead_eq_true, hasDeniedReadRestrictions, Bool.not_eq_true',
    decide_true, Bool.true_and, any_eq_false, decide_eq_true_eq]

end FileSystemSandboxPolicy

def specialPathMatchesAbsolutePath (value : FileSystemSpecialPath) (path : AbsolutePathBuf) :
    Bool :=
  match value with
  | .root => path.parent.isNone
  | .slashTmp => path = slashTmpPath
  | _ => false

def specialPathsShareTarget : FileSystemSpecialPath → FileSystemSpecialPath → Bool
  | .root, .root | .minimal, .minimal | .tmpdir, .tmpdir | .slashTmp, .slashTmp => true
  | .projectRoots left, .projectRoots right => left = right
  | .unknown left leftSubpath, .unknown right rightSubpath =>
    left = right && leftSubpath = rightSubpath
  | _, _ => false

def fileSystemPathsShareTarget : FileSystemPath → FileSystemPath → Bool
  | .path left, .path right => left = right
  | .special left, .special right => specialPathsShareTarget left right
  | .path path, .special value | .special value, .path path =>
    specialPathMatchesAbsolutePath value path
  | .globPattern left, .globPattern right => left = right
  | .globPattern _, _ | _, .globPattern _ => false

namespace FileSystemSandboxPolicy

def hasSameTargetWriteOverride (policy : FileSystemSandboxPolicy)
    (entry : FileSystemSandboxEntry) : Bool :=
  policy.entries.any fun candidate =>
    candidate.access.canWrite && entry.access.rank < candidate.access.rank &&
      fileSystemPathsShareTarget candidate.path entry.path

/-- The entry takes something off a grant of the whole disk. -/
def narrowsWrites (policy : FileSystemSandboxPolicy) (entry : FileSystemSandboxEntry) : Bool :=
  !entry.access.canWrite &&
    match entry.path with
    | .path _ => !policy.hasSameTargetWriteOverride entry
    | .globPattern _ => true
    | .special .root => entry.access = .deny
    | .special .minimal | .special (.unknown _ _) => false
    | .special _ => !policy.hasSameTargetWriteOverride entry

def hasWriteNarrowingEntries (policy : FileSystemSandboxPolicy) : Bool :=
  policy.kind = .restricted && policy.entries.any policy.narrowsWrites

def hasFullDiskWriteAccess (policy : FileSystemSandboxPolicy) : Bool :=
  match policy.kind with
  | .unrestricted | .externalSandbox => true
  | .restricted =>
    policy.hasRootAccess FileSystemAccessMode.canWrite && !policy.hasWriteNarrowingEntries

theorem hasSameTargetWriteOverride_iff {policy : FileSystemSandboxPolicy}
    {entry : FileSystemSandboxEntry} :
    policy.hasSameTargetWriteOverride entry = true ↔
      entry.access = .read ∧ ∃ candidate ∈ policy.entries, candidate.access = .write ∧
        fileSystemPathsShareTarget candidate.path entry.path = true := by
  simp only [hasSameTargetWriteOverride, any_eq_true, Bool.and_eq_true, decide_eq_true_eq,
    FileSystemAccessMode.canWrite_eq_true]
  refine ⟨?_, ?_⟩
  · rintro ⟨candidate, hmem, ⟨hwrite, hrank⟩, hshare⟩
    refine ⟨?_, candidate, hmem, hwrite, hshare⟩
    rw [hwrite] at hrank
    cases haccess : entry.access with
    | read => rfl
    | write => simp [haccess] at hrank
    | deny => simp [haccess, FileSystemAccessMode.rank] at hrank
  · rintro ⟨hread, candidate, hmem, hwrite, hshare⟩
    refine ⟨candidate, hmem, ⟨hwrite, ?_⟩, hshare⟩
    rw [hread, hwrite]
    decide

theorem hasWriteNarrowingEntries_iff {policy : FileSystemSandboxPolicy} :
    policy.hasWriteNarrowingEntries = true ↔
      policy.kind = .restricted ∧ ∃ entry ∈ policy.entries, policy.narrowsWrites entry = true := by
  rw [hasWriteNarrowingEntries, Bool.and_eq_true, decide_eq_true_iff, any_eq_true]

end FileSystemSandboxPolicy

/-! ## Protected metadata -/

def gitName : Str := ".git".toList
def agentsName : Str := ".agents".toList
def codexName : Str := ".codex".toList

def protectedMetadataPathNames : List Str := [gitName, agentsName, codexName]

/-- The protected path above `target` that lies below a writable entry, the first in the list. -/
def metadataChild (entries : List ResolvedFileSystemEntry) (target : AbsolutePathBuf) :
    Option (AbsolutePathBuf × Str) :=
  (entries.filter fun entry => entry.access.canWrite).findSome? fun entry =>
    if entry.path <+: target then
      match target.drop entry.path.length with
      | [] => none
      | name :: _ =>
        if name ∈ protectedMetadataPathNames then some (entry.path ++ [name], name) else none
    else none

def metadataChildOfWritableRoot (policy : FileSystemSandboxPolicy) (target : AbsolutePathBuf)
    (cwd : AbsolutePathBuf) : Option (AbsolutePathBuf × Str) :=
  metadataChild (policy.resolvedEntriesWithCwd host cwd) target

def hasExplicitWriteEntry (entries : List ResolvedFileSystemEntry)
    (protectedMetadataPath target : AbsolutePathBuf) : Bool :=
  entries.any fun entry =>
    entry.access.canWrite && entry.path <+: target && protectedMetadataPath <+: entry.path

def hasExplicitWriteEntryForMetadataPath (policy : FileSystemSandboxPolicy)
    (protectedMetadataPath target cwd : AbsolutePathBuf) : Bool :=
  hasExplicitWriteEntry (policy.resolvedEntriesWithCwd host cwd) protectedMetadataPath target

namespace FileSystemSandboxPolicy

def isMetadataWriteDenied (policy : FileSystemSandboxPolicy) (path : Path)
    (cwd : AbsolutePathBuf) : Bool :=
  if policy.kind = .restricted then
    match resolveCandidatePath host path cwd with
    | none => true
    | some target =>
      match metadataChildOfWritableRoot host policy target cwd with
      | none => false
      | some (protectedMetadataPath, _) =>
        !hasExplicitWriteEntryForMetadataPath host policy protectedMetadataPath target cwd
  else false

def canWritePathWithCwd (policy : FileSystemSandboxPolicy) (path : Path) (cwd : AbsolutePathBuf) :
    Bool :=
  if !(policy.resolveAccessWithCwd host path cwd).canWrite then false
  else if policy.hasFullDiskWriteAccess then true
  else !policy.isMetadataWriteDenied host path cwd

end FileSystemSandboxPolicy

end Codex.Permissions
