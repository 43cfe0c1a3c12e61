import Codex.Permissions.Intersect

/-!
# Legacy sandbox policies

A `FileSystemSandboxPolicy` is projected to the older `SandboxPolicy` for the
runtimes that only know that one (`to_legacy_sandbox_policy`), and
`needs_direct_runtime_enforcement` says when the projection must not be used: it
compares the semantic signature of the policy with that of the policy a legacy
runtime would rebuild (`protocol/src/permissions.rs`, `protocol/src/protocol.rs`).
-/

namespace Codex.Permissions

open Codex.Text

inductive NetworkSandboxPolicy where
  | restricted
  | enabled
  deriving DecidableEq

def NetworkSandboxPolicy.isEnabled (policy : NetworkSandboxPolicy) : Bool := policy = .enabled

inductive NetworkAccess where
  | restricted
  | enabled
  deriving DecidableEq

inductive SandboxPolicy where
  | dangerFullAccess
  | readOnly (networkAccess : Bool)
  | externalSandbox (networkAccess : NetworkAccess)
  | workspaceWrite (writableRoots : List AbsolutePathBuf) (networkAccess : Bool)
      (excludeTmpdirEnvVar excludeSlashTmp : Bool)
  deriving DecidableEq

variable (host : Host)

/-! ## Legacy writable roots -/

namespace SandboxPolicy

/-- `TMPDIR`, as long as it is set to something. -/
def tmpdirRoot : Option AbsolutePathBuf :=
  match host.tmpdirVar with
  | none => none
  | some tmpdir => if tmpdir = [] then none else fromAbsolutePath host (Path.parse tmpdir)

def getWritableRootsWithCwd (policy : SandboxPolicy) (cwd : AbsolutePathBuf) :
    List WritableRoot :=
  match policy with
  | .dangerFullAccess | .externalSandbox _ | .readOnly _ => []
  | .workspaceWrite writableRoots _ excludeTmpdirEnvVar excludeSlashTmp =>
    let slashTmp := if !excludeSlashTmp && host.isDir slashTmpPath then [slashTmpPath] else []
    let tmpdir := if !excludeTmpdirEnvVar then (tmpdirRoot host).toList else []
    (writableRoots ++ [cwd] ++ slashTmp ++ tmpdir).map fun writableRoot =>
      { root := writableRoot
        readOnlySubpaths :=
          defaultReadOnlySubpathsForWritableRoot host writableRoot (cwd = writableRoot)
        protectedMetadataNames := [] }

end SandboxPolicy

/-! ## From a legacy policy -/

def appendDefaultReadOnlyEntryIfNoExplicitRule (entries : List FileSystemSandboxEntry)
    (path : FileSystemPath) : List FileSystemSandboxEntry :=
  if entries.any fun entry => fileSystemPathsShareTarget entry.path path then entries
  else entries ++ [⟨path, .read⟩]

def appendDefaultReadOnlyPathIfNoExplicitRule (entries : List FileSystemSandboxEntry)
    (path : AbsolutePathBuf) : List FileSystemSandboxEntry :=
  appendDefaultReadOnlyEntryIfNoExplicitRule entries (.path path)

def appendDefaultReadOnlyProjectRootSubpathIfNoExplicitRule
    (entries : List FileSystemSandboxEntry) (subpath : Str) : List FileSystemSandboxEntry :=
  appendDefaultReadOnlyEntryIfNoExplicitRule entries
    (.special (.projectRoots (some (Path.parse subpath))))

/-- The entries that grant a legacy workspace: the disk to read, the workspace and the temporary
directories to write, and the further roots. -/
def workspaceEntries (writableRoots : List AbsolutePathBuf)
    (excludeTmpdirEnvVar excludeSlashTmp : Bool) : List FileSystemSandboxEntry :=
  [⟨.special .root, .read⟩, ⟨.special (.projectRoots none), .write⟩] ++
    (if excludeSlashTmp then [] else [⟨.special .slashTmp, .write⟩]) ++
    (if excludeTmpdirEnvVar then [] else [⟨.special .tmpdir, .write⟩]) ++
    writableRoots.map fun path => ⟨.path path, .write⟩

/-- The read-only defaults below one root. -/
def appendDefaultsForRoot (protectMissingDotCodex : Bool) (entries : List FileSystemSandboxEntry)
    (root : AbsolutePathBuf) : List FileSystemSandboxEntry :=
  (defaultReadOnlySubpathsForWritableRoot host root protectMissingDotCodex).foldl
    appendDefaultReadOnlyPathIfNoExplicitRule entries

namespace FileSystemSandboxPolicy

def unrestricted : FileSystemSandboxPolicy := ⟨.unrestricted, none, []⟩

def externalSandbox : FileSystemSandboxPolicy := ⟨.externalSandbox, none, []⟩

def workspaceWrite (writableRoots : List AbsolutePathBuf)
    (excludeTmpdirEnvVar excludeSlashTmp : Bool) : FileSystemSandboxPolicy :=
  let entries := workspaceEntries writableRoots excludeTmpdirEnvVar excludeSlashTmp
  let entries := protectedMetadataPathNames.foldl
    appendDefaultReadOnlyProjectRootSubpathIfNoExplicitRule entries
  restricted (writableRoots.foldl (appendDefaultsForRoot host false) entries)

/-- `From<&SandboxPolicy>`. -/
def ofSandboxPolicy : SandboxPolicy → FileSystemSandboxPolicy
  | .dangerFullAccess => unrestricted
  | .externalSandbox _ => externalSandbox
  | .readOnly _ => restricted [⟨.special .root, .read⟩]
  | .workspaceWrite writableRoots _ excludeTmpdirEnvVar excludeSlashTmp =>
    workspaceWrite host writableRoots excludeTmpdirEnvVar excludeSlashTmp

end FileSystemSandboxPolicy

/-- The policy that a legacy runtime enforces. -/
def legacyRuntimeFileSystemPolicyForCwd (sandboxPolicy : SandboxPolicy) (cwd : AbsolutePathBuf) :
    FileSystemSandboxPolicy :=
  match sandboxPolicy with
  | .workspaceWrite writableRoots _ excludeTmpdirEnvVar excludeSlashTmp =>
    let entries := workspaceEntries writableRoots excludeTmpdirEnvVar excludeSlashTmp
    let entries := appendDefaultsForRoot host true entries cwd
    .restricted (writableRoots.foldl (appendDefaultsForRoot host false) entries)
  | sandboxPolicy => .ofSandboxPolicy host sandboxPolicy

/-! ## To a legacy policy -/

/-- What the loop of `to_legacy_sandbox_policy` has seen. -/
structure LegacyScan where
  workspaceRootWritable : Bool
  writableRoots : List AbsolutePathBuf
  tmpdirWritable : Bool
  slashTmpWritable : Bool
  unbridgeableRootWrite : Bool
  deriving DecidableEq

namespace LegacyScan

def empty : LegacyScan := ⟨false, [], false, false, false⟩

def visit (cwd : AbsolutePathBuf) (scan : LegacyScan) (entry : FileSystemSandboxEntry) :
    LegacyScan :=
  match entry.path with
  | .globPattern _ => scan
  | .path path =>
    if entry.access.canWrite then
      if cwd = path then { scan with workspaceRootWritable := true }
      else { scan with writableRoots := scan.writableRoots ++ [path] }
    else scan
  | .special .root =>
    match entry.access with
    | .deny | .read => scan
    | .write => { scan with unbridgeableRootWrite := true }
  | .special .minimal => scan
  | .special (.projectRoots subpath) =>
    if subpath.isNone && entry.access.canWrite then { scan with workspaceRootWritable := true }
    else
      match resolveFileSystemSpecialPath host (.projectRoots subpath) cwd with
      | some path =>
        if entry.access.canWrite then { scan with writableRoots := scan.writableRoots ++ [path] }
        else scan
      | none => scan
  | .special .tmpdir =>
    if entry.access.canWrite then { scan with tmpdirWritable := true } else scan
  | .special .slashTmp =>
    if entry.access.canWrite then { scan with slashTmpWritable := true } else scan
  | .special (.unknown _ _) => scan

end LegacyScan

def writesOutsideWorkspaceMessage : Str :=
  "permissions profile requests filesystem writes outside the workspace root, which is not supported until the runtime enforces FileSystemSandboxPolicy directly".toList

namespace FileSystemSandboxPolicy

def legacyScan (policy : FileSystemSandboxPolicy) (cwd : AbsolutePathBuf) : LegacyScan :=
  policy.entries.foldl (LegacyScan.visit host cwd) .empty

/-- The projection, or the text of the error for invalid input. -/
def toLegacySandboxPolicy (policy : FileSystemSandboxPolicy)
    (networkPolicy : NetworkSandboxPolicy) (cwd : AbsolutePathBuf) : Except Str SandboxPolicy :=
  match policy.kind with
  | .externalSandbox =>
    .ok (.externalSandbox (if networkPolicy.isEnabled then .enabled else .restricted))
  | .unrestricted =>
    .ok (if networkPolicy.isEnabled then .dangerFullAccess else .externalSandbox .restricted)
  | .restricted =>
    let scan := policy.legacyScan host cwd
    if policy.hasFullDiskWriteAccess then
      .ok (if networkPolicy.isEnabled then .dangerFullAccess else .externalSandbox .restricted)
    else if scan.workspaceRootWritable then
      .ok (.workspaceWrite (dedupAbsolutePaths host scan.writableRoots false)
        networkPolicy.isEnabled (!scan.tmpdirWritable) (!scan.slashTmpWritable))
    else if scan.unbridgeableRootWrite || !scan.writableRoots.isEmpty || scan.tmpdirWritable ||
        scan.slashTmpWritable then
      .error writesOutsideWorkspaceMessage
    else .ok (.readOnly networkPolicy.isEnabled)

/-! ## The semantic signature -/

def includePlatformDefaults (policy : FileSystemSandboxPolicy) : Bool :=
  !policy.hasFullDiskReadAccess && policy.kind = .restricted &&
    policy.entries.any fun entry => entry.path = .special .minimal && entry.access.canRead

def getReadableRootsWithCwd (policy : FileSystemSandboxPolicy) (cwd : AbsolutePathBuf) :
    List AbsolutePathBuf :=
  if policy.hasFullDiskReadAccess then []
  else
    let readable := (policy.resolvedEntriesWithCwd host cwd).filter fun entry =>
      entry.access.canRead && policy.canReadPathWithCwd host entry.path.asPath cwd
    dedupAbsolutePaths host (readable.map ResolvedFileSystemEntry.path) true

end FileSystemSandboxPolicy

def sortedAbsolutePaths (paths : List AbsolutePathBuf) : List AbsolutePathBuf :=
  paths.insertionSort fun left right => left ≤ right

/-- A root with its lists in order. -/
def WritableRoot.sorted (root : WritableRoot) : WritableRoot :=
  { root with
    readOnlySubpaths := sortedAbsolutePaths root.readOnlySubpaths
    protectedMetadataNames :=
      (root.protectedMetadataNames.insertionSort fun left right => left ≤ right).dedup }

def sortedWritableRoots (roots : List WritableRoot) : List WritableRoot :=
  (roots.map WritableRoot.sorted).insertionSort fun left right => left.root ≤ right.root

structure FileSystemSemanticSignature where
  hasFullDiskReadAccess : Bool
  hasFullDiskWriteAccess : Bool
  includePlatformDefaults : Bool
  readableRoots : List AbsolutePathBuf
  writableRoots : List WritableRoot
  unreadableRoots : List AbsolutePathBuf
  unreadableGlobs : List Str
  deriving DecidableEq

namespace FileSystemSandboxPolicy

def semanticSignature (policy : FileSystemSandboxPolicy) (cwd : AbsolutePathBuf) :
    FileSystemSemanticSignature :=
  { hasFullDiskReadAccess := policy.hasFullDiskReadAccess
    hasFullDiskWriteAccess := policy.hasFullDiskWriteAccess
    includePlatformDefaults := policy.includePlatformDefaults
    readableRoots := sortedAbsolutePaths (policy.getReadableRootsWithCwd host cwd)
    writableRoots := sortedWritableRoots (policy.getWritableRootsWithCwd host cwd)
    unreadableRoots := sortedAbsolutePaths (policy.getUnreadableRootsWithCwd host cwd)
    unreadableGlobs := policy.getUnreadableGlobsWithCwd host cwd }

end FileSystemSandboxPolicy

def protectedMetadataNamesNeedDirectRuntimeEnforcement (policy : FileSystemSandboxPolicy)
    (legacyPolicy : SandboxPolicy) (cwd : AbsolutePathBuf) : Bool :=
  let legacyRoots := legacyPolicy.getWritableRootsWithCwd host cwd
  (policy.getWritableRootsWithCwd host cwd).any fun writableRoot =>
    match legacyRoots.find? fun candidate => candidate.root = writableRoot.root with
    | none => !writableRoot.protectedMetadataNames.isEmpty
    | some legacyRoot => writableRoot.protectedMetadataNames.any fun metadataName =>
      !legacyRoot.readOnlySubpaths.any fun subpath => subpath = writableRoot.root ++ [metadataName]

def FileSystemSandboxPolicy.needsDirectRuntimeEnforcement (policy : FileSystemSandboxPolicy)
    (networkPolicy : NetworkSandboxPolicy) (cwd : AbsolutePathBuf) : Bool :=
  if policy.kind ≠ .restricted then false
  else
    match policy.toLegacySandboxPolicy host networkPolicy cwd with
    | .error _ => true
    | .ok legacyPolicy =>
      if protectedMetadataNamesNeedDirectRuntimeEnforcement host policy legacyPolicy cwd then true
      else
        policy.semanticSignature host cwd ≠
          (legacyRuntimeFileSystemPolicyForCwd host legacyPolicy cwd).semanticSignature host cwd

end Codex.Permissions
