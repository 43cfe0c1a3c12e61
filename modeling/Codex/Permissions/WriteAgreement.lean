import Codex.Permissions.WritableRoots

/-!
# Checking a write against enforcing it

`can_write_path_with_cwd` decides whether a patch may write a path; the platform
sandboxes enforce the writable roots of the same policy. Both are brought down
to the resolved entries, and then compared: on a path without `..` they agree everywhere
except below a protected name of the entry that decides the path. With `..` the check looks at
the path that is meant, and the roots only at the names in front.
-/

namespace Codex.Permissions

open List Codex.Text FileSystemSandboxPolicy FileSystemAccessMode

/-! ## The check, on resolved entries -/

section Check

variable {entries : List ResolvedFileSystemEntry} {target : AbsolutePathBuf}

/-- The write is refused because of a protected name. -/
def MetadataDenied (entries : List ResolvedFileSystemEntry) (target : AbsolutePathBuf) : Prop :=
  ∃ x name, metadataChild entries target = some (x, name) ∧
    hasExplicitWriteEntry entries x target = false

def WriteAllowed (entries : List ResolvedFileSystemEntry) (target : AbsolutePathBuf) : Prop :=
  resolveAccess entries target = .write ∧ ¬ MetadataDenied entries target

theorem metadataChild_eq_some {x : AbsolutePathBuf} {name : Str}
    (h : metadataChild entries target = some (x, name)) :
    ∃ w ∈ entries, w.access = .write ∧ name ∈ protectedMetadataPathNames ∧
      x = w.path ++ [name] ∧ x <+: target := by
  obtain ⟨w, hw, heq⟩ := exists_of_findSome?_eq_some h
  rw [mem_filter, canWrite_eq_true] at hw
  split at heq
  next hp =>
    obtain ⟨rest, rfl⟩ := hp
    rw [drop_left] at heq
    split at heq
    next => cases heq
    next first rest =>
      split at heq
      next hname =>
        cases heq
        exact ⟨w, hw.1, hw.2, hname, rfl, rest, by simp⟩
      next => cases heq
  next => cases heq

theorem exists_metadataChild {w : ResolvedFileSystemEntry} {name : Str} (hw : w ∈ entries)
    (haccess : w.access = .write) (hname : name ∈ protectedMetadataPathNames)
    (hp : w.path ++ [name] <+: target) : ∃ x n, metadataChild entries target = some (x, n) := by
  cases h : metadataChild entries target with
  | some child => exact ⟨child.1, child.2, rfl⟩
  | none =>
    have hnone := findSome?_eq_none_iff.1 h w
      (mem_filter.2 ⟨hw, canWrite_eq_true.2 haccess⟩)
    obtain ⟨rest, rfl⟩ := hp
    simp [List.append_assoc, hname] at hnone

theorem hasExplicitWriteEntry_eq_true {x : AbsolutePathBuf} :
    hasExplicitWriteEntry entries x target = true ↔
      ∃ w ∈ entries, w.access = .write ∧ w.path <+: target ∧ x <+: w.path := by
  simp [hasExplicitWriteEntry, and_assoc]

variable {e : ResolvedFileSystemEntry}

/-- Where a writable entry decides, a write is refused exactly when this entry is the first that
has the target below a protected name. -/
theorem metadataDenied_iff (he : Decides entries target e) (haccess : e.access = .write) :
    MetadataDenied entries target ↔
      ∃ name, metadataChild entries target = some (e.path ++ [name], name) := by
  constructor
  · rintro ⟨x, name, hchild, hexplicit⟩
    obtain ⟨w, hw, hwa, -, rfl, hp⟩ := metadataChild_eq_some hchild
    have hwe : w.path <+: e.path := he.deepest w hw ((prefix_append _ _).trans hp)
    by_cases heq : w.path = e.path
    · exact ⟨name, heq ▸ hchild⟩
    · -- An entry strictly above `e` is overruled by `e` itself.
      have hinside : w.path ++ [name] <+: e.path := by
        obtain ⟨n, hn⟩ := exists_child hwe heq
        rw [child_unique hp (hn.trans he.covers)]
        exact hn
      have hex := hasExplicitWriteEntry_eq_true.2 ⟨e, he.mem, haccess, he.covers, hinside⟩
      rw [hex] at hexplicit
      cases hexplicit
  · rintro ⟨name, hchild⟩
    refine ⟨_, name, hchild, ?_⟩
    rw [Bool.eq_false_iff, ne_eq, hasExplicitWriteEntry_eq_true]
    rintro ⟨w, hw, -, hp, hinside⟩
    exact child_not_prefix (hinside.trans (he.deepest w hw hp))

theorem writeAllowed_iff (he : Decides entries target e) : WriteAllowed entries target ↔
      e.access = .write ∧ ∀ name, metadataChild entries target ≠ some (e.path ++ [name], name) := by
  rw [WriteAllowed, he.resolveAccess_eq]
  refine and_congr_right fun haccess => ?_
  rw [metadataDenied_iff he haccess, not_exists]

/-- A path with an entry of its own is writable exactly when its access is. -/
theorem writeAllowed_at_entry (he : e ∈ entries) :
    WriteAllowed entries e.path ↔ resolveAccess entries e.path = .write := by
  obtain ⟨e', hd, hpath⟩ := decides_at_entry he
  rw [writeAllowed_iff hd, hd.resolveAccess_eq]
  refine and_iff_left_of_imp fun _ name hchild => ?_
  obtain ⟨w, -, -, -, -, hp⟩ := metadataChild_eq_some hchild
  rw [hpath] at hp
  exact child_not_prefix hp

end Check

section Policy

variable {host : Host} {policy : FileSystemSandboxPolicy} {cwd target : AbsolutePathBuf}
  {path : Path}

theorem resolveAccessWithCwd_of_resolve (hkind : policy.kind = .restricted)
    (hpath : resolveCandidatePath host path cwd = some target) :
    policy.resolveAccessWithCwd host path cwd =
      resolveAccess (policy.resolvedEntriesWithCwd host cwd) target := by
  unfold resolveAccessWithCwd
  rw [hkind, hpath]

theorem resolveAccessWithCwd_of_unresolved (hkind : policy.kind = .restricted)
    (hpath : resolveCandidatePath host path cwd = none) :
    policy.resolveAccessWithCwd host path cwd = .deny := by
  unfold resolveAccessWithCwd
  rw [hkind, hpath]

theorem resolveAccessWithCwd_asPath (hkind : policy.kind = .restricted) (p : AbsolutePathBuf) :
    policy.resolveAccessWithCwd host p.asPath cwd =
      resolveAccess (policy.resolvedEntriesWithCwd host cwd) p :=
  resolveAccessWithCwd_of_resolve hkind (resolveCandidatePath_asPath host p cwd)

theorem canWritePathWithCwd_of_resolve (hkind : policy.kind = .restricted)
    (hpath : resolveCandidatePath host path cwd = some target) :
    policy.canWritePathWithCwd host path cwd = policy.canWritePathWithCwd host target.asPath cwd := by
  unfold canWritePathWithCwd isMetadataWriteDenied
  rw [resolveAccessWithCwd_of_resolve hkind hpath, resolveAccessWithCwd_asPath hkind, hpath,
    resolveCandidatePath_asPath]

theorem isMetadataWriteDenied_asPath (host : Host) (cwd : AbsolutePathBuf)
    (hkind : policy.kind = .restricted) (p : AbsolutePathBuf) :
    policy.isMetadataWriteDenied host p.asPath cwd = true ↔
      MetadataDenied (policy.resolvedEntriesWithCwd host cwd) p := by
  unfold isMetadataWriteDenied MetadataDenied
  rw [if_pos hkind, resolveCandidatePath_asPath]
  simp only [metadataChildOfWritableRoot, hasExplicitWriteEntryForMetadataPath]
  cases hchild : metadataChild (policy.resolvedEntriesWithCwd host cwd) p with
  | none => simp
  | some child =>
    obtain ⟨x, name⟩ := child
    simp

/-- Without full disk access, the check is decided by the resolved entries. -/
theorem canWritePathWithCwd_asPath (hkind : policy.kind = .restricted)
    (hfull : policy.hasFullDiskWriteAccess = false) (p : AbsolutePathBuf) :
    policy.canWritePathWithCwd host p.asPath cwd = true ↔
      WriteAllowed (policy.resolvedEntriesWithCwd host cwd) p := by
  have hdenied := isMetadataWriteDenied_asPath host cwd hkind p
  unfold canWritePathWithCwd WriteAllowed
  rw [resolveAccessWithCwd_asPath hkind, hfull, ← hdenied]
  simp

/-! ## The roots, on resolved entries -/

/-- Nothing in the file system has a protected name. -/
def NoMetadata (host : Host) : Prop :=
  ∀ path, ∀ name ∈ protectedMetadataPathNames,
    host.isDir (path ++ [name]) = false ∧ host.isFile (path ++ [name]) = false

theorem stripPrefix_asPath (p base : AbsolutePathBuf) :
    p.asPath.stripPrefix base =
      if base <+: p then some ((p.drop base.length).map Component.normal) else none := by
  have hinj : Function.Injective Component.normal := fun _ _ h => Component.normal.inj h
  rw [Path.stripPrefix, AbsolutePathBuf.asPath, map_drop]
  simp only [Bool.true_and, decide_eq_true_eq, prefix_map_iff_of_injective hinj]

theorem startsWith_asPath (p base : AbsolutePathBuf) :
    p.asPath.startsWith base = true ↔ base <+: p := by
  rw [Path.startsWith, stripPrefix_asPath]
  split
  next h => simp [h]
  next h => simp [h]

theorem pathContainsProtectedMetadataName_asPath (root : WritableRoot) (p : AbsolutePathBuf) :
    root.pathContainsProtectedMetadataName p.asPath = true ↔
      ∃ name ∈ root.protectedMetadataNames, root.root ++ [name] <+: p := by
  rw [WritableRoot.pathContainsProtectedMetadataName, stripPrefix_asPath]
  by_cases hp : root.root <+: p
  · obtain ⟨rest, rfl⟩ := hp
    rw [if_pos (prefix_append _ _), drop_left]
    cases rest with
    | nil =>
      simp only [map_nil, append_nil, Bool.false_eq_true, false_iff, not_exists, not_and]
      exact fun _ _ => child_not_prefix
    | cons first rest =>
      simp only [map_cons, any_eq_true, decide_eq_true_eq, Component.normal.injEq]
      refine exists_congr fun name => and_congr_right fun _ => ?_
      rw [prefix_append_right_inj, cons_prefix_cons]
      simp [eq_comm]
  · rw [if_neg hp]
    simp only [Bool.false_eq_true, false_iff, not_exists, not_and]
    exact fun name _ h => hp ((prefix_append _ _).trans h)

theorem isPathWritable_asPath (root : WritableRoot) (p : AbsolutePathBuf) :
    root.isPathWritable p.asPath = true ↔
      root.root <+: p ∧ (∀ subpath ∈ root.readOnlySubpaths, ¬ subpath <+: p) ∧
        ∀ name ∈ root.protectedMetadataNames, ¬ root.root ++ [name] <+: p := by
  have hsub : (root.readOnlySubpaths.any fun subpath => p.asPath.startsWith subpath) = true ↔
      ∃ subpath ∈ root.readOnlySubpaths, subpath <+: p := by
    simp only [any_eq_true, startsWith_asPath]
  have hname := pathContainsProtectedMetadataName_asPath root p
  unfold WritableRoot.isPathWritable
  rw [← startsWith_asPath p root.root]
  by_cases h₁ : p.asPath.startsWith root.root = true
  · by_cases h₂ : (root.readOnlySubpaths.any fun subpath => p.asPath.startsWith subpath) = true
    · obtain ⟨subpath, hmem, hle⟩ := hsub.1 h₂
      simp only [h₁, h₂, Bool.not_true, Bool.false_eq_true, if_false, if_true, false_iff]
      exact fun h => h.2.1 subpath hmem hle
    · by_cases h₃ : root.pathContainsProtectedMetadataName p.asPath = true
      · obtain ⟨name, hmem, hle⟩ := hname.1 h₃
        simp only [h₁, h₂, h₃, Bool.not_true, Bool.false_eq_true, if_false, if_true, false_iff]
        exact fun h => h.2.2 name hmem hle
      · simp only [h₁, h₂, h₃, Bool.not_true, Bool.false_eq_true, if_false, true_and, true_iff]
        exact ⟨fun subpath hmem hle => h₂ (hsub.2 ⟨subpath, hmem, hle⟩),
          fun name hmem hle => h₃ (hname.2 ⟨name, hmem, hle⟩)⟩
  · simp [h₁]

/-- The names in front of the first `..`. -/
def frontNames : List Component → AbsolutePathBuf
  | .normal name :: rest => name :: frontNames rest
  | _ => []

theorem prefix_frontNames {components : List Component} {base : AbsolutePathBuf} :
    base.map Component.normal <+: components ↔ base <+: frontNames components := by
  induction base generalizing components with
  | nil => simp only [map_nil, nil_prefix]
  | cons name base ih =>
    cases components with
    | nil => simp [frontNames]
    | cons component components =>
      cases component with
      | normal name' => simp [frontNames, cons_prefix_cons, ih]
      | curDir | parentDir => simp [frontNames, cons_prefix_cons]

theorem frontNames_append (base : AbsolutePathBuf) (components : List Component) :
    frontNames (base.map Component.normal ++ components) = base ++ frontNames components := by
  induction base with
  | nil => rfl
  | cons name base ih => exact congrArg (name :: ·) ih

/-- A root compares components: it sees a path as far as the first `..`. -/
theorem isPathWritable_of_hasRoot {p : Path} (hp : p.hasRoot = true) (root : WritableRoot) :
    root.isPathWritable p = root.isPathWritable (frontNames p.components).asPath := by
  have hstarts : ∀ base : AbsolutePathBuf,
      p.startsWith base = (frontNames p.components).asPath.startsWith base := by
    intro base
    rw [Bool.eq_iff_iff, startsWith_asPath, ← prefix_frontNames]
    simp [Path.startsWith, Path.stripPrefix, hp, Option.isSome_iff_exists]
  have hnames : root.pathContainsProtectedMetadataName p =
      root.pathContainsProtectedMetadataName (frontNames p.components).asPath := by
    unfold WritableRoot.pathContainsProtectedMetadataName
    rw [stripPrefix_asPath, Path.stripPrefix, hp]
    simp only [Bool.true_and, decide_eq_true_eq, prefix_frontNames]
    by_cases hcovers : root.root <+: frontNames p.components
    · obtain ⟨rest, hrest⟩ := prefix_frontNames.2 hcovers
      rw [if_pos hcovers, if_pos hcovers, ← hrest, frontNames_append, drop_left' (by simp),
        drop_left' rfl]
      cases rest with
      | nil => rfl
      | cons component rest =>
        cases component with
        | normal name => rfl
        | curDir => simp [frontNames]
        | parentDir => simp [frontNames]
    · rw [if_neg hcovers, if_neg hcovers]
  unfold WritableRoot.isPathWritable
  simp only [hstarts, hnames]

/-- Of the writable entries that have the path below a protected name, the one at `r` comes
first. -/
def Shields (entries : List ResolvedFileSystemEntry) (r : AbsolutePathBuf) (name : Str) : Prop :=
  metadataChild entries (r ++ [name]) = some (r ++ [name], name)

/-- The root at `r` leaves `p` writable. -/
structure RootOpen (entries : List ResolvedFileSystemEntry) (cwd p r : AbsolutePathBuf) : Prop where
  covers : r <+: p
  writable : ∃ e ∈ entries, e.path = r ∧ e.access = .write
  /-- No entry from the root down to the path takes the access back. -/
  carveouts : ∀ e ∈ entries, r <+: e.path → e.path <+: p → resolveAccess entries e.path = .write
  /-- The name that follows has an entry of its own, or it is not protected. -/
  unshielded : ∀ name, r ++ [name] <+: p → (∃ e ∈ entries, e.path = r ++ [name]) ∨
    ¬ Shields entries r name ∧ ¬ (r = cwd ∧ name = codexName)

theorem Shields.mem_names {entries : List ResolvedFileSystemEntry} {r : AbsolutePathBuf}
    {name : Str} (h : Shields entries r name) : name ∈ protectedMetadataPathNames := by
  obtain ⟨-, -, -, hname, -, -⟩ := metadataChild_eq_some h
  exact hname

/-- Right below a writable entry, if nothing is said there. -/
theorem writeAllowed_child {entries : List ResolvedFileSystemEntry} {r : AbsolutePathBuf}
    {name : Str} (hw : ∃ e ∈ entries, e.path = r) (haccess : resolveAccess entries r = .write)
    (hno : ∀ e ∈ entries, e.path ≠ r ++ [name]) :
    WriteAllowed entries (r ++ [name]) ↔ ¬ Shields entries r name := by
  obtain ⟨w, hw, rfl⟩ := hw
  obtain ⟨e, hd, hpath⟩ := decides_at_entry hw
  have hd' : Decides entries (w.path ++ [name]) e := by
    refine hd.extend (prefix_append _ _) fun e' he' hp => ?_
    rcases prefix_child_iff.1 hp with heq | hle
    · exact absurd heq (hno e' he')
    · exact hle
  rw [hd.resolveAccess_eq] at haccess
  rw [writeAllowed_iff hd', hpath]
  refine ⟨fun h => h.2 name, fun h => ⟨haccess, fun name' hchild => ?_⟩⟩
  obtain ⟨-, -, -, -, -, hp⟩ := metadataChild_eq_some hchild
  rw [child_unique hp (prefix_refl _)] at hchild
  exact h hchild

section Roots

variable (hkind : policy.kind = .restricted) (hfull : policy.hasFullDiskWriteAccess = false)
  (hlinks : SymlinkFree host)

include hkind hfull

theorem mem_writableEntries {path : AbsolutePathBuf} :
    path ∈ policy.writableEntries host cwd ↔
      (∃ e ∈ policy.resolvedEntriesWithCwd host cwd, e.path = path ∧ e.access = .write) ∧
        resolveAccess (policy.resolvedEntriesWithCwd host cwd) path = .write := by
  rw [writableEntries, mem_map]
  simp only [mem_filter, Bool.and_eq_true, canWrite_eq_true,
    canWritePathWithCwd_asPath hkind hfull]
  constructor
  · rintro ⟨e, ⟨he, haccess, hallowed⟩, rfl⟩
    exact ⟨⟨e, he, rfl, haccess⟩, (writeAllowed_at_entry he).1 hallowed⟩
  · rintro ⟨⟨e, he, rfl, haccess⟩, haccess'⟩
    exact ⟨e, ⟨he, haccess, (writeAllowed_at_entry he).2 haccess'⟩, rfl⟩

include hlinks

omit hkind hfull in
theorem mem_dedupAbsolutePaths {paths : List AbsolutePathBuf} {normalize : Bool}
    {path : AbsolutePathBuf} : path ∈ dedupAbsolutePaths host paths normalize ↔ path ∈ paths := by
  rw [dedupAbsolutePaths, mem_pushUnique, mem_map]
  simp only [hlinks.normalizeEffectiveAbsolutePath_eq, ite_self, not_mem_nil, false_or,
    exists_eq_right]

variable {root : AbsolutePathBuf}

/-- The protected names of a root. -/
theorem mem_protectedMetadataNames {name : Str} :
    name ∈ (policy.writableRootAt host cwd root).protectedMetadataNames ↔
      name ∈ protectedMetadataPathNames ∧
        ¬ WriteAllowed (policy.resolvedEntriesWithCwd host cwd) (root ++ [name]) := by
  rw [writableRootAt]
  simp only [protectedMetadataNamesForWritableRoot, mem_filter, map_cons, all_cons,
    Bool.and_eq_true, all_eq_true, mem_map, Bool.not_eq_true', decide_eq_true_eq,
    hlinks.normalizeEffectiveAbsolutePath_eq]
  refine and_congr_right fun _ => ?_
  rw [← canWritePathWithCwd_asPath hkind hfull, Bool.not_eq_true]
  refine and_iff_left_of_imp fun h path hpath => ?_
  obtain ⟨raw, ⟨-, rfl⟩, rfl⟩ := hpath
  exact h

omit hkind hfull in
theorem carveoutPath_eq (root : AbsolutePathBuf) {raws : List AbsolutePathBuf}
    (hraws : ∀ raw ∈ raws, raw = root) (path : AbsolutePathBuf) :
    carveoutPath host root raws path =
      if root <+: path ∧ path ≠ root then some path else none := by
  rw [carveoutPath, hlinks.normalizeEffectiveAbsolutePath_eq]
  have hnone : ¬ root <+: path → (raws.findSome? fun rawRoot =>
      if rawRoot <+: path then
        if path.drop rawRoot.length = [] then none
        else some (resolvePathAgainstBase host
          ⟨false, (path.drop rawRoot.length).map .normal⟩ root)
      else none) = none := by
    intro hp
    rw [findSome?_eq_none_iff]
    intro raw hraw
    rw [hraws raw hraw, if_neg hp]
  by_cases heq : path = root
  · subst heq
    simp
  · by_cases hp : root <+: path
    · simp only [heq, hp, if_false, if_true, decide_false, decide_true, Bool.not_true,
        Bool.or_self, Bool.false_eq_true, ne_eq, not_false_eq_true, and_self]
      cases root.parent.isSome <;> rfl
    · simp only [heq, hp, if_false, hnone hp, ite_self, decide_false, Bool.not_false, Bool.or_true,
        if_true, false_and]

omit hkind hfull in
theorem mem_defaultReadOnlySubpaths (hmeta : NoMetadata host) {path : AbsolutePathBuf}
    {protect : Bool} : path ∈ defaultReadOnlySubpathsForWritableRoot host root protect ↔
      protect = true ∧ path = root ++ [codexName] := by
  have hgit := hmeta root gitName (by simp [protectedMetadataPathNames])
  have hagents := hmeta root agentsName (by simp [protectedMetadataPathNames])
  have hcodex := hmeta root codexName (by simp [protectedMetadataPathNames])
  rw [defaultReadOnlySubpathsForWritableRoot, mem_dedupAbsolutePaths hlinks, hgit.1, hgit.2,
    hagents.1, hcodex.1]
  cases protect <;> simp

/-- The read-only subpaths of a root: `.codex` in the working directory, and the entries below
that are not writable. -/
theorem mem_readOnlySubpaths (hmeta : NoMetadata host) {path : AbsolutePathBuf} :
    path ∈ (policy.writableRootAt host cwd root).readOnlySubpaths ↔
      (root = cwd ∧ path = root ++ [codexName] ∧
        ∀ e ∈ policy.resolvedEntriesWithCwd host cwd, e.path ≠ path) ∨
      ((∃ e ∈ policy.resolvedEntriesWithCwd host cwd, e.path = path) ∧ root <+: path ∧
        path ≠ root ∧ resolveAccess (policy.resolvedEntriesWithCwd host cwd) path ≠ .write) := by
  have hexplicit : hasExplicitResolvedPathEntry (policy.resolvedEntriesWithCwd host cwd) path = false ↔
      ∀ e ∈ policy.resolvedEntriesWithCwd host cwd, e.path ≠ path := by
    simp [hasExplicitResolvedPathEntry]
  rw [writableRootAt]
  simp only [mem_dedupAbsolutePaths hlinks, mem_append, mem_filter,
    mem_defaultReadOnlySubpaths hlinks hmeta, mem_filterMap, Bool.not_eq_true', hexplicit,
    hlinks.normalizeEffectiveAbsolutePath_eq, decide_eq_true_eq, Bool.and_eq_true, and_assoc]
  refine or_congr (and_congr_left' eq_comm) ?_
  have hcarve : ∀ e : ResolvedFileSystemEntry, carveoutPath host root
      ((policy.writableEntries host cwd).filter fun p => p = root) e.path = some path ↔
        e.path = path ∧ root <+: path ∧ path ≠ root := by
    intro e
    rw [carveoutPath_eq hlinks root (fun raw hraw => of_decide_eq_true (mem_filter.1 hraw).2)]
    constructor
    · intro h
      split at h
      next hle =>
        cases h
        exact ⟨rfl, hle⟩
      next => cases h
    · rintro ⟨rfl, hle⟩
      exact if_pos hle
  simp only [hcarve]
  constructor
  · rintro ⟨e, he, haccess, hdenied, rfl, hle, hne⟩
    refine ⟨⟨e, he, rfl⟩, hle, hne, fun hw => ?_⟩
    rw [(canWritePathWithCwd_asPath hkind hfull _).2 ((writeAllowed_at_entry he).2 hw)] at hdenied
    cases hdenied
  · rintro ⟨⟨e, he, rfl⟩, hle, hne, hw⟩
    -- The entry that decides its own path is not a writable one.
    obtain ⟨e', hd, hpath⟩ := decides_at_entry he
    refine ⟨e', hd.mem, ?_, ?_, hpath, hle, hne⟩
    · rw [hd.resolveAccess_eq] at hw
      rw [Bool.eq_false_iff, ne_eq, canWrite_eq_true]
      exact hw
    · rw [Bool.eq_false_iff, ne_eq, canWritePathWithCwd_asPath hkind hfull, hpath,
        writeAllowed_at_entry he]
      exact hw

/-- **Some root leaves the path writable exactly when a writable entry does.** -/
theorem exists_isPathWritable_iff (hmeta : NoMetadata host) (p : AbsolutePathBuf) :
    (∃ root ∈ policy.getWritableRootsWithCwd host cwd, root.isPathWritable p.asPath = true) ↔
      ∃ r, RootOpen (policy.resolvedEntriesWithCwd host cwd) cwd p r := by
  rw [getWritableRootsWithCwd, hfull]
  simp only [Bool.false_eq_true, if_false, mem_map, mem_dedupAbsolutePaths hlinks,
    mem_writableEntries hkind hfull, exists_exists_and_eq_and, isPathWritable_asPath]
  refine exists_congr fun r => ⟨?_, ?_⟩
  · rintro ⟨⟨hw, haccess⟩, hcov, hsub, hnames⟩
    have hw' : ∃ e ∈ policy.resolvedEntriesWithCwd host cwd, e.path = r := by
      obtain ⟨e, he, heq, -⟩ := hw
      exact ⟨e, he, heq⟩
    refine ⟨hcov, hw, fun e he hle hp => ?_, fun name hp => ?_⟩
    · by_contra hne
      refine hsub e.path ((mem_readOnlySubpaths hkind hfull hlinks hmeta).2
        (.inr ⟨⟨e, he, rfl⟩, hle, ?_, hne⟩)) hp
      rintro heq
      exact hne (heq ▸ haccess)
    · by_cases hentry : ∃ e ∈ policy.resolvedEntriesWithCwd host cwd, e.path = r ++ [name]
      · exact .inl hentry
      · have hno := fun e he heq => hentry ⟨e, he, heq⟩
        refine .inr ⟨fun hshields => ?_, fun ⟨hr, hname⟩ => ?_⟩
        · refine hnames name ((mem_protectedMetadataNames hkind hfull hlinks).2
            ⟨hshields.mem_names, fun hallowed => ?_⟩) hp
          exact (writeAllowed_child hw' haccess hno).1 hallowed hshields
        · exact hsub _ ((mem_readOnlySubpaths hkind hfull hlinks hmeta).2
            (.inl ⟨hr, rfl, hname ▸ hno⟩)) (hname ▸ hp)
  · intro h
    obtain ⟨w, hw, hwr, hwa⟩ := h.writable
    have haccess : resolveAccess (policy.resolvedEntriesWithCwd host cwd) r = .write :=
      hwr ▸ h.carveouts w hw (hwr ▸ prefix_refl _) (hwr ▸ h.covers)
    refine ⟨⟨h.writable, haccess⟩, h.covers, fun subpath hsub hp => ?_, fun name hname hp => ?_⟩
    · rcases (mem_readOnlySubpaths hkind hfull hlinks hmeta).1 hsub with
        ⟨hr, rfl, hno⟩ | ⟨⟨e, he, rfl⟩, hle, -, hne⟩
      · rcases h.unshielded codexName hp with ⟨e, he, heq⟩ | ⟨-, hcodex⟩
        · exact hno e he heq
        · exact hcodex ⟨hr, rfl⟩
      · exact hne (h.carveouts e he hle hp)
    · obtain ⟨hname, hdenied⟩ := (mem_protectedMetadataNames hkind hfull hlinks).1 hname
      by_cases hentry : ∃ e ∈ policy.resolvedEntriesWithCwd host cwd, e.path = r ++ [name]
      · obtain ⟨e, he, heq⟩ := hentry
        refine hdenied (heq ▸ (writeAllowed_at_entry he).2 (h.carveouts e he ?_ (heq ▸ hp)))
        exact heq ▸ prefix_append _ _
      · rcases h.unshielded name hp with hentry' | ⟨hshields, -⟩
        · exact hentry hentry'
        · refine hdenied ((writeAllowed_child ⟨w, hw, hwr⟩ haccess ?_).2 hshields)
          exact fun e he heq => hentry ⟨e, he, heq⟩

end Roots

/-! ## Full disk access -/

/-- Paths that share a target resolve alike, unless `/tmp` is named but is not there. -/
theorem resolveEntryPath_eq_of_shareTarget {left right : FileSystemPath}
    (htmp : host.isDir slashTmpPath = true ∨ left.isPlain = true ∧ right.isPlain = true)
    (h : fileSystemPathsShareTarget left right = true) :
    resolveEntryPath host left cwd = resolveEntryPath host right cwd := by
  have hroot : ∀ path : AbsolutePathBuf, path.parent.isNone = true → path = [] := by
    intro path h
    cases path with
    | nil => rfl
    | cons n path => cases h
  have hslash : host.isDir slashTmpPath = true →
      resolveEntryPath host (.special .slashTmp) cwd = some slashTmpPath := fun h => if_pos h
  cases left with
  | globPattern l =>
    cases right with
    | globPattern r => rfl
    | path r => cases h
    | special r => cases h
  | path l =>
    cases right with
    | globPattern r => cases h
    | path r => rw [of_decide_eq_true h]
    | special r =>
      cases r with
      | root => exact congrArg some (hroot l h)
      | slashTmp =>
        rcases htmp with htmp | htmp
        · rw [hslash htmp]
          exact congrArg some (of_decide_eq_true h)
        · cases htmp.2
      | minimal | projectRoots | tmpdir | unknown => cases h
  | special l =>
    cases right with
    | globPattern r => cases h
    | path r =>
      cases l with
      | root => exact congrArg some (hroot r h).symm
      | slashTmp =>
        rcases htmp with htmp | htmp
        · rw [hslash htmp]
          exact congrArg some (of_decide_eq_true h).symm
        · cases htmp.1
      | minimal | projectRoots | tmpdir | unknown => cases h
    | special r =>
      cases l with
      | projectRoots l =>
        cases r with
        | projectRoots r => rw [show l = r from of_decide_eq_true h]
        | root | minimal | tmpdir | slashTmp | unknown => cases h
      | unknown l lsub =>
        cases r with
        | unknown r rsub => rfl
        | root | minimal | projectRoots | tmpdir | slashTmp => cases h
      | root | minimal | tmpdir | slashTmp => cases r <;> first | rfl | cases h

theorem mem_resolvedEntries_root (host : Host) (cwd : AbsolutePathBuf)
    {allows : FileSystemAccessMode → Bool} (h : policy.hasRootAccess allows = true) :
    ∃ e ∈ policy.resolvedEntriesWithCwd host cwd, e.path = [] ∧ allows e.access = true := by
  obtain ⟨-, entry, hentry, hpath, hallows⟩ := hasRootAccess_iff.1 h
  refine ⟨⟨[], entry.access⟩, mem_resolvedEntries.2 ⟨entry, hentry, ?_, rfl⟩, rfl, hallows⟩
  rw [hpath]
  rfl

/-- With full disk access nothing narrows the entry for the root, where entries that share a
target resolve alike. -/
theorem resolveAccess_of_fullDisk (hkind : policy.kind = .restricted)
    (hshare : ∀ left ∈ policy.entries, ∀ right ∈ policy.entries,
      fileSystemPathsShareTarget left.path right.path = true →
        resolveEntryPath host left.path cwd = resolveEntryPath host right.path cwd)
    (hfull : policy.hasFullDiskWriteAccess = true) (p : AbsolutePathBuf) :
    resolveAccess (policy.resolvedEntriesWithCwd host cwd) p = .write := by
  simp only [hasFullDiskWriteAccess, hkind, Bool.and_eq_true,
    Bool.not_eq_true'] at hfull
  obtain ⟨hroot, hnarrow⟩ := hfull
  obtain ⟨root, hmem, hnil, hwrite⟩ := mem_resolvedEntries_root host cwd hroot
  rw [canWrite_eq_true] at hwrite
  obtain ⟨e, he⟩ : ∃ e, Decides (policy.resolvedEntriesWithCwd host cwd) p e :=
    exists_governs hmem (hnil ▸ nil_prefix)
  rw [he.resolveAccess_eq]
  by_contra hne
  obtain ⟨entry, hentry, hresolve, haccess⟩ := mem_resolvedEntries.1 he.mem
  rw [← haccess] at hne
  -- A writable entry at the same place outranks a readable one.
  have hread : ∀ w ∈ policy.resolvedEntriesWithCwd host cwd, w.access = .write →
      w.path = e.path → entry.access ≠ .read := by
    intro w hw hwrite heq hr
    have hrank := he.strongest w hw heq
    rw [hwrite, ← haccess, hr] at hrank
    exact absurd hrank (by decide)
  have hoverride : policy.hasSameTargetWriteOverride entry ≠ true := by
    intro h
    obtain ⟨hr, candidate, hc, hcw, htarget⟩ :=
      hasSameTargetWriteOverride_iff.1 h
    refine hread ⟨e.path, .write⟩ (mem_resolvedEntries.2 ⟨candidate, hc, ?_, hcw⟩) rfl rfl hr
    rw [hshare candidate hc entry hentry htarget, hresolve]
  refine Bool.eq_false_iff.1 hnarrow
    (hasWriteNarrowingEntries_iff.2 ⟨hkind, entry, hentry, ?_⟩)
  have hcan : entry.access.canWrite = false := by simpa [Bool.eq_false_iff] using hne
  rw [narrowsWrites, hcan, Bool.not_false, Bool.true_and]
  rw [ne_eq, Bool.not_eq_true] at hoverride
  obtain ⟨path, access⟩ := entry
  cases path with
  | path q => simp only [hoverride, Bool.not_false]
  | globPattern pattern => rfl
  | special value =>
    cases value with
    | root =>
      have hnot := hread root hmem hwrite (hnil.trans (Option.some.inj hresolve))
      cases access with
      | read => exact absurd rfl hnot
      | write => exact absurd rfl hne
      | deny => rfl
    | minimal => cases hresolve
    | unknown name subpath => cases hresolve
    | projectRoots | tmpdir | slashTmp => simp only [hoverride, Bool.not_false]

theorem noDeny_of_hasFullDiskReadAccess (hkind : policy.kind = .restricted)
    (hread : policy.hasFullDiskReadAccess = true) :
    ∀ e ∈ policy.resolvedEntriesWithCwd host cwd, e.access ≠ .deny := by
  intro e he
  obtain ⟨entry, hentry, -, haccess⟩ := mem_resolvedEntries.1 he
  rw [← haccess]
  exact ((hasFullDiskReadAccess_iff hkind).1 hread).2 entry hentry

/-- With full disk access, every path is readable. -/
theorem resolveAccess_ne_deny_of_hasFullDiskReadAccess (hkind : policy.kind = .restricted)
    (hread : policy.hasFullDiskReadAccess = true) (p : AbsolutePathBuf) :
    resolveAccess (policy.resolvedEntriesWithCwd host cwd) p ≠ .deny := by
  have hroot : policy.hasRootAccess canRead = true := by
    rw [hasFullDiskReadAccess, hkind] at hread
    exact (Bool.and_eq_true_iff.1 hread).1
  obtain ⟨root, hmem, hnil, -⟩ := mem_resolvedEntries_root host cwd hroot
  obtain ⟨e, he⟩ : ∃ e, Decides (policy.resolvedEntriesWithCwd host cwd) p e :=
    exists_governs hmem (hnil ▸ nil_prefix)
  rw [he.resolveAccess_eq]
  exact noDeny_of_hasFullDiskReadAccess hkind hread e he.mem

/-- An absolute path is read by its names. -/
theorem access_of_hasRoot (host : Host) (policy : FileSystemSandboxPolicy) (cwd : AbsolutePathBuf)
    {p : Path} (hp : p.hasRoot = true) :
    policy.canReadPathWithCwd host p cwd =
        policy.canReadPathWithCwd host (normalizePath [] p.components).asPath cwd ∧
      policy.canWritePathWithCwd host p cwd =
        policy.canWritePathWithCwd host (normalizePath [] p.components).asPath cwd := by
  simp only [canReadPathWithCwd,
    canWritePathWithCwd, resolveAccessWithCwd,
    isMetadataWriteDenied, resolveCandidatePath_of_hasRoot host hp,
    resolveCandidatePath_asPath, and_self]

theorem canRead_of_hasFullDiskReadAccess (hread : policy.hasFullDiskReadAccess = true)
    (p : AbsolutePathBuf) : policy.canReadPathWithCwd host p.asPath cwd = true := by
  rw [canReadPathWithCwd, canRead_eq_true]
  cases hkind : policy.kind with
  | restricted =>
    rw [resolveAccessWithCwd_asPath hkind]
    exact resolveAccess_ne_deny_of_hasFullDiskReadAccess hkind hread p
  | unrestricted | externalSandbox => simp [resolveAccessWithCwd, hkind]

theorem canWrite_of_hasFullDiskWriteAccess (hkind : policy.kind = .restricted)
    (htmp : host.isDir slashTmpPath = true) (hfull : policy.hasFullDiskWriteAccess = true)
    (p : AbsolutePathBuf) : policy.canWritePathWithCwd host p.asPath cwd = true := by
  have haccess : resolveAccess (policy.resolvedEntriesWithCwd host cwd) p = .write :=
    resolveAccess_of_fullDisk hkind
      (fun _ _ _ _ => resolveEntryPath_eq_of_shareTarget (.inl htmp)) hfull p
  rw [canWritePathWithCwd, resolveAccessWithCwd_asPath hkind, haccess,
    hfull]
  rfl

/-- **Full access is access to every path**: what a policy answers without looking at a path, it
answers for each. -/
theorem full_disk_access_sound (hkind : policy.kind = .restricted)
    (htmp : host.isDir slashTmpPath = true) (habsolute : path.hasRoot = true) :
    (policy.hasFullDiskWriteAccess = true → policy.canWritePathWithCwd host path cwd = true) ∧
    (policy.hasFullDiskReadAccess = true → policy.canReadPathWithCwd host path cwd = true) := by
  obtain ⟨hread, hwrite⟩ := access_of_hasRoot host policy cwd habsolute
  refine ⟨fun hfull => ?_, fun hfull => ?_⟩
  · rw [hwrite]
    exact canWrite_of_hasFullDiskWriteAccess hkind htmp hfull _
  · rw [hread]
    exact canRead_of_hasFullDiskReadAccess hfull _

/-- A read entry that a write entry overrides does not narrow the root. -/
theorem full_disk_access_sound_overridden :
    (restricted [⟨.special .root, .write⟩, ⟨.special .slashTmp, .read⟩,
      ⟨.path slashTmpPath, .write⟩]).canWritePathWithCwd
        { emptyHost with isDir := fun _ => true } (slashTmpPath ++ [gitName]).asPath [] = true :=
  (full_disk_access_sound rfl rfl rfl).1 (by decide +kernel)

end Policy

/-! ## Where they disagree -/

section Agreement

variable {entries : List ResolvedFileSystemEntry} {cwd p : AbsolutePathBuf}

theorem findSome?_congr {α β : Type} {f g : α → Option β} {l : List α}
    (h : ∀ a ∈ l, f a = g a) : l.findSome? f = l.findSome? g := by
  induction l with
  | nil => rfl
  | cons a l ih =>
    rw [findSome?_cons, findSome?_cons, h a (by simp),
      ih fun b hb => h b (mem_cons_of_mem _ hb)]

variable {e : ResolvedFileSystemEntry}

theorem metadataChild_eq_of_decides {name : Str} (he : Decides entries p e)
    (hp : e.path ++ [name] <+: p) :
    metadataChild entries p = metadataChild entries (e.path ++ [name]) := by
  unfold metadataChild
  apply findSome?_congr
  intro w hw
  rw [mem_filter] at hw
  by_cases hle : w.path <+: e.path
  · obtain ⟨rest, hrest⟩ := hp
    obtain ⟨mid, hmid⟩ := hle
    rw [← hrest, ← hmid]
    cases mid <;> simp
  · have hno : ¬ w.path <+: p := fun h => hle (he.deepest w hw.1 h)
    rw [if_neg hno, if_neg fun h => hno (h.trans hp)]

/-- The entry that decides the path grants it: a writable entry that does not shield the name that
follows. -/
def Granted (entries : List ResolvedFileSystemEntry) (p : AbsolutePathBuf) : Prop :=
  ∃ e, Decides entries p e ∧ e.access = .write ∧
    ∀ name, e.path ++ [name] <+: p → ¬ Shields entries e.path name

/-- Below the entry that decides the path, the check and the roots part: either this entry shields
the name that follows but a root further up leaves the path open, or only the rule for a missing
`.codex` in the working directory closes it. -/
def Disagree (entries : List ResolvedFileSystemEntry) (cwd p : AbsolutePathBuf) : Prop :=
  ∃ e name, Decides entries p e ∧ e.access = .write ∧ e.path ++ [name] <+: p ∧
    (Shields entries e.path name ∧ (∃ r, r ≠ e.path ∧ RootOpen entries cwd p r) ∨
      ¬ Shields entries e.path name ∧ (e.path = cwd ∧ name = codexName) ∧
        ¬ ∃ r, r ≠ e.path ∧ RootOpen entries cwd p r)

theorem rootOpen_decider_iff (he : Decides entries p e) (haccess : e.access = .write) :
    RootOpen entries cwd p e.path ↔ ∀ name, e.path ++ [name] <+: p →
      ¬ Shields entries e.path name ∧ ¬ (e.path = cwd ∧ name = codexName) := by
  have hno : ∀ name, e.path ++ [name] <+: p → ¬ ∃ e' ∈ entries, e'.path = e.path ++ [name] := by
    rintro name hp ⟨e', he', heq⟩
    exact child_not_prefix (heq ▸ he.deepest e' he' (heq ▸ hp))
  constructor
  · intro h name hp
    exact (h.unshielded name hp).resolve_left (hno name hp)
  · intro h
    refine ⟨he.covers, ⟨e, he.mem, rfl, haccess⟩, fun e' he' hle hp => ?_,
      fun name hp => .inr (h name hp)⟩
    rw [← prefix_antisymm hle (he.deepest e' he' hp), Decides.resolveAccess_eq he.self]
    exact haccess

theorem writeAllowed_decider_iff (he : Decides entries p e) (haccess : e.access = .write) :
    WriteAllowed entries p ↔ ∀ name, e.path ++ [name] <+: p → ¬ Shields entries e.path name := by
  rw [writeAllowed_iff he, and_iff_right haccess]
  constructor
  · intro h name hp hshields
    exact h name ((metadataChild_eq_of_decides he hp).trans hshields)
  · intro h name hchild
    obtain ⟨-, -, -, -, -, hp⟩ := metadataChild_eq_some hchild
    exact h name hp ((metadataChild_eq_of_decides he hp).symm.trans hchild)

theorem exists_rootOpen_iff (q : AbsolutePathBuf) :
    (∃ r, RootOpen entries cwd p r) ↔
      RootOpen entries cwd p q ∨ ∃ r, r ≠ q ∧ RootOpen entries cwd p r := by
  constructor
  · rintro ⟨r, h⟩
    by_cases hr : r = q
    · exact .inl (hr ▸ h)
    · exact .inr ⟨r, hr, h⟩
  · rintro (h | ⟨r, -, h⟩)
    · exact ⟨q, h⟩
    · exact ⟨r, h⟩

theorem disagree_iff {name : Str} (he : Decides entries p e) (haccess : e.access = .write)
    (hp : e.path ++ [name] <+: p) : Disagree entries cwd p ↔
      Shields entries e.path name ∧ (∃ r, r ≠ e.path ∧ RootOpen entries cwd p r) ∨
        ¬ Shields entries e.path name ∧ (e.path = cwd ∧ name = codexName) ∧
          ¬ ∃ r, r ≠ e.path ∧ RootOpen entries cwd p r := by
  constructor
  · rintro ⟨e', name', he', -, hp', h⟩
    have hpath : e'.path = e.path := he'.path_unique he
    rw [hpath] at hp' h
    rw [child_unique hp' hp] at h
    exact h
  · exact fun h => ⟨e, name, he, haccess, hp, h⟩

/-- On resolved entries, the two answers agree exactly where they do not disagree. -/
theorem agree_iff_not_disagree :
    (WriteAllowed entries p ↔ ∃ r, RootOpen entries cwd p r) ↔ ¬ Disagree entries cwd p := by
  rcases resolveAccess_spec entries p with ⟨e, he, hres⟩ | ⟨hno, hdeny⟩
  · by_cases haccess : e.access = .write
    · have hallowed := writeAllowed_decider_iff he haccess
      have hroot : RootOpen entries cwd p e.path ↔ _ := rootOpen_decider_iff he haccess
      by_cases hname : ∃ name, e.path ++ [name] <+: p
      · obtain ⟨name, hp⟩ := hname
        have hchild : ∀ name', e.path ++ [name'] <+: p ↔ name' = name := fun name' =>
          ⟨fun h => child_unique h hp, fun h => h ▸ hp⟩
        simp only [hchild, forall_eq] at hallowed hroot
        rw [hallowed, exists_rootOpen_iff e.path, hroot, disagree_iff he haccess hp]
        have hcases : ∀ shields codex outer : Prop, (¬ shields ↔ ¬ shields ∧ ¬ codex ∨ outer) ↔
            ¬ (shields ∧ outer ∨ ¬ shields ∧ codex ∧ ¬ outer) := by
          intro shields codex outer
          by_cases shields <;> by_cases codex <;> by_cases outer <;> simp [*]
        exact hcases _ _ _
      · -- The path is the entry's own: nothing follows that could be protected.
        have hopen : ∃ r, RootOpen entries cwd p r :=
          ⟨e.path, hroot.2 fun name hp => absurd ⟨name, hp⟩ hname⟩
        have hcheck := hallowed.2 fun name hp => absurd ⟨name, hp⟩ hname
        refine iff_of_true (iff_of_true hcheck hopen) ?_
        rintro ⟨e', name, he', -, hp, -⟩
        exact hname ⟨name, he'.path_unique he ▸ hp⟩
    · refine iff_of_true (iff_of_false ?_ ?_) ?_
      · rintro ⟨hw, -⟩
        exact haccess (hres.symm.trans hw)
      · rintro ⟨r, h⟩
        obtain ⟨w, hw, rfl, -⟩ := h.writable
        have hw' := h.carveouts e he.mem (he.deepest w hw h.covers) he.covers
        rw [Decides.resolveAccess_eq he.self] at hw'
        exact haccess hw'
      · rintro ⟨e', name, he', haccess', -, -⟩
        exact haccess (Decides.access_unique he he' ▸ haccess')
  · refine iff_of_true (iff_of_false ?_ ?_) ?_
    · rintro ⟨hw, -⟩
      rw [hdeny] at hw
      cases hw
    · rintro ⟨r, h⟩
      obtain ⟨w, hw, rfl, -⟩ := h.writable
      exact hno w hw h.covers
    · rintro ⟨e, name, he, -, -, -⟩
      exact hno e he.mem he.covers

theorem writeAllowed_iff_granted : WriteAllowed entries p ↔ Granted entries p := by
  constructor
  · intro h
    have hne : resolveAccess entries p ≠ .deny := by
      rw [h.1]
      decide
    obtain ⟨e, he⟩ := exists_decides hne
    have haccess := he.resolveAccess_eq.symm.trans h.1
    exact ⟨e, he, haccess, (writeAllowed_decider_iff he haccess).1 h⟩
  · rintro ⟨e, he, haccess, hnames⟩
    exact (writeAllowed_decider_iff he haccess).2 hnames

/-- The check looks at `target`, the roots at `p`. -/
theorem agree_iff_granted {target : AbsolutePathBuf} :
    (WriteAllowed entries target ↔ ∃ r, RootOpen entries cwd p r) ↔
      ((Granted entries target ↔ Granted entries p) ↔ ¬ Disagree entries cwd p) := by
  have hsame : (WriteAllowed entries p ↔ ∃ r, RootOpen entries cwd p r) ↔ ¬ Disagree entries cwd p :=
    agree_iff_not_disagree
  rw [writeAllowed_iff_granted] at hsame
  rw [writeAllowed_iff_granted, ← hsame]
  have hcases : ∀ meant front left : Prop,
      (meant ↔ left) ↔ ((meant ↔ front) ↔ (front ↔ left)) := by
    intro meant front left
    by_cases meant <;> by_cases front <;> by_cases left <;> simp [*]
  exact hcases _ _ _

end Agreement

theorem emptyHost_symlinkFree : SymlinkFree emptyHost := fun _ _ h => nomatch h

theorem emptyHost_noMetadata : NoMetadata emptyHost := fun _ _ _ => ⟨rfl, rfl⟩

def outerDir : AbsolutePathBuf := ["a".toList]

def innerDir : AbsolutePathBuf := ["a".toList, "b".toList]

def nestedPolicy : FileSystemSandboxPolicy :=
  .restricted [⟨.path outerDir, .write⟩, ⟨.path innerDir, .write⟩]

end Codex.Permissions
