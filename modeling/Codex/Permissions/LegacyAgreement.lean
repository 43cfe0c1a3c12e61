import Codex.Permissions.Legacy
import Codex.Permissions.WriteAgreement

/-!
# A legacy runtime gives the same access

Where `needs_direct_runtime_enforcement` says no, the policy and the policy that
a legacy runtime rebuilds from its projection have one semantic signature. The
signature lists the writable roots with the names and the subpaths that stay
closed below them, and not the entries; what it says about the roots is enough
to decide every path, because all that a legacy runtime can keep closed below a
root is `.codex` in the working directory.
-/

namespace Codex.Permissions

open List Codex.Text FileSystemSandboxPolicy

/-! ## Entries that a legacy runtime can enforce -/

/-- A writable entry stands at the path. -/
def WritableAt (entries : List ResolvedFileSystemEntry) (path : AbsolutePathBuf) : Prop :=
  ∃ e ∈ entries, e.path = path ∧ e.access = .write

/-- Nothing is denied, the working directory is writable, and below the writable entries only its
`.codex` is closed. -/
structure Bridgeable (entries : List ResolvedFileSystemEntry) (cwd : AbsolutePathBuf) : Prop where
  noDeny : ∀ e ∈ entries, e.access ≠ .deny
  workspace : WritableAt entries cwd
  names : ∀ w, WritableAt entries w → ∀ name ∈ protectedMetadataPathNames,
    ¬ WriteAllowed entries (w ++ [name]) → w = cwd ∧ name = codexName
  carveouts : ∀ w, WritableAt entries w → ∀ e ∈ entries, w <+: e.path → e.path ≠ w →
    resolveAccess entries e.path ≠ .write → e.path = cwd ++ [codexName]

/-- The path lies in the closed `.codex`, and no writable entry opens it again. -/
def InClosedCodex (entries : List ResolvedFileSystemEntry) (cwd p : AbsolutePathBuf) : Prop :=
  cwd ++ [codexName] <+: p ∧ (∀ w, WritableAt entries w → w <+: p → ¬ cwd ++ [codexName] <+: w) ∧
    ¬ WriteAllowed entries (cwd ++ [codexName])

section Summary

variable {entries entries' : List ResolvedFileSystemEntry} {cwd p : AbsolutePathBuf}

theorem resolveAccess_writableAt (hdeny : ∀ e ∈ entries, e.access ≠ .deny)
    (h : WritableAt entries p) : resolveAccess entries p = .write := by
  obtain ⟨w, hw, rfl, hwrite⟩ := h
  obtain ⟨e, hd, hpath⟩ := decides_at_entry hw
  have hrank := hd.strongest w hw hpath.symm
  rw [hd.resolveAccess_eq]
  cases haccess : e.access with
  | write => rfl
  | read =>
    rw [hwrite, haccess] at hrank
    exact absurd hrank (by decide)
  | deny => exact absurd haccess (hdeny e hd.mem)

namespace Bridgeable

/-- A readable entry below a writable one is the one for `.codex`. -/
theorem inClosedCodex_of_read (h : Bridgeable entries cwd) {e : ResolvedFileSystemEntry}
    (he : Decides entries p e) (hne : e.access ≠ .write) {w : AbsolutePathBuf}
    (hw : WritableAt entries w) (hwp : w <+: p) : InClosedCodex entries cwd p := by
  have hself : Decides entries e.path e := he.self
  have hread : resolveAccess entries e.path ≠ .write := by
    rw [hself.resolveAccess_eq]
    exact hne
  have hdeepest : ∀ w, WritableAt entries w → w <+: p → w <+: e.path ∧ e.path ≠ w := by
    intro w hw hwp
    obtain ⟨x, hx, rfl, hxa⟩ := hw
    refine ⟨he.deepest x hx hwp, fun heq => hread ?_⟩
    rw [heq]
    exact resolveAccess_writableAt h.noDeny ⟨x, hx, rfl, hxa⟩
  have hcodex : e.path = cwd ++ [codexName] :=
    h.carveouts w hw e he.mem (hdeepest w hw hwp).1 (hdeepest w hw hwp).2 hread
  refine ⟨hcodex ▸ he.covers, fun x hx hxp hin => ?_, fun hallowed => hread ?_⟩
  · obtain ⟨hle, hxe⟩ := hdeepest x hx hxp
    exact hxe (prefix_antisymm (hcodex ▸ hin) hle)
  · rw [hcodex]
    exact hallowed.1

/-- A name that a writable entry shields is the `.codex` of the working directory. -/
theorem inClosedCodex_of_child (h : Bridgeable entries cwd) {e : ResolvedFileSystemEntry}
    (he : Decides entries p e) (hwrite : e.access = .write) {name : Str}
    (hchild : metadataChild entries p = some (e.path ++ [name], name)) :
    InClosedCodex entries cwd p := by
  obtain ⟨-, -, -, hname, -, hp⟩ := metadataChild_eq_some hchild
  have he' : Decides entries (e.path ++ [name]) e := he.between (prefix_append _ _) hp
  have hdenied : ¬ WriteAllowed entries (e.path ++ [name]) := by
    rw [writeAllowed_iff he']
    intro hallowed
    rw [metadataChild_eq_of_decides he hp] at hchild
    exact hallowed.2 name hchild
  obtain ⟨hcwd, rfl⟩ := h.names e.path ⟨e, he.mem, rfl, hwrite⟩ name hname hdenied
  rw [hcwd] at hp hdenied
  refine ⟨hp, fun w hw hwp hin => ?_, hdenied⟩
  obtain ⟨x, hx, rfl, -⟩ := hw
  have hle := he.deepest x hx hwp
  rw [hcwd] at hle
  exact child_not_prefix (hin.trans hle)

/-- In the closed `.codex` no write is allowed. -/
theorem not_writeAllowed_of_inClosedCodex (h : Bridgeable entries cwd)
    (hclosed : InClosedCodex entries cwd p) : ¬ WriteAllowed entries p := by
  obtain ⟨hp, hno, hdenied⟩ := hclosed
  intro hallowed
  obtain ⟨e, he⟩ := exists_decides (by rw [hallowed.1]; decide : resolveAccess entries p ≠ .deny)
  obtain ⟨hwrite, hchild⟩ := (writeAllowed_iff he).1 hallowed
  obtain ⟨c, hc, hcwd, -⟩ := h.workspace
  -- The entry that decides the path is the one for the working directory.
  have hle : e.path <+: cwd := by
    rcases prefix_total he.covers hp with hle | hle
    · rcases prefix_child_iff.1 hle with heq | hle
      · exact absurd (heq ▸ prefix_refl _)
          (hno e.path ⟨e, he.mem, rfl, hwrite⟩ he.covers)
      · exact hle
    · exact absurd hle (hno e.path ⟨e, he.mem, rfl, hwrite⟩ he.covers)
  have hge : cwd <+: e.path :=
    hcwd ▸ he.deepest c hc (hcwd ▸ (prefix_append _ _).trans hp)
  have heq : e.path = cwd := prefix_antisymm hle hge
  subst heq
  refine hdenied ((writeAllowed_iff (he.between (prefix_append _ _) hp)).2
    ⟨hwrite, fun name hsome => ?_⟩)
  obtain ⟨-, -, -, -, -, hname⟩ := metadataChild_eq_some hsome
  rw [child_unique hname (prefix_refl _)] at hsome
  rw [← metadataChild_eq_of_decides he hp] at hsome
  exact hchild codexName hsome

/-- **Where the writable entries are, and whether `.codex` is open, decides every write.** -/
theorem writeAllowed_iff_covered (h : Bridgeable entries cwd) :
    WriteAllowed entries p ↔
      (∃ w, WritableAt entries w ∧ w <+: p) ∧ ¬ InClosedCodex entries cwd p := by
  refine ⟨fun hallowed => ⟨?_, fun hclosed =>
    h.not_writeAllowed_of_inClosedCodex hclosed hallowed⟩, ?_⟩
  · obtain ⟨e, he⟩ := exists_decides (by rw [hallowed.1]; decide : resolveAccess entries p ≠ .deny)
    exact ⟨e.path, ⟨e, he.mem, rfl, ((writeAllowed_iff he).1 hallowed).1⟩, he.covers⟩
  · rintro ⟨⟨w, hw, hwp⟩, hopen⟩
    obtain ⟨x, hx, rfl, hxa⟩ := hw
    obtain ⟨e, he⟩ : ∃ e, Decides entries p e := exists_governs hx hwp
    by_cases hwrite : e.access = .write
    · exact (writeAllowed_iff he).2
        ⟨hwrite, fun name hchild => hopen (h.inClosedCodex_of_child he hwrite hchild)⟩
    · exact absurd (h.inClosedCodex_of_read he hwrite ⟨x, hx, rfl, hxa⟩ hwp) hopen

theorem writeAllowed_congr (h : Bridgeable entries cwd) (h' : Bridgeable entries' cwd)
    (hw : ∀ w, WritableAt entries w ↔ WritableAt entries' w)
    (hcodex : WriteAllowed entries (cwd ++ [codexName]) ↔
      WriteAllowed entries' (cwd ++ [codexName])) :
    WriteAllowed entries p ↔ WriteAllowed entries' p := by
  rw [h.writeAllowed_iff_covered, h'.writeAllowed_iff_covered]
  simp only [InClosedCodex, hw, hcodex]

end Bridgeable

end Summary

/-! ## What the projection grants -/

variable {host : Host} {policy : FileSystemSandboxPolicy} {cwd path : AbsolutePathBuf}

theorem writableAt_iff :
    WritableAt (policy.resolvedEntriesWithCwd host cwd) path ↔
      ∃ entry ∈ policy.entries, entry.access = .write ∧
        resolveEntryPath host entry.path cwd = some path := by
  simp only [WritableAt, mem_resolvedEntries]
  refine ⟨?_, ?_⟩
  · rintro ⟨e, ⟨entry, hentry, hresolve, haccess⟩, rfl, hwrite⟩
    exact ⟨entry, hentry, haccess.trans hwrite, hresolve⟩
  · rintro ⟨entry, hentry, hwrite, hresolve⟩
    exact ⟨⟨path, .write⟩, ⟨entry, hentry, hresolve, hwrite⟩, rfl, rfl⟩

namespace LegacyScan

/-- The flags and roots of a scan make the path writable. -/
def Grants (host : Host) (cwd : AbsolutePathBuf) (scan : LegacyScan) (path : AbsolutePathBuf) :
    Prop :=
  (scan.workspaceRootWritable = true ∧ path = cwd) ∨ path ∈ scan.writableRoots ∨
    (scan.tmpdirWritable = true ∧ resolveEntryPath host (.special .tmpdir) cwd = some path) ∨
    (scan.slashTmpWritable = true ∧ resolveEntryPath host (.special .slashTmp) cwd = some path) ∨
    (scan.unbridgeableRootWrite = true ∧ path = [])

theorem visit_of_not_write (scan : LegacyScan) {entry : FileSystemSandboxEntry}
    (h : entry.access ≠ .write) : visit host cwd scan entry = scan := by
  have hcan : entry.access.canWrite = false := by simpa [Bool.eq_false_iff] using h
  unfold visit
  split
  · rfl
  · rw [hcan]
    rfl
  · split
    · rfl
    · rfl
    next hwrite => exact absurd hwrite h
  · rfl
  · rw [hcan, Bool.and_false]
    simp only [Bool.false_eq_true, if_false]
    split <;> rfl
  · rw [hcan]
    rfl
  · rw [hcan]
    rfl
  · rfl

section Update

variable (scan : LegacyScan)

theorem grants_workspace : LegacyScan.Grants host cwd { scan with workspaceRootWritable := true } path ↔
    scan.Grants host cwd path ∨ some cwd = some path := by
  simp only [Grants, Option.some_inj, eq_comm]
  tauto

theorem grants_writableRoot {root : AbsolutePathBuf} :
    LegacyScan.Grants host cwd { scan with writableRoots := scan.writableRoots ++ [root] } path ↔
      scan.Grants host cwd path ∨ some root = some path := by
  simp only [Grants, mem_append, mem_singleton, Option.some_inj, eq_comm]
  tauto

theorem grants_tmpdir : LegacyScan.Grants host cwd { scan with tmpdirWritable := true } path ↔
    scan.Grants host cwd path ∨ resolveEntryPath host (.special .tmpdir) cwd = some path := by
  simp only [Grants]
  tauto

theorem grants_slashTmp : LegacyScan.Grants host cwd { scan with slashTmpWritable := true } path ↔
    scan.Grants host cwd path ∨ resolveEntryPath host (.special .slashTmp) cwd = some path := by
  simp only [Grants]
  tauto

theorem grants_root : LegacyScan.Grants host cwd { scan with unbridgeableRootWrite := true } path ↔
    scan.Grants host cwd path ∨ some [] = some path := by
  simp only [Grants, Option.some_inj, eq_comm]
  tauto

end Update

/-- One entry adds the place that it makes writable. -/
theorem grants_visit (scan : LegacyScan) (entry : FileSystemSandboxEntry) :
    (visit host cwd scan entry).Grants host cwd path ↔
      scan.Grants host cwd path ∨
        (entry.access = .write ∧ resolveEntryPath host entry.path cwd = some path) := by
  by_cases hwrite : entry.access = .write
  · obtain ⟨target, access⟩ := entry
    obtain rfl : access = .write := hwrite
    rw [and_iff_right rfl]
    cases target with
    | globPattern pattern => exact (or_iff_left nofun).symm
    | path p =>
      by_cases heq : cwd = p
      · subst heq
        have hvisit : visit host cwd scan ⟨.path cwd, .write⟩ =
            { scan with workspaceRootWritable := true } := if_pos rfl
        rw [hvisit]
        exact grants_workspace scan
      · have hvisit : visit host cwd scan ⟨.path p, .write⟩ =
            { scan with writableRoots := scan.writableRoots ++ [p] } := if_neg heq
        rw [hvisit]
        exact grants_writableRoot scan
    | special value =>
      cases value with
      | root => exact grants_root scan
      | minimal | unknown name subpath => exact (or_iff_left nofun).symm
      | projectRoots subpath =>
        cases subpath with
        | none => exact grants_workspace scan
        | some subpath => exact grants_writableRoot scan
      | tmpdir => exact grants_tmpdir scan
      | slashTmp => exact grants_slashTmp scan
  · rw [visit_of_not_write scan hwrite]
    exact (or_iff_left fun h => hwrite h.1).symm

/-- The loop over the entries. -/
theorem grants_foldl (entries : List FileSystemSandboxEntry) (scan : LegacyScan) :
    (entries.foldl (visit host cwd) scan).Grants host cwd path ↔
      scan.Grants host cwd path ∨ ∃ entry ∈ entries, entry.access = .write ∧
        resolveEntryPath host entry.path cwd = some path := by
  induction entries generalizing scan with
  | nil => simp
  | cons entry entries ih =>
    rw [foldl_cons, ih, grants_visit, exists_mem_cons_iff, or_assoc]

end LegacyScan

/-- The scan of a policy grants what its writable entries grant. -/
theorem grants_legacyScan :
    (policy.legacyScan host cwd).Grants host cwd path ↔
      WritableAt (policy.resolvedEntriesWithCwd host cwd) path := by
  have hempty : ¬ LegacyScan.empty.Grants host cwd path := by
    simp [LegacyScan.Grants, LegacyScan.empty]
  rw [writableAt_iff, legacyScan, LegacyScan.grants_foldl]
  exact or_iff_right hempty

/-! ## What the runtime rebuilds -/

theorem appendDefaultReadOnlyPaths_eq (paths : List AbsolutePathBuf)
    (entries : List FileSystemSandboxEntry) :
    ∃ rest, paths.foldl appendDefaultReadOnlyPathIfNoExplicitRule entries = entries ++ rest ∧
      ∀ entry ∈ rest, ∃ path ∈ paths, entry = ⟨.path path, .read⟩ := by
  induction paths generalizing entries with
  | nil => exact ⟨[], by simp⟩
  | cons path paths ih =>
    rw [foldl_cons, appendDefaultReadOnlyPathIfNoExplicitRule,
      appendDefaultReadOnlyEntryIfNoExplicitRule]
    split
    next =>
      obtain ⟨rest, heq, hrest⟩ := ih entries
      refine ⟨rest, heq, fun entry hentry => ?_⟩
      obtain ⟨p, hp, hread⟩ := hrest entry hentry
      exact ⟨p, mem_cons_of_mem _ hp, hread⟩
    next =>
      obtain ⟨rest, heq, hrest⟩ := ih (entries ++ [⟨.path path, .read⟩])
      refine ⟨⟨.path path, .read⟩ :: rest, by rw [heq, List.append_assoc]; rfl, ?_⟩
      intro entry hentry
      rcases mem_cons.1 hentry with rfl | hentry
      · exact ⟨path, by simp, rfl⟩
      · obtain ⟨p, hp, hread⟩ := hrest entry hentry
        exact ⟨p, mem_cons_of_mem _ hp, hread⟩

section Runtime

variable (hlinks : SymlinkFree host) (hmeta : NoMetadata host)

include hlinks hmeta

theorem appendDefaultsForRoot_false (entries : List FileSystemSandboxEntry)
    (root : AbsolutePathBuf) : appendDefaultsForRoot host false entries root = entries := by
  have hnil : defaultReadOnlySubpathsForWritableRoot host root false = [] := by
    rw [eq_nil_iff_forall_not_mem]
    intro path hpath
    cases ((mem_defaultReadOnlySubpaths hlinks hmeta).1 hpath).1
  rw [appendDefaultsForRoot, hnil]
  rfl

/-- Without metadata in the file system, the runtime adds nothing but the rule for `.codex`. -/
theorem legacyRuntime_entries (roots : List AbsolutePathBuf)
    (networkAccess excludeTmpdirEnvVar excludeSlashTmp : Bool) (cwd : AbsolutePathBuf) :
    ∃ rest, legacyRuntimeFileSystemPolicyForCwd host
        (.workspaceWrite roots networkAccess excludeTmpdirEnvVar excludeSlashTmp) cwd =
          .restricted (workspaceEntries roots excludeTmpdirEnvVar excludeSlashTmp ++ rest) ∧
      ∀ entry ∈ rest, entry = ⟨.path (cwd ++ [codexName]), .read⟩ := by
  have hfold (entries : List FileSystemSandboxEntry) :
      roots.foldl (appendDefaultsForRoot host false) entries = entries := by
    induction roots generalizing entries with
    | nil => rfl
    | cons root roots ih => rw [foldl_cons, appendDefaultsForRoot_false hlinks hmeta, ih]
  obtain ⟨rest, heq, hrest⟩ := appendDefaultReadOnlyPaths_eq
    (defaultReadOnlySubpathsForWritableRoot host cwd true)
    (workspaceEntries roots excludeTmpdirEnvVar excludeSlashTmp)
  refine ⟨rest, ?_, fun entry hentry => ?_⟩
  · show restricted (roots.foldl (appendDefaultsForRoot host false) _) = _
    rw [hfold, appendDefaultsForRoot, heq]
  · obtain ⟨path, hpath, rfl⟩ := hrest entry hentry
    rw [((mem_defaultReadOnlySubpaths hlinks hmeta).1 hpath).2]

end Runtime

theorem mem_workspaceEntries {roots : List AbsolutePathBuf}
    {excludeTmpdirEnvVar excludeSlashTmp : Bool} {entry : FileSystemSandboxEntry} :
    entry ∈ workspaceEntries roots excludeTmpdirEnvVar excludeSlashTmp ↔
      entry = ⟨.special .root, .read⟩ ∨ entry = ⟨.special (.projectRoots none), .write⟩ ∨
        (excludeSlashTmp = false ∧ entry = ⟨.special .slashTmp, .write⟩) ∨
        (excludeTmpdirEnvVar = false ∧ entry = ⟨.special .tmpdir, .write⟩) ∨
        ∃ path ∈ roots, entry = ⟨.path path, .write⟩ := by
  cases excludeTmpdirEnvVar <;> cases excludeSlashTmp <;>
    simp [workspaceEntries, eq_comm]

section Rebuilt

variable {roots : List AbsolutePathBuf} {excludeTmpdirEnvVar excludeSlashTmp : Bool}
  {rest : List FileSystemSandboxEntry} {entry : FileSystemSandboxEntry}
  (hrest : ∀ entry ∈ rest, entry = ⟨.path (cwd ++ [codexName]), .read⟩)

include hrest

/-- What a rebuilt policy does not make writable, it makes readable: the disk, and `.codex`. -/
theorem rebuilt_read
    (hentry : entry ∈ workspaceEntries roots excludeTmpdirEnvVar excludeSlashTmp ++ rest) :
    entry.access = .write ∧ entry.path ≠ .special .root ∨
      entry.access = .read ∧
        (entry.path = .special .root ∨ entry.path = .path (cwd ++ [codexName])) := by
  rcases mem_append.1 hentry with h | h
  · rcases mem_workspaceEntries.1 h with rfl | rfl | ⟨-, rfl⟩ | ⟨-, rfl⟩ | ⟨path, -, rfl⟩
    · exact .inr ⟨rfl, .inl rfl⟩
    · exact .inl ⟨rfl, nofun⟩
    · exact .inl ⟨rfl, nofun⟩
    · exact .inl ⟨rfl, nofun⟩
    · exact .inl ⟨rfl, nofun⟩
  · rw [hrest entry h]
    exact .inr ⟨rfl, .inr rfl⟩

theorem rebuilt_hasFullDiskReadAccess :
    (restricted (workspaceEntries roots excludeTmpdirEnvVar
      excludeSlashTmp ++ rest)).hasFullDiskReadAccess = true := by
  refine (hasFullDiskReadAccess_iff rfl).2
    ⟨⟨⟨.special .root, .read⟩, ?_, rfl, by decide⟩, fun entry hentry hdeny => ?_⟩
  · exact mem_append_left _ (mem_workspaceEntries.2 (.inl rfl))
  · rcases rebuilt_read hrest hentry with h | h
    · cases h.1.symm.trans hdeny
    · cases h.1.symm.trans hdeny

theorem rebuilt_hasFullDiskWriteAccess :
    (restricted (workspaceEntries roots excludeTmpdirEnvVar
      excludeSlashTmp ++ rest)).hasFullDiskWriteAccess = false := by
  rw [Bool.eq_false_iff]
  intro hfull
  obtain ⟨hroot, -⟩ := Bool.and_eq_true_iff.1 hfull
  obtain ⟨-, entry, hentry, hpath, hwrite⟩ := hasRootAccess_iff.1 hroot
  rw [FileSystemAccessMode.canWrite_eq_true] at hwrite
  rcases rebuilt_read hrest hentry with h | h
  · exact h.2 hpath
  · cases h.1.symm.trans hwrite

theorem rebuilt_resolved {e : ResolvedFileSystemEntry}
    (he : e ∈ (restricted (workspaceEntries roots excludeTmpdirEnvVar
      excludeSlashTmp ++ rest)).resolvedEntriesWithCwd host cwd) :
    e.access = .write ∨ e.access = .read ∧ (e.path = [] ∨ e.path = cwd ++ [codexName]) := by
  obtain ⟨entry, hentry, hresolve, haccess⟩ := mem_resolvedEntries.1 he
  rw [← haccess]
  rcases rebuilt_read hrest hentry with h | ⟨hread, hpath | hpath⟩
  · exact .inl h.1
  · rw [hpath] at hresolve
    exact .inr ⟨hread, .inl (Option.some.inj hresolve).symm⟩
  · rw [hpath] at hresolve
    exact .inr ⟨hread, .inr (Option.some.inj hresolve).symm⟩

end Rebuilt

/-! ## What the signature says -/

section Signature

variable {other : FileSystemSandboxPolicy} {legacy : SandboxPolicy}

variable {root : WritableRoot}

/-- Roots that are alike when sorted list the same. -/
theorem WritableRoot.alike_of_sorted_eq {other : WritableRoot} (h : root.sorted = other.sorted) :
    root.root = other.root ∧
      (∀ path, path ∈ root.readOnlySubpaths ↔ path ∈ other.readOnlySubpaths) ∧
      ∀ name, name ∈ root.protectedMetadataNames ↔ name ∈ other.protectedMetadataNames := by
  have hsubpaths (root : WritableRoot) (path : AbsolutePathBuf) :
      path ∈ root.sorted.readOnlySubpaths ↔ path ∈ root.readOnlySubpaths :=
    mem_insertionSort _
  have hnames (root : WritableRoot) (name : Str) :
      name ∈ root.sorted.protectedMetadataNames ↔ name ∈ root.protectedMetadataNames :=
    mem_dedup.trans (mem_insertionSort _)
  refine ⟨?_, fun path => ?_, fun name => ?_⟩
  · show root.sorted.root = other.sorted.root
    rw [h]
  · rw [← hsubpaths root, h, hsubpaths]
  · rw [← hnames root, h, hnames]

theorem mem_getWritableRootsWithCwd (hfull : policy.hasFullDiskWriteAccess = false)
    (hlinks : SymlinkFree host) : root ∈ policy.getWritableRootsWithCwd host cwd ↔
      ∃ w ∈ policy.writableEntries host cwd, policy.writableRootAt host cwd w = root := by
  rw [getWritableRootsWithCwd, hfull]
  simp only [Bool.false_eq_true, if_false, mem_map, mem_dedupAbsolutePaths hlinks]

/-- Policies with the same sorted roots have the same roots, up to the order of what they list. -/
theorem writableRootAt_agree (hfull : policy.hasFullDiskWriteAccess = false)
    (hfull' : other.hasFullDiskWriteAccess = false) (hlinks : SymlinkFree host)
    (hroots : sortedWritableRoots (policy.getWritableRootsWithCwd host cwd) =
      sortedWritableRoots (other.getWritableRootsWithCwd host cwd))
    {w : AbsolutePathBuf} (hw : w ∈ policy.writableEntries host cwd) :
    w ∈ other.writableEntries host cwd ∧
      (∀ path, path ∈ (policy.writableRootAt host cwd w).readOnlySubpaths ↔
        path ∈ (other.writableRootAt host cwd w).readOnlySubpaths) ∧
      ∀ name, name ∈ (policy.writableRootAt host cwd w).protectedMetadataNames ↔
        name ∈ (other.writableRootAt host cwd w).protectedMetadataNames := by
  have hmem : (policy.writableRootAt host cwd w).sorted ∈
      sortedWritableRoots (policy.getWritableRootsWithCwd host cwd) :=
    (mem_insertionSort _).2 (mem_map_of_mem
      ((mem_getWritableRootsWithCwd hfull hlinks).2 ⟨w, hw, rfl⟩))
  rw [hroots, sortedWritableRoots, mem_insertionSort, mem_map] at hmem
  obtain ⟨root, hroot, heq⟩ := hmem
  obtain ⟨w', hw', rfl⟩ := (mem_getWritableRootsWithCwd hfull' hlinks).1 hroot
  obtain ⟨hpath, hsubpaths, hnames⟩ := WritableRoot.alike_of_sorted_eq heq.symm
  obtain rfl : w = w' := hpath
  exact ⟨hw', hsubpaths, hnames⟩

theorem legacy_readOnlySubpaths (hroot : root ∈ legacy.getWritableRootsWithCwd host cwd) :
    root.readOnlySubpaths = defaultReadOnlySubpathsForWritableRoot host root.root
      (cwd = root.root) := by
  unfold SandboxPolicy.getWritableRootsWithCwd at hroot
  split at hroot
  · cases hroot
  · cases hroot
  · cases hroot
  · obtain ⟨path, -, rfl⟩ := mem_map.1 hroot
    rfl

/-- The legacy roots protect `.codex` in the working directory, and nothing else. -/
theorem name_of_not_needsDirect (hlinks : SymlinkFree host) (hmeta : NoMetadata host)
    (h : protectedMetadataNamesNeedDirectRuntimeEnforcement host policy legacy cwd = false)
    (hroot : root ∈ policy.getWritableRootsWithCwd host cwd) {name : Str}
    (hname : name ∈ root.protectedMetadataNames) : root.root = cwd ∧ name = codexName := by
  have hroot' := any_eq_false.1 h root hroot
  split at hroot'
  next hnone =>
    have hempty : root.protectedMetadataNames = [] := by simpa using hroot'
    rw [hempty] at hname
    cases hname
  next legacyRoot hfind =>
    have hlegacy : legacyRoot.root = root.root := by simpa using find?_some hfind
    have hall : ∀ n ∈ root.protectedMetadataNames,
        root.root ++ [n] ∈ legacyRoot.readOnlySubpaths := by simpa using hroot'
    have hsub := hall name hname
    rw [legacy_readOnlySubpaths (mem_of_find?_eq_some hfind),
      mem_defaultReadOnlySubpaths hlinks hmeta, decide_eq_true_iff, hlegacy,
      append_cancel_left_eq, singleton_inj] at hsub
    exact ⟨hsub.1.symm, hsub.2⟩

end Signature

/-! ## The same access -/

/-- A policy and the one rebuilt from its projection, where the checks of
`needs_direct_runtime_enforcement` find no difference. -/
structure Matches (host : Host) (policy rebuilt : FileSystemSandboxPolicy)
    (cwd : AbsolutePathBuf) : Prop where
  kind : policy.kind = .restricted
  rebuiltKind : rebuilt.kind = .restricted
  notFull : policy.hasFullDiskWriteAccess = false
  rebuiltNotFull : rebuilt.hasFullDiskWriteAccess = false
  fullRead : policy.hasFullDiskReadAccess = true
  rebuiltFullRead : rebuilt.hasFullDiskReadAccess = true
  roots : sortedWritableRoots (policy.getWritableRootsWithCwd host cwd) =
    sortedWritableRoots (rebuilt.getWritableRootsWithCwd host cwd)
  workspace : WritableAt (policy.resolvedEntriesWithCwd host cwd) cwd
  names : ∀ root ∈ policy.getWritableRootsWithCwd host cwd, ∀ name ∈ root.protectedMetadataNames,
    root.root = cwd ∧ name = codexName
  reads : ∀ e ∈ rebuilt.resolvedEntriesWithCwd host cwd,
    e.access = .write ∨ e.path = [] ∨ e.path = cwd ++ [codexName]

theorem mem_writableEntries_iff (hkind : policy.kind = .restricted)
    (hfull : policy.hasFullDiskWriteAccess = false) (hread : policy.hasFullDiskReadAccess = true) :
    path ∈ policy.writableEntries host cwd ↔
      WritableAt (policy.resolvedEntriesWithCwd host cwd) path := by
  rw [mem_writableEntries hkind hfull]
  exact and_iff_left_of_imp
    (resolveAccess_writableAt (noDeny_of_hasFullDiskReadAccess hkind hread))

namespace Matches

variable {rebuilt : FileSystemSandboxPolicy} (h : Matches host policy rebuilt cwd)
  (hlinks : SymlinkFree host)

include h

theorem noDeny : ∀ e ∈ policy.resolvedEntriesWithCwd host cwd, e.access ≠ .deny :=
  noDeny_of_hasFullDiskReadAccess h.kind h.fullRead

theorem rebuilt_noDeny : ∀ e ∈ rebuilt.resolvedEntriesWithCwd host cwd, e.access ≠ .deny :=
  noDeny_of_hasFullDiskReadAccess h.rebuiltKind h.rebuiltFullRead

theorem mem_writableEntries :
    path ∈ policy.writableEntries host cwd ↔
      WritableAt (policy.resolvedEntriesWithCwd host cwd) path :=
  mem_writableEntries_iff h.kind h.notFull h.fullRead

theorem rebuilt_mem_writableEntries :
    path ∈ rebuilt.writableEntries host cwd ↔
      WritableAt (rebuilt.resolvedEntriesWithCwd host cwd) path :=
  mem_writableEntries_iff h.rebuiltKind h.rebuiltNotFull h.rebuiltFullRead

include hlinks

theorem writableAt_iff :
    WritableAt (policy.resolvedEntriesWithCwd host cwd) path ↔
      WritableAt (rebuilt.resolvedEntriesWithCwd host cwd) path := by
  rw [← h.mem_writableEntries, ← h.rebuilt_mem_writableEntries]
  exact ⟨fun hw => (writableRootAt_agree h.notFull h.rebuiltNotFull hlinks h.roots hw).1,
    fun hw => (writableRootAt_agree h.rebuiltNotFull h.notFull hlinks h.roots.symm hw).1⟩

variable {w : AbsolutePathBuf}

/-- Both close the same protected names below a root. -/
theorem writeAllowed_name_iff (hw : WritableAt (policy.resolvedEntriesWithCwd host cwd) w)
    {name : Str} (hname : name ∈ protectedMetadataPathNames) :
    WriteAllowed (policy.resolvedEntriesWithCwd host cwd) (w ++ [name]) ↔
      WriteAllowed (rebuilt.resolvedEntriesWithCwd host cwd) (w ++ [name]) := by
  have hnames := (writableRootAt_agree h.notFull h.rebuiltNotFull hlinks h.roots
    (h.mem_writableEntries.2 hw)).2.2 name
  rw [mem_protectedMetadataNames h.kind h.notFull hlinks,
    mem_protectedMetadataNames h.rebuiltKind h.rebuiltNotFull hlinks, and_iff_right hname,
    and_iff_right hname] at hnames
  exact not_iff_not.1 hnames

theorem name_closed (hw : WritableAt (policy.resolvedEntriesWithCwd host cwd) w) {name : Str}
    (hname : name ∈ protectedMetadataPathNames)
    (hclosed : ¬ WriteAllowed (policy.resolvedEntriesWithCwd host cwd) (w ++ [name])) :
    w = cwd ∧ name = codexName :=
  h.names _ ((mem_getWritableRootsWithCwd h.notFull hlinks).2
    ⟨w, h.mem_writableEntries.2 hw, rfl⟩) name
    ((mem_protectedMetadataNames h.kind h.notFull hlinks).2 ⟨hname, hclosed⟩)

omit hlinks in
/-- Below a writable entry, the rebuilt policy carves out nothing but `.codex`. -/
theorem rebuilt_carveout {e : ResolvedFileSystemEntry}
    (he : e ∈ rebuilt.resolvedEntriesWithCwd host cwd) (hle : w <+: e.path) (hne : e.path ≠ w)
    (hread : resolveAccess (rebuilt.resolvedEntriesWithCwd host cwd) e.path ≠ .write) :
    e.path = cwd ++ [codexName] := by
  rcases h.reads e he with hwrite | hnil | hcodex
  · exact absurd (resolveAccess_writableAt h.rebuilt_noDeny ⟨e, he, rfl, hwrite⟩) hread
  · rw [hnil, prefix_nil] at hle
    exact absurd (hnil.trans hle.symm) hne
  · exact hcodex

/-- So does the policy itself, as its roots list the same. -/
theorem carveout (hmeta : NoMetadata host)
    (hw : WritableAt (policy.resolvedEntriesWithCwd host cwd) w) {e : ResolvedFileSystemEntry}
    (he : e ∈ policy.resolvedEntriesWithCwd host cwd) (hle : w <+: e.path) (hne : e.path ≠ w)
    (hread : resolveAccess (policy.resolvedEntriesWithCwd host cwd) e.path ≠ .write) :
    e.path = cwd ++ [codexName] := by
  have hmem := (mem_readOnlySubpaths h.kind h.notFull hlinks hmeta).2
    (.inr ⟨⟨e, he, rfl⟩, hle, hne, hread⟩)
  rw [(writableRootAt_agree h.notFull h.rebuiltNotFull hlinks h.roots
    (h.mem_writableEntries.2 hw)).2.1, mem_readOnlySubpaths h.rebuiltKind h.rebuiltNotFull hlinks
      hmeta] at hmem
  rcases hmem with ⟨rfl, hcodex, -⟩ | ⟨⟨e', he', heq⟩, -, -, hread'⟩
  · exact hcodex
  · rw [← heq] at hle hne hread' ⊢
    exact h.rebuilt_carveout he' hle hne hread'

theorem bridgeable (hmeta : NoMetadata host) :
    Bridgeable (policy.resolvedEntriesWithCwd host cwd) cwd :=
  ⟨h.noDeny, h.workspace, fun _ hw _ hname => h.name_closed hlinks hw hname,
    fun _ hw _ he => h.carveout hlinks hmeta hw he⟩

theorem rebuilt_bridgeable : Bridgeable (rebuilt.resolvedEntriesWithCwd host cwd) cwd := by
  refine ⟨h.rebuilt_noDeny, (h.writableAt_iff hlinks).1 h.workspace, ?_,
    fun _ _ _ he => h.rebuilt_carveout he⟩
  intro w hw name hname hclosed
  rw [← h.writableAt_iff hlinks] at hw
  rw [← h.writeAllowed_name_iff hlinks hw hname] at hclosed
  exact h.name_closed hlinks hw hname hclosed

/-- **A policy and its match allow the same writes.** -/
theorem writeAllowed_iff (hmeta : NoMetadata host) (p : AbsolutePathBuf) :
    WriteAllowed (policy.resolvedEntriesWithCwd host cwd) p ↔
      WriteAllowed (rebuilt.resolvedEntriesWithCwd host cwd) p := by
  refine (h.bridgeable hlinks hmeta).writeAllowed_congr (h.rebuilt_bridgeable hlinks)
    (fun w => h.writableAt_iff hlinks) ?_
  exact h.writeAllowed_name_iff hlinks h.workspace (by decide)

end Matches

variable {network : NetworkSandboxPolicy}

/-- The three ways to project a policy. -/
theorem toLegacySandboxPolicy_cases {legacy : SandboxPolicy} (hkind : policy.kind = .restricted)
    (h : policy.toLegacySandboxPolicy host network cwd = .ok legacy) :
    (policy.hasFullDiskWriteAccess = true ∧
        (legacy = .dangerFullAccess ∨ legacy = .externalSandbox .restricted)) ∨
      (policy.hasFullDiskWriteAccess = false ∧
        (policy.legacyScan host cwd).workspaceRootWritable = true ∧
        ∃ roots excludeTmpdirEnvVar excludeSlashTmp, legacy =
          .workspaceWrite roots network.isEnabled excludeTmpdirEnvVar excludeSlashTmp) ∨
      (policy.hasFullDiskWriteAccess = false ∧
        (∀ path, ¬ (policy.legacyScan host cwd).Grants host cwd path) ∧
        legacy = .readOnly network.isEnabled) := by
  rw [toLegacySandboxPolicy, hkind] at h
  dsimp only at h
  split at h
  next hfull =>
    refine .inl ⟨hfull, ?_⟩
    cases h
    split
    · exact .inl rfl
    · exact .inr rfl
  next hfull =>
    rw [Bool.not_eq_true] at hfull
    split at h
    next hworkspace =>
      cases h
      exact .inr (.inl ⟨hfull, hworkspace, _, _, _, rfl⟩)
    next hworkspace =>
      split at h
      · cases h
      next hnone =>
        cases h
        simp only [Bool.or_eq_true, not_or, Bool.not_eq_true, Bool.not_eq_false',
          List.isEmpty_iff] at hnone
        obtain ⟨⟨⟨hroot, hroots⟩, htmpdir⟩, hslash⟩ := hnone
        refine .inr (.inr ⟨hfull, fun path hgrants => ?_, rfl⟩)
        simp [LegacyScan.Grants, hworkspace, hroots, htmpdir, hslash, hroot] at hgrants

/-- A legacy runtime leaves the whole disk readable. -/
theorem legacyRuntime_hasFullDiskReadAccess (hlinks : SymlinkFree host) (hmeta : NoMetadata host)
    (legacy : SandboxPolicy) :
    (legacyRuntimeFileSystemPolicyForCwd host legacy cwd).hasFullDiskReadAccess = true := by
  cases legacy with
  | dangerFullAccess => rfl
  | externalSandbox networkAccess => rfl
  | readOnly networkAccess => rfl
  | workspaceWrite roots networkAccess excludeTmpdirEnvVar excludeSlashTmp =>
    obtain ⟨rest, heq, hrest⟩ := legacyRuntime_entries hlinks hmeta roots networkAccess
      excludeTmpdirEnvVar excludeSlashTmp cwd
    rw [heq]
    exact rebuilt_hasFullDiskReadAccess hrest

section Access

theorem canWrite_eq_false_of_no_writableAt (hkind : policy.kind = .restricted)
    (hno : ∀ w, ¬ WritableAt (policy.resolvedEntriesWithCwd host cwd) w) (p : AbsolutePathBuf) :
    policy.canWritePathWithCwd host p.asPath cwd = false := by
  have hread : resolveAccess (policy.resolvedEntriesWithCwd host cwd) p ≠ .write := by
    intro hwrite
    obtain ⟨e, he⟩ := exists_decides (hwrite ▸ by decide :
      resolveAccess (policy.resolvedEntriesWithCwd host cwd) p ≠ .deny)
    rw [he.resolveAccess_eq] at hwrite
    exact hno e.path ⟨e, he.mem, rfl, hwrite⟩
  have hcan : (resolveAccess (policy.resolvedEntriesWithCwd host cwd) p).canWrite = false := by
    simpa [Bool.eq_false_iff] using hread
  rw [canWritePathWithCwd, resolveAccessWithCwd_asPath hkind, hcan]
  rfl

end Access

/-- The checks passed: there is a projection, and the signatures are one. -/
theorem of_not_needsDirectRuntimeEnforcement (hkind : policy.kind = .restricted)
    (h : policy.needsDirectRuntimeEnforcement host network cwd = false) :
    ∃ legacy, policy.toLegacySandboxPolicy host network cwd = .ok legacy ∧
      protectedMetadataNamesNeedDirectRuntimeEnforcement host policy legacy cwd = false ∧
      policy.semanticSignature host cwd =
        (legacyRuntimeFileSystemPolicyForCwd host legacy cwd).semanticSignature host cwd := by
  rw [needsDirectRuntimeEnforcement, if_neg (not_not.2 hkind)] at h
  split at h
  · cases h
  next legacy hlegacy =>
    split at h
    · cases h
    next hnames =>
      exact ⟨legacy, hlegacy, Bool.eq_false_iff.2 hnames, not_not.1 (of_decide_eq_false h)⟩

/-- The writes of the rebuilt policy, by the way the policy was projected. -/
theorem legacyRuntime_canWrite {legacy : SandboxPolicy} (hlinks : SymlinkFree host)
    (htmp : host.isDir slashTmpPath = true) (hmeta : NoMetadata host)
    (hkind : policy.kind = .restricted)
    (hlegacy : policy.toLegacySandboxPolicy host network cwd = .ok legacy)
    (hnames : protectedMetadataNamesNeedDirectRuntimeEnforcement host policy legacy cwd = false)
    (hread : policy.hasFullDiskReadAccess = true)
    (hroots : sortedWritableRoots (policy.getWritableRootsWithCwd host cwd) =
      sortedWritableRoots ((legacyRuntimeFileSystemPolicyForCwd host legacy cwd).getWritableRootsWithCwd host cwd))
    (p : AbsolutePathBuf) :
    (legacyRuntimeFileSystemPolicyForCwd host legacy cwd).canWritePathWithCwd host p.asPath cwd =
      policy.canWritePathWithCwd host p.asPath cwd := by
  rcases toLegacySandboxPolicy_cases hkind hlegacy with ⟨hfull, hopen⟩ |
    ⟨hfull, hworkspace, roots, excludeTmpdirEnvVar, excludeSlashTmp, rfl⟩ | ⟨-, hnone, rfl⟩
  · rw [canWrite_of_hasFullDiskWriteAccess hkind htmp hfull]
    rcases hopen with rfl | rfl
    · rfl
    · rfl
  · obtain ⟨rest, heq, hrest⟩ := legacyRuntime_entries hlinks hmeta roots network.isEnabled
      excludeTmpdirEnvVar excludeSlashTmp cwd
    rw [heq] at hroots ⊢
    have hmatch : Matches host policy (.restricted (workspaceEntries roots excludeTmpdirEnvVar
        excludeSlashTmp ++ rest)) cwd :=
      { kind := hkind
        rebuiltKind := rfl
        notFull := hfull
        rebuiltNotFull := rebuilt_hasFullDiskWriteAccess hrest
        fullRead := hread
        rebuiltFullRead := rebuilt_hasFullDiskReadAccess hrest
        roots := hroots
        workspace := grants_legacyScan.1 (.inl ⟨hworkspace, rfl⟩)
        names := fun root hroot name => name_of_not_needsDirect hlinks hmeta hnames hroot
        reads := fun e he => (rebuilt_resolved hrest he).imp_right And.right }
    rw [Bool.eq_iff_iff, canWritePathWithCwd_asPath hkind hfull,
      canWritePathWithCwd_asPath rfl (rebuilt_hasFullDiskWriteAccess hrest)]
    exact (hmatch.writeAllowed_iff hlinks hmeta p).symm
  · rw [canWrite_eq_false_of_no_writableAt hkind fun w hw => hnone w (grants_legacyScan.2 hw)]
    refine canWrite_eq_false_of_no_writableAt rfl (fun w hw => ?_) p
    obtain ⟨entry, hentry, hwrite, -⟩ := writableAt_iff.1 hw
    rw [mem_singleton.1 hentry] at hwrite
    cases hwrite

/-- **What need not be enforced directly, a legacy runtime enforces**: the policy that it rebuilds
from the projection reads and writes the same absolute paths. -/
theorem legacy_runtime_same_access {network : NetworkSandboxPolicy}
    (hlinks : SymlinkFree host) (htmp : host.isDir slashTmpPath = true) (hmeta : NoMetadata host)
    (hkind : policy.kind = .restricted)
    (hneeds : policy.needsDirectRuntimeEnforcement host network cwd = false) :
    ∃ legacy, policy.toLegacySandboxPolicy host network cwd = .ok legacy ∧
      ∀ p : Path, p.hasRoot = true →
        (legacyRuntimeFileSystemPolicyForCwd host legacy cwd).canReadPathWithCwd host p cwd =
            policy.canReadPathWithCwd host p cwd ∧
          (legacyRuntimeFileSystemPolicyForCwd host legacy cwd).canWritePathWithCwd host p cwd =
            policy.canWritePathWithCwd host p cwd := by
  obtain ⟨legacy, hlegacy, hnames, hsig⟩ := of_not_needsDirectRuntimeEnforcement hkind hneeds
  have hread' : (legacyRuntimeFileSystemPolicyForCwd host legacy cwd).hasFullDiskReadAccess = true :=
    legacyRuntime_hasFullDiskReadAccess hlinks hmeta legacy
  have hread : policy.hasFullDiskReadAccess = true :=
    (congrArg FileSystemSemanticSignature.hasFullDiskReadAccess hsig).trans hread'
  have hroots := congrArg FileSystemSemanticSignature.writableRoots hsig
  refine ⟨legacy, hlegacy, fun p hp => ?_⟩
  rw [(access_of_hasRoot _ _ _ hp).1, (access_of_hasRoot _ _ _ hp).1, (access_of_hasRoot _ _ _ hp).2,
    (access_of_hasRoot _ _ _ hp).2]
  refine ⟨?_, ?_⟩
  · rw [canRead_of_hasFullDiskReadAccess hread', canRead_of_hasFullDiskReadAccess hread]
  · exact legacyRuntime_canWrite hlinks htmp hmeta hkind hlegacy hnames hread hroots _

/-- An empty file system with a `/tmp`. -/
def tmpHost : Host := { emptyHost with isDir := fun path => path = slashTmpPath }

theorem tmpHost_noMetadata : NoMetadata tmpHost := by
  intro path name hname
  refine ⟨decide_eq_false fun heq => ?_, rfl⟩
  obtain ⟨-, hlast⟩ : path = [] ∧ [name] = slashTmpPath :=
    (append_eq_singleton_iff.1 heq).resolve_right fun h => cons_ne_nil _ _ h.2
  rw [singleton_inj.1 hlast] at hname
  revert hname
  decide

/-- A workspace that opens its `.git` and `.agents`, and keeps `.codex` closed. -/
def openGitPolicy : FileSystemSandboxPolicy :=
  .restricted [⟨.special .root, .read⟩, ⟨.special (.projectRoots none), .write⟩,
    ⟨.path (outerDir ++ [gitName]), .write⟩, ⟨.path (outerDir ++ [agentsName]), .write⟩,
    ⟨.special (.projectRoots (some (Path.parse codexName))), .read⟩]

theorem openGit_legacy_same_access :
    openGitPolicy.needsDirectRuntimeEnforcement tmpHost .restricted outerDir = false ∧
      ∃ legacy, openGitPolicy.toLegacySandboxPolicy tmpHost .restricted outerDir = .ok legacy ∧
        ∀ p : Path, p.hasRoot = true →
          (legacyRuntimeFileSystemPolicyForCwd tmpHost legacy outerDir).canReadPathWithCwd tmpHost p
              outerDir = openGitPolicy.canReadPathWithCwd tmpHost p outerDir ∧
            (legacyRuntimeFileSystemPolicyForCwd tmpHost legacy outerDir).canWritePathWithCwd
              tmpHost p outerDir = openGitPolicy.canWritePathWithCwd tmpHost p outerDir := by
  have hneeds : openGitPolicy.needsDirectRuntimeEnforcement tmpHost .restricted outerDir =
      false := by decide +kernel
  exact ⟨hneeds, legacy_runtime_same_access (fun _ _ h => nomatch h) rfl tmpHost_noMetadata rfl
    hneeds⟩

end Codex.Permissions
