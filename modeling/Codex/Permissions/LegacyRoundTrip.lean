import Codex.Permissions.LegacyAgreement

/-!
# From a legacy policy and back

`from_legacy_sandbox_policy_for_cwd` spells the defaults of a legacy policy out as entries, some of
which depend on what is in the file system, and `to_legacy_sandbox_policy` folds entries into a
legacy policy (`protocol/src/permissions.rs`). All that is added only gives reading, so nothing of
it is left in what comes back (`legacy_round_trip`).
-/

namespace Codex.Permissions

open List Codex.Text FileSystemSandboxPolicy

def SandboxPolicy.hasFullNetworkAccess : SandboxPolicy → Bool
  | .dangerFullAccess => true
  | .externalSandbox networkAccess => networkAccess = .enabled
  | .readOnly networkAccess | .workspaceWrite _ networkAccess _ _ => networkAccess

/-- `From<&SandboxPolicy>`. -/
def NetworkSandboxPolicy.ofSandboxPolicy (policy : SandboxPolicy) : NetworkSandboxPolicy :=
  if policy.hasFullNetworkAccess then .enabled else .restricted

def FileSystemSandboxPolicy.fromLegacySandboxPolicyForCwd (host : Host)
    (sandboxPolicy : SandboxPolicy) (cwd : AbsolutePathBuf) : FileSystemSandboxPolicy :=
  let policy := ofSandboxPolicy host sandboxPolicy
  match sandboxPolicy with
  | .workspaceWrite writableRoots _ _ _ =>
    let entries := appendDefaultsForRoot host true policy.entries cwd
    { policy with entries := writableRoots.foldl (appendDefaultsForRoot host false) entries }
  | _ => policy

/-! ## What is added -/

/-- The second list goes on with entries that only give reading. -/
def AddsReads (entries extended : List FileSystemSandboxEntry) : Prop :=
  ∃ rest, extended = entries ++ rest ∧ ∀ entry ∈ rest, entry.access = .read

theorem AddsReads.refl (entries : List FileSystemSandboxEntry) : AddsReads entries entries :=
  ⟨[], (append_nil _).symm, nofun⟩

theorem AddsReads.trans {a b c : List FileSystemSandboxEntry} (hab : AddsReads a b)
    (hbc : AddsReads b c) : AddsReads a c := by
  obtain ⟨rest, rfl, hrest⟩ := hab
  obtain ⟨more, rfl, hmore⟩ := hbc
  refine ⟨rest ++ more, List.append_assoc .., fun entry hentry => ?_⟩
  exact (mem_append.1 hentry).elim (hrest entry) (hmore entry)

theorem addsReads_foldl {α : Type} {f : List FileSystemSandboxEntry → α → List FileSystemSandboxEntry}
    (hf : ∀ entries a, AddsReads entries (f entries a)) (l : List α)
    (entries : List FileSystemSandboxEntry) : AddsReads entries (l.foldl f entries) := by
  induction l generalizing entries with
  | nil => exact .refl entries
  | cons a l ih => exact (hf entries a).trans (ih (f entries a))

theorem addsReads_appendDefault (entries : List FileSystemSandboxEntry) (path : FileSystemPath) :
    AddsReads entries (appendDefaultReadOnlyEntryIfNoExplicitRule entries path) := by
  unfold appendDefaultReadOnlyEntryIfNoExplicitRule
  split
  · exact .refl entries
  · exact ⟨[⟨path, .read⟩], rfl, by simp⟩

theorem addsReads_appendDefaultsForRoot (host : Host) (protectMissingDotCodex : Bool)
    (entries : List FileSystemSandboxEntry) (root : AbsolutePathBuf) :
    AddsReads entries (appendDefaultsForRoot host protectMissingDotCodex entries root) :=
  addsReads_foldl (fun entries path => addsReads_appendDefault entries (.path path)) _ entries

theorem addsReads_fromLegacy (host : Host) (roots : List AbsolutePathBuf)
    (networkAccess excludeTmpdirEnvVar excludeSlashTmp : Bool) (cwd : AbsolutePathBuf) :
    ∃ entries, FileSystemSandboxPolicy.fromLegacySandboxPolicyForCwd host
        (.workspaceWrite roots networkAccess excludeTmpdirEnvVar excludeSlashTmp) cwd =
          .restricted entries ∧
      AddsReads (workspaceEntries roots excludeTmpdirEnvVar excludeSlashTmp) entries := by
  refine ⟨_, rfl, ?_⟩
  have hroots := addsReads_foldl (addsReads_appendDefaultsForRoot host false) roots
  refine AddsReads.trans ?_ (hroots _)
  refine AddsReads.trans ?_ (addsReads_appendDefaultsForRoot host true _ cwd)
  refine AddsReads.trans ?_ (hroots _)
  exact addsReads_foldl (fun entries name => addsReads_appendDefault entries _) _ _

/-! ## What is read back -/

section Scan

variable {host : Host} {cwd : AbsolutePathBuf} {entries extended : List FileSystemSandboxEntry}

theorem AddsReads.legacyScan_eq (h : AddsReads entries extended) :
    (restricted extended).legacyScan host cwd =
      (restricted entries).legacyScan host cwd := by
  obtain ⟨rest, rfl, hrest⟩ := h
  have hskip : ∀ scan : LegacyScan, rest.foldl (LegacyScan.visit host cwd) scan = scan := by
    induction rest with
    | nil => exact fun _ => rfl
    | cons entry rest ih =>
      intro scan
      have hread : entry.access ≠ .write := by
        rw [hrest entry mem_cons_self]
        decide
      rw [foldl_cons, LegacyScan.visit_of_not_write scan hread]
      exact ih (fun entry hentry => hrest entry (mem_cons_of_mem _ hentry)) scan
  unfold legacyScan restricted
  rw [foldl_append]
  exact hskip _

/-- The roots are read back in their order. -/
theorem foldl_visit_roots {roots : List AbsolutePathBuf} (hcwd : cwd ∉ roots) (scan : LegacyScan) :
    (roots.map fun path => (⟨.path path, .write⟩ : FileSystemSandboxEntry)).foldl
      (LegacyScan.visit host cwd) scan =
      { scan with writableRoots := scan.writableRoots ++ roots } := by
  induction roots generalizing scan with
  | nil => rw [map_nil, foldl_nil, append_nil]
  | cons root roots ih =>
    have hvisit : LegacyScan.visit host cwd scan ⟨.path root, .write⟩ =
        { scan with writableRoots := scan.writableRoots ++ [root] } :=
      if_neg (ne_of_not_mem_cons hcwd)
    rw [map_cons, foldl_cons, hvisit, ih (not_mem_of_not_mem_cons hcwd),
      List.append_assoc, singleton_append]

theorem legacyScan_workspaceEntries {roots : List AbsolutePathBuf} (hcwd : cwd ∉ roots)
    (excludeTmpdirEnvVar excludeSlashTmp : Bool) :
    (restricted (workspaceEntries roots excludeTmpdirEnvVar
      excludeSlashTmp)).legacyScan host cwd =
      ⟨true, roots, !excludeTmpdirEnvVar, !excludeSlashTmp, false⟩ := by
  unfold legacyScan restricted workspaceEntries
  rw [foldl_append, foldl_visit_roots hcwd]
  cases excludeTmpdirEnvVar <;> cases excludeSlashTmp <;> rfl

/-- No entry of a legacy workspace writes to the whole disk. -/
theorem AddsReads.hasFullDiskWriteAccess_eq {roots : List AbsolutePathBuf}
    {excludeTmpdirEnvVar excludeSlashTmp : Bool}
    (h : AddsReads (workspaceEntries roots excludeTmpdirEnvVar excludeSlashTmp) extended) :
    (restricted extended).hasFullDiskWriteAccess = false := by
  obtain ⟨rest, rfl, hrest⟩ := h
  rw [Bool.eq_false_iff]
  intro hfull
  obtain ⟨hroot, -⟩ := Bool.and_eq_true_iff.1 hfull
  obtain ⟨-, entry, hentry, hpath, hwrite⟩ := hasRootAccess_iff.1 hroot
  rw [FileSystemAccessMode.canWrite_eq_true] at hwrite
  rcases mem_append.1 hentry with hentry | hentry
  · rcases mem_workspaceEntries.1 hentry with rfl | rfl | ⟨-, rfl⟩ | ⟨-, rfl⟩ | ⟨path, -, rfl⟩
    · cases hwrite
    · cases hpath
    · cases hpath
    · cases hpath
    · cases hpath
  · cases (hrest entry hentry).symm.trans hwrite

end Scan

/-- The further roots of a workspace: none is listed twice, and none is the workspace itself. -/
def SandboxPolicy.RootsDistinct (policy : SandboxPolicy) (cwd : AbsolutePathBuf) : Prop :=
  match policy with
  | .workspaceWrite writableRoots _ _ _ => writableRoots.Nodup ∧ cwd ∉ writableRoots
  | _ => True

/-- **A legacy policy comes back as it was**, whatever is in the file system. -/
theorem legacy_round_trip (host : Host) (policy : SandboxPolicy) (cwd : AbsolutePathBuf)
    (h : policy.RootsDistinct cwd) :
    (FileSystemSandboxPolicy.fromLegacySandboxPolicyForCwd host policy cwd).toLegacySandboxPolicy
      host (.ofSandboxPolicy policy) cwd = .ok policy := by
  cases policy with
  | dangerFullAccess => rfl
  | readOnly networkAccess | externalSandbox networkAccess => cases networkAccess <;> rfl
  | workspaceWrite roots networkAccess excludeTmpdirEnvVar excludeSlashTmp =>
    obtain ⟨hnodup, hcwd⟩ := h
    obtain ⟨entries, hfrom, hadds⟩ := addsReads_fromLegacy host roots networkAccess
      excludeTmpdirEnvVar excludeSlashTmp cwd
    have hdedup : dedupAbsolutePaths host roots false = roots := by
      unfold dedupAbsolutePaths
      rw [show (roots.map fun path => if false = true then normalizeEffectiveAbsolutePath host path
        else path) = roots from map_id roots]
      exact pushUnique_of_nodup hnodup
    have hnetwork : (NetworkSandboxPolicy.ofSandboxPolicy (.workspaceWrite roots networkAccess
        excludeTmpdirEnvVar excludeSlashTmp)).isEnabled = networkAccess := by
      cases networkAccess <;> rfl
    have hkind : (restricted entries).kind = .restricted := rfl
    have hscan : (restricted entries).legacyScan host cwd =
        ⟨true, roots, !excludeTmpdirEnvVar, !excludeSlashTmp, false⟩ :=
      hadds.legacyScan_eq.trans (legacyScan_workspaceEntries hcwd _ _)
    rw [hfrom]
    unfold toLegacySandboxPolicy
    simp only [hkind, hadds.hasFullDiskWriteAccess_eq, hscan, hdedup, hnetwork, Bool.false_eq_true,
      if_false, if_true, Bool.not_not]

/-- A workspace with a repository in it, and one further root. -/
theorem legacy_round_trip_repository :
    (FileSystemSandboxPolicy.fromLegacySandboxPolicyForCwd
      { emptyHost with isDir := fun path => path = outerDir ++ [gitName] }
      (.workspaceWrite [["b".toList]] true false true) outerDir).toLegacySandboxPolicy
      { emptyHost with isDir := fun path => path = outerDir ++ [gitName] }
      (.ofSandboxPolicy (.workspaceWrite [["b".toList]] true false true)) outerDir =
        .ok (.workspaceWrite [["b".toList]] true false true) :=
  legacy_round_trip _ _ _ ⟨by decide, by decide⟩

end Codex.Permissions
