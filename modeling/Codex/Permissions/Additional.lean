import Codex.Permissions.Approval
import Codex.Permissions.EntryOrder

/-!
# Additional permissions

`effective_file_system_sandbox_policy` (`sandboxing/src/policy_transforms.rs`) appends the entries
that were granted to those of the policy. What could be read stays readable, and an entry opens its
own path. What could be written stays writable unless a granted entry narrows it
(`additional_keeps_access_iff`).
-/

namespace Codex.Permissions

open List Codex.Text FileSystemSandboxPolicy

def mergeFileSystemPolicyWithAdditionalPermissions (policy : FileSystemSandboxPolicy)
    (additional : FileSystemPermissions) : FileSystemSandboxPolicy :=
  match policy.kind with
  | .restricted =>
    { policy with
      entries := pushUnique policy.entries additional.entries
      globScanMaxDepth := mergeGlobScanMaxDepth policy.entries policy.globScanMaxDepth
        additional.entries (additional.globScanMaxDepth.map PNat.val) }
  | .unrestricted | .externalSandbox => policy

def effectiveFileSystemSandboxPolicy (policy : FileSystemSandboxPolicy)
    (additional : Option AdditionalPermissionProfile) : FileSystemSandboxPolicy :=
  match additional with
  | none => policy
  | some profile =>
    match profile.fileSystem with
    | none => policy
    | some permissions =>
      if permissions.entries.isEmpty then policy
      else mergeFileSystemPolicyWithAdditionalPermissions policy permissions

/-! ## More resolved entries -/

section Entries

variable {base added merged : List ResolvedFileSystemEntry} {p : AbsolutePathBuf}

/-- Of the entries above the path, the deepest are granted ones, and they only give reading. -/
def Narrows (base added : List ResolvedFileSystemEntry) (p : AbsolutePathBuf) : Prop :=
  ∃ a ∈ added, a.path <+: p ∧ (∀ e ∈ base ++ added, e.path <+: p → e.path <+: a.path) ∧
    ∀ e ∈ base ++ added, e.path = a.path → e.access = .read

/-- The first of the writable entries with the path in a protected child is the deepest entry above
the path. -/
def Guards (entries : List ResolvedFileSystemEntry) (p : AbsolutePathBuf) : Prop :=
  ∃ before m after, entries = before ++ m :: after ∧ InProtectedChild m p ∧
    (∀ e ∈ before, ¬ InProtectedChild e p) ∧ ∀ e ∈ entries, e.path <+: p → e.path <+: m.path

/-- Granting more does not deny what could be read. -/
theorem resolveAccess_ne_deny_of_added (hmem : ∀ e, e ∈ merged ↔ e ∈ base ∨ e ∈ added)
    (hadded : ∀ e ∈ added, e.access ≠ .deny) (h : resolveAccess base p ≠ .deny) :
    resolveAccess merged p ≠ .deny := by
  obtain ⟨e, he⟩ := exists_decides h
  rw [he.resolveAccess_eq] at h
  obtain ⟨m, hm⟩ : ∃ m, Decides merged p m := exists_governs ((hmem e).2 (.inl he.mem)) he.covers
  rw [hm.resolveAccess_eq]
  intro hdeny
  rcases (hmem m).1 hm.mem with hbase | hnew
  · -- then it denies in the base too
    have hpath : m.path = e.path := prefix_antisymm (he.deepest m hbase hm.covers)
      (hm.deepest e ((hmem e).2 (.inl he.mem)) he.covers)
    have hrank := he.strongest m hbase hpath
    rw [hdeny] at hrank
    cases hmode : e.access with
    | read | write =>
      rw [hmode] at hrank
      exact absurd hrank (by decide)
    | deny => exact h hmode
  · exact hadded m hnew hdeny

theorem Narrows.resolveAccess_eq (hmem : ∀ e, e ∈ merged ↔ e ∈ base ∨ e ∈ added)
    (h : Narrows base added p) : resolveAccess merged p = .read := by
  obtain ⟨a, ha, hcovers, hdeepest, hread⟩ := h
  have hmem' : ∀ e, e ∈ merged ↔ e ∈ base ++ added := fun e => (hmem e).trans mem_append.symm
  have hdecides : Decides merged p a :=
    { mem := (hmem a).2 (.inr ha)
      covers := hcovers
      deepest := fun e he => hdeepest e ((hmem' e).1 he)
      strongest := fun e he hpath => by
        rw [hread e ((hmem' e).1 he) hpath, hread a (mem_append_right _ ha) rfl] }
  rw [hdecides.resolveAccess_eq]
  exact hread a (mem_append_right _ ha) rfl

/-- What could be written still has that access, unless the granted entries narrow it. -/
theorem resolveAccess_eq_write_iff_of_added (hmem : ∀ e, e ∈ merged ↔ e ∈ base ∨ e ∈ added)
    (hadded : ∀ e ∈ added, e.access ≠ .deny) (h : resolveAccess base p = .write) :
    resolveAccess merged p = .write ↔ ¬ Narrows base added p := by
  refine ⟨fun hwrite hnarrows => ?_, fun hnarrows => ?_⟩
  · rw [hnarrows.resolveAccess_eq hmem] at hwrite
    cases hwrite
  have hreadable : resolveAccess merged p ≠ .deny :=
    resolveAccess_ne_deny_of_added hmem hadded (by rw [h]; decide)
  obtain ⟨e, he⟩ : ∃ e, Decides base p e := exists_decides (by rw [h]; decide)
  rw [he.resolveAccess_eq] at h
  obtain ⟨m, hm⟩ := exists_decides hreadable
  rw [hm.resolveAccess_eq] at hreadable ⊢
  cases hmode : m.access with
  | write => rfl
  | deny => exact absurd hmode hreadable
  | read =>
    refine absurd ?_ hnarrows
    have hmem' : ∀ e, e ∈ base ++ added → e ∈ merged :=
      fun e he => (hmem e).2 (mem_append.1 he)
    -- nothing at this place is stronger than reading
    have hread : ∀ e ∈ merged, e.path = m.path → e.access = .read := by
      intro e he hpath
      have hrank := hm.strongest e he hpath
      rw [hmode] at hrank
      exact FileSystemAccessMode.rank_injective (Nat.le_zero.1 hrank)
    refine ⟨m, ?_, hm.covers, fun e he => hm.deepest e (hmem' e he),
      fun e he => hread e (hmem' e he)⟩
    rcases (hmem m).1 hm.mem with hbase | hnew
    · have hpath : e.path = m.path := prefix_antisymm
        (hm.deepest e ((hmem e).2 (.inl he.mem)) he.covers) (he.deepest m hbase hm.covers)
      rw [hread e ((hmem e).2 (.inl he.mem)) hpath] at h
      cases h
    · exact hnew

/-! ## The first protected child -/

/-- The protected child of one entry. -/
def protectedChild (target : AbsolutePathBuf) (entry : ResolvedFileSystemEntry) :
    Option (AbsolutePathBuf × Str) :=
  if entry.access.canWrite then
    if entry.path <+: target then
      match target.drop entry.path.length with
      | [] => none
      | name :: _ =>
        if name ∈ protectedMetadataPathNames then some (entry.path ++ [name], name) else none
    else none
  else none

theorem metadataChild_eq_findSome? (entries : List ResolvedFileSystemEntry)
    (target : AbsolutePathBuf) :
    metadataChild entries target = entries.findSome? (protectedChild target) := by
  induction entries with
  | nil => rfl
  | cons e entries ih =>
    unfold metadataChild at ih ⊢
    rw [findSome?_cons, ← ih]
    by_cases hwrite : e.access.canWrite = true
    · have hhere : protectedChild target e = _ := if_pos hwrite
      rw [hhere, filter_cons, if_pos hwrite]
      exact findSome?_cons
    · have hnone : protectedChild target e = none := if_neg hwrite
      rw [hnone, filter_cons, if_neg hwrite]

theorem protectedChild_eq_some {e : ResolvedFileSystemEntry} (h : InProtectedChild e p) :
    ∃ name, protectedChild p e = some (e.path ++ [name], name) := by
  obtain ⟨name, hchild⟩ := metadataChild_cons [] h
  rw [metadataChild_eq_findSome?, findSome?_singleton] at hchild
  exact ⟨name, hchild⟩

theorem protectedChild_eq_none_iff {e : ResolvedFileSystemEntry} :
    protectedChild p e = none ↔ ¬ InProtectedChild e p := by
  refine ⟨fun hnone h => ?_, fun h => ?_⟩
  · obtain ⟨name, hsome⟩ := protectedChild_eq_some h
    rw [hnone] at hsome
    cases hsome
  · cases hchild : protectedChild p e with
    | none => rfl
    | some child =>
      refine absurd ?_ h
      have hfound : metadataChild [e] p = some (child.1, child.2) := by
        rw [metadataChild_eq_findSome?, findSome?_singleton, hchild]
      obtain ⟨w, hw, hwrite, hname, hx, hp⟩ := metadataChild_eq_some hfound
      rw [mem_singleton.1 hw] at hwrite hx
      exact ⟨hwrite, child.2, hname, hx ▸ hp⟩

/-- A write to what the entries open is refused exactly where they guard it. -/
theorem metadataDenied_iff_guards (hmem : ∀ e, e ∈ merged ↔ e ∈ base ∨ e ∈ added)
    (hchild : metadataChild merged p = metadataChild (base ++ added) p)
    (hwrite : resolveAccess merged p = .write) :
    MetadataDenied merged p ↔ Guards (base ++ added) p := by
  have hmem' : ∀ e, e ∈ base ++ added ↔ e ∈ merged := fun e => mem_append.trans (hmem e).symm
  obtain ⟨m, hm⟩ : ∃ m, Decides merged p m := exists_decides (by rw [hwrite]; decide)
  rw [hm.resolveAccess_eq] at hwrite
  rw [metadataDenied_iff hm hwrite, hchild, metadataChild_eq_findSome?]
  refine ⟨?_, ?_⟩
  · rintro ⟨name, hfound⟩
    obtain ⟨before, w, after, hsplit, hw, hbefore⟩ := findSome?_eq_some_iff.1 hfound
    have hin : InProtectedChild w p := by
      by_contra hout
      rw [protectedChild_eq_none_iff.2 hout] at hw
      cases hw
    obtain ⟨name', hname'⟩ := protectedChild_eq_some hin
    rw [hw, Option.some_inj, Prod.mk.injEq] at hname'
    obtain ⟨hpath, rfl⟩ := hname'
    have hpath : m.path = w.path := append_cancel_right hpath
    refine ⟨before, w, after, hsplit, hin, fun e he => protectedChild_eq_none_iff.1 (hbefore e he),
      fun e he hcovers => ?_⟩
    rw [← hpath]
    exact hm.deepest e ((hmem' e).1 he) hcovers
  · rintro ⟨before, w, after, hsplit, hin, hbefore, hdeepest⟩
    obtain ⟨name, hname⟩ := protectedChild_eq_some hin
    have hw : w ∈ base ++ added := by
      rw [hsplit]
      exact mem_append_right _ mem_cons_self
    have hpath : m.path = w.path := prefix_antisymm (hdeepest m ((hmem' m).2 hm.mem) hm.covers)
      (hm.deepest w ((hmem' w).1 hw) hin.covers)
    refine ⟨name, findSome?_eq_some_iff.2 ⟨before, w, after, hsplit, ?_, fun e he => ?_⟩⟩
    · rw [hname, hpath]
    · exact protectedChild_eq_none_iff.2 (hbefore e he)

end Entries

/-! ## The effective policy -/

section Effective

variable {host : Host} {policy : FileSystemSandboxPolicy} {cwd target : AbsolutePathBuf}
  {path : Path} {permissions : FileSystemPermissions}

theorem effective_kind (hkind : policy.kind = .restricted)
    (network : Option NetworkPermissions) :
    (effectiveFileSystemSandboxPolicy policy (some ⟨network, some permissions⟩)).kind =
      .restricted := by
  unfold effectiveFileSystemSandboxPolicy mergeFileSystemPolicyWithAdditionalPermissions
  simp only [hkind]
  split <;> first | exact hkind | rfl

theorem effective_entries (hkind : policy.kind = .restricted)
    (network : Option NetworkPermissions) :
    (effectiveFileSystemSandboxPolicy policy (some ⟨network, some permissions⟩)).entries =
      pushUnique policy.entries permissions.entries := by
  unfold effectiveFileSystemSandboxPolicy mergeFileSystemPolicyWithAdditionalPermissions
  simp only [hkind]
  split
  · next hempty =>
    rw [List.isEmpty_iff.1 hempty]
    rfl
  · rfl

theorem findSome?_filterMap {α β γ : Type} (f : α → Option β) (g : β → Option γ) (l : List α) :
    (l.filterMap f).findSome? g = l.findSome? fun a => (f a).bind g := by
  induction l with
  | nil => rfl
  | cons a l ih =>
    cases hf : f a with
    | none =>
      rw [filterMap_cons_none hf, findSome?_cons, hf]
      exact ih
    | some b =>
      rw [filterMap_cons_some hf, findSome?_cons, findSome?_cons, hf, ih]
      rfl

theorem effective_resolved (hkind : policy.kind = .restricted)
    (network : Option NetworkPermissions) :
    (effectiveFileSystemSandboxPolicy policy
      (some ⟨network, some permissions⟩)).resolvedEntriesWithCwd host cwd =
      resolved host (pushUnique policy.entries permissions.entries) cwd := by
  unfold resolvedEntriesWithCwd
  rw [effective_entries hkind]
  rfl

theorem mem_resolved_pushUnique {entries added : List FileSystemSandboxEntry}
    (e : ResolvedFileSystemEntry) :
    e ∈ resolved host (pushUnique entries added) cwd ↔
      e ∈ resolved host entries cwd ∨ e ∈ resolved host added cwd := by
  have hmem : ∀ list : List FileSystemSandboxEntry, e ∈ resolved host list cwd ↔
      ∃ entry ∈ list, resolveEntryPath host entry.path cwd = some e.path ∧
        entry.access = e.access := fun _ => mem_resolvedEntries
  rw [hmem, hmem, hmem]
  simp only [mem_pushUnique, or_and_right, exists_or]

theorem metadataChild_resolved_pushUnique {entries added : List FileSystemSandboxEntry} :
    metadataChild (resolved host (pushUnique entries added) cwd) target =
      metadataChild (resolved host entries cwd ++ resolved host added cwd) target := by
  have happend : resolved host entries cwd ++ resolved host added cwd =
      resolved host (entries ++ added) cwd := (filterMap_append ..).symm
  rw [happend, metadataChild_eq_findSome?, metadataChild_eq_findSome?]
  unfold resolved resolvedEntriesWithCwd
  rw [findSome?_filterMap, findSome?_filterMap]
  exact findSome?_pushUnique _ entries added

theorem canWritePathWithCwd_iff (hkind : policy.kind = .restricted)
    (hpath : resolveCandidatePath host path cwd = some target) :
    policy.canWritePathWithCwd host path cwd = true ↔
      resolveAccess (policy.resolvedEntriesWithCwd host cwd) target = .write ∧
        (policy.hasFullDiskWriteAccess = true ∨
          ¬ MetadataDenied (policy.resolvedEntriesWithCwd host cwd) target) := by
  rw [canWritePathWithCwd_of_resolve hkind hpath]
  by_cases hfull : policy.hasFullDiskWriteAccess = true
  · unfold canWritePathWithCwd
    rw [resolveAccessWithCwd_asPath hkind, hfull]
    simp
  · rw [canWritePathWithCwd_asPath hkind (Bool.eq_false_iff.2 hfull), or_iff_right hfull]
    rfl

/-- Where an entry stands that is not denied there, it gives at least its own access. -/
theorem breadth_le_at_entry {entries : List ResolvedFileSystemEntry} {e : ResolvedFileSystemEntry}
    (he : e ∈ entries) (hdeny : ∀ e' ∈ entries, e'.path = e.path → e'.access ≠ .deny) :
    e.access.breadth ≤ (resolveAccess entries e.path).breadth := by
  obtain ⟨d, hd, hpath⟩ := decides_at_entry he
  have hrank := hd.strongest e he hpath.symm
  have hne := hdeny d hd.mem hpath
  rw [hd.resolveAccess_eq]
  cases hmode : d.access with
  | deny => exact absurd hmode hne
  | write => cases e.access <;> decide
  | read =>
    rw [hmode] at hrank
    have hread : e.access = .read := FileSystemAccessMode.rank_injective (Nat.le_zero.1 hrank)
    rw [hread]

end Effective

/-- Granting the permissions takes no access to the path away, and every granted entry opens its own
path, unless that is denied there. -/
structure KeepsAccess (host : Host) (policy : FileSystemSandboxPolicy)
    (permissions : FileSystemPermissions) (effective : FileSystemSandboxPolicy) (path : Path)
    (cwd : AbsolutePathBuf) : Prop where
  reads : policy.canReadPathWithCwd host path cwd = true →
    effective.canReadPathWithCwd host path cwd = true
  writes : policy.canWritePathWithCwd host path cwd = true →
    effective.canWritePathWithCwd host path cwd = true
  opens : ∀ entry ∈ permissions.entries, ∀ q, resolveEntryPath host entry.path cwd = some q →
    (∀ e ∈ policy.resolvedEntriesWithCwd host cwd, e.path = q → e.access ≠ .deny) →
    entry.access.breadth ≤ (effective.resolveAccessWithCwd host q.asPath cwd).breadth ∧
      (entry.access = .write → effective.canWritePathWithCwd host q.asPath cwd = true)

section KeepsAccess

variable {host : Host} {policy : FileSystemSandboxPolicy} {cwd target : AbsolutePathBuf}
  {path : Path} {permissions : FileSystemPermissions}

theorem access_ne_deny_of_resolved {entries : List FileSystemSandboxEntry}
    (h : ∀ entry ∈ entries, entry.access ≠ .deny) :
    ∀ e ∈ resolved host entries cwd, e.access ≠ .deny := by
  intro e he
  obtain ⟨entry, hentry, -, haccess⟩ := mem_resolvedEntries.1 he
  rw [← haccess]
  exact h entry hentry

theorem effective_reads (hkind : policy.kind = .restricted)
    (hallow : ∀ entry ∈ permissions.entries, entry.access ≠ .deny)
    (network : Option NetworkPermissions)
    (h : policy.canReadPathWithCwd host path cwd = true) :
    (effectiveFileSystemSandboxPolicy policy
      (some ⟨network, some permissions⟩)).canReadPathWithCwd host path cwd = true := by
  unfold canReadPathWithCwd at h ⊢
  rw [FileSystemAccessMode.canRead_eq_true] at h ⊢
  cases hpath : resolveCandidatePath host path cwd with
  | none => exact absurd (resolveAccessWithCwd_of_unresolved hkind hpath) h
  | some target =>
    rw [resolveAccessWithCwd_of_resolve hkind hpath] at h
    rw [resolveAccessWithCwd_of_resolve (effective_kind hkind network) hpath,
      effective_resolved hkind]
    exact resolveAccess_ne_deny_of_added mem_resolved_pushUnique (access_ne_deny_of_resolved hallow) h

theorem effective_opens (hkind : policy.kind = .restricted)
    (hallow : ∀ entry ∈ permissions.entries, entry.access ≠ .deny)
    (network : Option NetworkPermissions) {entry : FileSystemSandboxEntry}
    (hentry : entry ∈ permissions.entries) {q : AbsolutePathBuf}
    (hq : resolveEntryPath host entry.path cwd = some q)
    (hdeny : ∀ e ∈ policy.resolvedEntriesWithCwd host cwd, e.path = q → e.access ≠ .deny) :
    entry.access.breadth ≤ ((effectiveFileSystemSandboxPolicy policy
      (some ⟨network, some permissions⟩)).resolveAccessWithCwd host q.asPath cwd).breadth ∧
    (entry.access = .write → (effectiveFileSystemSandboxPolicy policy
      (some ⟨network, some permissions⟩)).canWritePathWithCwd host q.asPath cwd = true) := by
  have hkind' : (effectiveFileSystemSandboxPolicy policy
      (some ⟨network, some permissions⟩)).kind = .restricted := effective_kind hkind network
  let e : ResolvedFileSystemEntry := ⟨q, entry.access⟩
  have he : e ∈ resolved host (pushUnique policy.entries permissions.entries) cwd :=
    (mem_resolved_pushUnique e).2 (.inr (mem_resolvedEntries.2 ⟨entry, hentry, hq, rfl⟩))
  have hbreadth : entry.access.breadth ≤
      (resolveAccess (resolved host (pushUnique policy.entries permissions.entries) cwd) q).breadth
      := by
    refine breadth_le_at_entry he fun e' he' hpath => ?_
    rcases (mem_resolved_pushUnique e').1 he' with hbase | hnew
    · exact hdeny e' hbase hpath
    · exact access_ne_deny_of_resolved hallow e' hnew
  refine ⟨?_, fun hwrite => ?_⟩
  · rw [resolveAccessWithCwd_asPath hkind', effective_resolved hkind]
    exact hbreadth
  · have haccess : resolveAccess
        (resolved host (pushUnique policy.entries permissions.entries) cwd) q = .write := by
      rw [hwrite] at hbreadth
      cases hmode : resolveAccess
        (resolved host (pushUnique policy.entries permissions.entries) cwd) q with
      | write => rfl
      | read =>
        rw [hmode] at hbreadth
        exact absurd hbreadth (by decide)
      | deny =>
        rw [hmode] at hbreadth
        exact absurd hbreadth (by decide)
    rw [canWritePathWithCwd_iff hkind' (resolveCandidatePath_asPath host q cwd),
      effective_resolved hkind]
    exact ⟨haccess, .inr ((writeAllowed_at_entry he).2 haccess).2⟩

/-- What could be written still can, exactly where the granted entries neither narrow nor guard
it. -/
theorem effective_writes_iff (hkind : policy.kind = .restricted)
    (hallow : ∀ entry ∈ permissions.entries, entry.access ≠ .deny)
    (network : Option NetworkPermissions)
    (hpath : resolveCandidatePath host path cwd = some target)
    (h : policy.canWritePathWithCwd host path cwd = true) :
    (effectiveFileSystemSandboxPolicy policy
      (some ⟨network, some permissions⟩)).canWritePathWithCwd host path cwd = true ↔
      ¬ Narrows (policy.resolvedEntriesWithCwd host cwd) (resolved host permissions.entries cwd)
        target ∧
      ((restricted
          (policy.entries ++ permissions.entries)).hasFullDiskWriteAccess = true ∨
        ¬ Guards (policy.resolvedEntriesWithCwd host cwd ++ resolved host permissions.entries cwd)
          target) := by
  have hwrite := ((canWritePathWithCwd_iff hkind hpath).1 h).1
  have hfull : (effectiveFileSystemSandboxPolicy policy
      (some ⟨network, some permissions⟩)).hasFullDiskWriteAccess =
      (restricted
        (policy.entries ++ permissions.entries)).hasFullDiskWriteAccess := by
    refine hasFullDiskWriteAccess_congr (effective_kind hkind network) fun entry => ?_
    rw [effective_entries hkind, mem_pushUnique]
    exact mem_append.symm
  rw [canWritePathWithCwd_iff (effective_kind hkind network) hpath, effective_resolved hkind, hfull,
    resolveAccess_eq_write_iff_of_added mem_resolved_pushUnique (access_ne_deny_of_resolved hallow)
      hwrite]
  refine and_congr_right fun hnarrows => or_congr_right (not_congr ?_)
  have hstill := (resolveAccess_eq_write_iff_of_added mem_resolved_pushUnique
    (access_ne_deny_of_resolved hallow) hwrite).2 hnarrows
  exact metadataDenied_iff_guards mem_resolved_pushUnique metadataChild_resolved_pushUnique hstill

end KeepsAccess

/-- **Additional permissions** keep all access exactly where, for a path that could be written, the
granted entries do not narrow it and, unless the whole disk is writable, do not guard it. -/
theorem additional_keeps_access_iff (host : Host) (depth : Option ℕ)
    (entries : List FileSystemSandboxEntry) (network : Option NetworkPermissions)
    (permissions : FileSystemPermissions)
    (hallow : ∀ entry ∈ permissions.entries, entry.access ≠ .deny) (path : Path)
    (cwd : AbsolutePathBuf) :
    KeepsAccess host ⟨.restricted, depth, entries⟩ permissions
      (effectiveFileSystemSandboxPolicy ⟨.restricted, depth, entries⟩
        (some ⟨network, some permissions⟩)) path cwd ↔
    (canWritePathWithCwd host ⟨.restricted, depth, entries⟩ path cwd = true →
      ∀ target, resolveCandidatePath host path cwd = some target →
        ¬ Narrows (resolved host entries cwd) (resolved host permissions.entries cwd) target ∧
        ((restricted
            (entries ++ permissions.entries)).hasFullDiskWriteAccess = true ∨
          ¬ Guards (resolved host entries cwd ++ resolved host permissions.entries cwd) target)) := by
  refine ⟨fun h hwrite target hpath => ?_, fun h => ⟨?_, fun hwrite => ?_, ?_⟩⟩
  · exact (effective_writes_iff rfl hallow network hpath hwrite).1 (h.writes hwrite)
  · exact effective_reads rfl hallow network
  · cases hpath : resolveCandidatePath host path cwd with
    | none =>
      unfold canWritePathWithCwd at hwrite
      rw [resolveAccessWithCwd_of_unresolved rfl hpath] at hwrite
      cases hwrite
    | some target =>
      exact (effective_writes_iff rfl hallow network hpath hwrite).2 (h hwrite target hpath)
  · intro entry hentry q hq hdeny
    exact effective_opens rfl hallow network hentry hq hdeny

/-- `/a` is writable, and `/b` is granted: what is below `/a` stays as it was. -/
theorem additional_keeps_access_sibling :
    KeepsAccess emptyHost (.restricted [⟨.path outerDir, .write⟩])
      ⟨[⟨.path ["b".toList], .write⟩], none⟩
      (effectiveFileSystemSandboxPolicy (.restricted [⟨.path outerDir, .write⟩])
        (some ⟨none, some ⟨[⟨.path ["b".toList], .write⟩], none⟩⟩))
      (outerDir ++ ["src".toList]).asPath outerDir := by
  refine (additional_keeps_access_iff emptyHost none [⟨.path outerDir, .write⟩] none
    ⟨[⟨.path ["b".toList], .write⟩], none⟩ (by decide) _ outerDir).2 fun _ target hpath => ⟨?_, .inr ?_⟩
  · rintro ⟨a, ha, -, -, hread⟩
    have haccess := hread a (mem_append_right _ ha) rfl
    rw [mem_singleton.1 ha] at haccess
    cases haccess
  · rintro ⟨-, m, -, -, ⟨-, name, hname, hp⟩, -, -⟩
    have htarget : outerDir ++ ["src".toList] = target := Option.some.inj hpath
    rw [← htarget] at hp
    have hplain : ∀ n ∈ protectedMetadataPathNames, n ∉ outerDir ++ ["src".toList] := by decide
    exact hplain name hname (hp.subset (by simp))

/-- Everything is writable; reading `/a` is granted, and `/a` can no longer be written. -/
theorem granted_read_takes_write :
    ¬ ∀ (host : Host) (entries : List FileSystemSandboxEntry) (permissions : FileSystemPermissions)
      (path : Path) (cwd : AbsolutePathBuf),
      (∀ entry ∈ permissions.entries,
        entry.access ≠ .deny ∧ ∀ pattern, entry.path ≠ .globPattern pattern) →
      KeepsAccess host (.restricted entries) permissions
        (effectiveFileSystemSandboxPolicy (.restricted entries) (some ⟨none, some permissions⟩))
        path cwd := by
  intro h
  have hkeeps := h emptyHost [⟨.special .root, .write⟩] ⟨[⟨.path outerDir, .read⟩], none⟩
    outerDir.asPath outerDir (by simp)
  exact absurd (hkeeps.writes (by decide +kernel)) (by decide +kernel)

end Codex.Permissions
