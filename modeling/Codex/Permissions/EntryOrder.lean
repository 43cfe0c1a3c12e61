import Codex.Permissions.WriteAgreement

/-!
# The order of the entries

A policy is a list of entries that is merged, deduplicated and compared as if it were a set. The
access of a path is a maximum over the entries, so their order does not matter to it. The check of
protected names takes the first writable entry that it finds, and there it does
(`answers_ignore_order_iff`).
-/

namespace Codex.Permissions

open List Codex.Text FileSystemSandboxPolicy

/-! ## Resolved entries as a set -/

section Members

variable {entries entries' : List ResolvedFileSystemEntry} {p : AbsolutePathBuf}
  {e : ResolvedFileSystemEntry}

theorem Decides.of_mem_iff (hmem : ∀ e, e ∈ entries' ↔ e ∈ entries) (h : Decides entries p e) :
    Decides entries' p e where
  mem := (hmem e).2 h.mem
  covers := h.covers
  deepest e' he' := h.deepest e' ((hmem e').1 he')
  strongest e' he' := h.strongest e' ((hmem e').1 he')

theorem resolveAccess_eq_of_mem_iff (hmem : ∀ e, e ∈ entries' ↔ e ∈ entries)
    (p : AbsolutePathBuf) : resolveAccess entries' p = resolveAccess entries p := by
  rcases resolveAccess_spec entries p with ⟨e, he, heq⟩ | ⟨hnone, hdeny⟩
  · rw [heq, (he.of_mem_iff hmem).resolveAccess_eq]
  · rcases resolveAccess_spec entries' p with ⟨e, he, -⟩ | ⟨-, hdeny'⟩
    · exact absurd he.covers (hnone e ((hmem e).1 he.mem))
    · rw [hdeny, hdeny']

/-- The path is the entry's child of a protected name, or lies below it. -/
def InProtectedChild (e : ResolvedFileSystemEntry) (p : AbsolutePathBuf) : Prop :=
  e.access = .write ∧ ∃ name ∈ protectedMetadataPathNames, e.path ++ [name] <+: p

theorem InProtectedChild.covers (h : InProtectedChild e p) : e.path <+: p := by
  obtain ⟨-, name, -, hp⟩ := h
  exact (prefix_append _ _).trans hp

/-- The path is in a protected child of two writable entries. One of them is the deepest entry
above the path, and nothing is denied where it is. -/
structure Contested (entries : List ResolvedFileSystemEntry) (p : AbsolutePathBuf)
    (outer inner : ResolvedFileSystemEntry) : Prop where
  outer_mem : outer ∈ entries
  inner_mem : inner ∈ entries
  apart : outer.path ≠ inner.path
  outer_child : InProtectedChild outer p
  inner_child : InProtectedChild inner p
  deepest : ∀ e ∈ entries, e.path <+: p → e.path <+: inner.path
  notDenied : ∀ e ∈ entries, e.path = inner.path → e.access ≠ .deny

variable {outer inner : ResolvedFileSystemEntry}

theorem Contested.of_mem_iff (hmem : ∀ e, e ∈ entries' ↔ e ∈ entries)
    (h : Contested entries p outer inner) : Contested entries' p outer inner where
  outer_mem := (hmem outer).2 h.outer_mem
  inner_mem := (hmem inner).2 h.inner_mem
  apart := h.apart
  outer_child := h.outer_child
  inner_child := h.inner_child
  deepest e he := h.deepest e ((hmem e).1 he)
  notDenied e he := h.notDenied e ((hmem e).1 he)

theorem Contested.decides (h : Contested entries p outer inner) : Decides entries p inner where
  mem := h.inner_mem
  covers := h.inner_child.covers
  deepest := h.deepest
  strongest e he hpath := by
    have haccess := h.notDenied e he hpath
    rw [h.inner_child.1]
    cases hmode : e.access with
    | read => decide
    | write => decide
    | deny => exact absurd hmode haccess

/-- Without a contest, whether the write is refused is read off the deciding entry. -/
theorem metadataDenied_iff_inProtectedChild (h : ∀ outer inner, ¬ Contested entries p outer inner)
    (he : Decides entries p e) (haccess : e.access = .write) :
    MetadataDenied entries p ↔ InProtectedChild e p := by
  rw [metadataDenied_iff he haccess]
  refine ⟨?_, ?_⟩
  · rintro ⟨name, hchild⟩
    obtain ⟨w, -, -, hname, -, hp⟩ := metadataChild_eq_some hchild
    exact ⟨haccess, name, hname, hp⟩
  · rintro ⟨-, name, hname, hp⟩
    obtain ⟨x, name', hchild⟩ := exists_metadataChild he.mem haccess hname hp
    obtain ⟨w, hw, hwrite, hname', rfl, hp'⟩ := metadataChild_eq_some hchild
    by_cases hpath : w.path = e.path
    · exact ⟨name', hpath ▸ hchild⟩
    · refine absurd ?_ (h w e)
      refine ⟨hw, he.mem, hpath, ⟨hwrite, name', hname', hp'⟩, ⟨haccess, name, hname, hp⟩,
        he.deepest, fun e' he' hpath' hdeny => ?_⟩
      have hrank := he.strongest e' he' hpath'
      rw [hdeny, haccess] at hrank
      exact absurd hrank (by decide)

theorem writeAllowed_congr_of_mem_iff (h : ∀ outer inner, ¬ Contested entries p outer inner)
    (hmem : ∀ e, e ∈ entries' ↔ e ∈ entries) :
    WriteAllowed entries' p ↔ WriteAllowed entries p := by
  have h' : ∀ outer inner, ¬ Contested entries' p outer inner :=
    fun outer inner hc => h outer inner (hc.of_mem_iff fun e => (hmem e).symm)
  unfold WriteAllowed
  rw [resolveAccess_eq_of_mem_iff hmem]
  refine and_congr_right fun haccess => not_congr ?_
  have hne : resolveAccess entries p ≠ .deny := by
    rw [haccess]
    decide
  obtain ⟨e, he⟩ := exists_decides hne
  rw [he.resolveAccess_eq] at haccess
  rw [metadataDenied_iff_inProtectedChild h he haccess,
    metadataDenied_iff_inProtectedChild h' (he.of_mem_iff hmem) haccess]

/-! ## The entry that comes first -/

theorem metadataChild_cons (rest : List ResolvedFileSystemEntry) (h : InProtectedChild e p) :
    ∃ name, metadataChild (e :: rest) p = some (e.path ++ [name], name) := by
  obtain ⟨hwrite, name, hname, t, rfl⟩ := h
  refine ⟨name, ?_⟩
  have hfilter : ((e :: rest).filter fun entry => entry.access.canWrite) =
      e :: rest.filter fun entry => entry.access.canWrite :=
    filter_cons_of_pos (FileSystemAccessMode.canWrite_eq_true.2 hwrite)
  unfold metadataChild
  rw [hfilter, findSome?_cons, List.append_assoc, if_pos (prefix_append _ _),
    drop_left]
  simp only [singleton_append, if_pos hname]

/-- With the inner entry in front the write is refused. -/
theorem Contested.denied_of_inner_first {rest : List ResolvedFileSystemEntry}
    (h : Contested (inner :: rest) p outer inner) : ¬ WriteAllowed (inner :: rest) p := by
  rw [writeAllowed_iff h.decides]
  rintro ⟨-, hnone⟩
  obtain ⟨name, hchild⟩ := metadataChild_cons rest h.inner_child
  exact hnone name hchild

/-- With the outer entry in front it is allowed. -/
theorem Contested.allowed_of_outer_first {rest : List ResolvedFileSystemEntry}
    (h : Contested (outer :: rest) p outer inner) : WriteAllowed (outer :: rest) p := by
  rw [writeAllowed_iff h.decides]
  refine ⟨h.inner_child.1, fun name hchild => h.apart ?_⟩
  obtain ⟨name', hchild'⟩ := metadataChild_cons rest h.outer_child
  have heq := hchild.symm.trans hchild'
  simp only [Option.some_inj, Prod.mk.injEq] at heq
  obtain ⟨hpath, rfl⟩ := heq
  exact (append_cancel_right hpath).symm

end Members

/-! ## Policies -/

section Policies

variable {host : Host} {policy : FileSystemSandboxPolicy} {cwd target : AbsolutePathBuf}
  {path : Path} {entries : List FileSystemSandboxEntry}

theorem mem_resolvedEntries_of_perm (hperm : entries.Perm policy.entries)
    (e : ResolvedFileSystemEntry) :
    e ∈ { policy with entries }.resolvedEntriesWithCwd host cwd ↔
      e ∈ policy.resolvedEntriesWithCwd host cwd :=
  (hperm.filterMap _).mem_iff

theorem any_eq_of_mem_iff {α : Type} {l l' : List α} (hmem : ∀ a, a ∈ l' ↔ a ∈ l) (f : α → Bool) :
    l'.any f = l.any f := by
  rw [Bool.eq_iff_iff, any_eq_true, any_eq_true]
  exact exists_congr fun a => and_congr_left' (hmem a)

theorem hasFullDiskWriteAccess_congr {policy' : FileSystemSandboxPolicy}
    (hkind : policy'.kind = policy.kind)
    (hmem : ∀ entry, entry ∈ policy'.entries ↔ entry ∈ policy.entries) :
    policy'.hasFullDiskWriteAccess = policy.hasFullDiskWriteAccess := by
  have hoverride : ∀ entry, policy'.hasSameTargetWriteOverride entry =
      policy.hasSameTargetWriteOverride entry := fun entry => any_eq_of_mem_iff hmem _
  have hroot : policy'.hasRootAccess FileSystemAccessMode.canWrite =
      policy.hasRootAccess FileSystemAccessMode.canWrite := by
    unfold hasRootAccess
    rw [hkind, any_eq_of_mem_iff hmem]
  have hnarrow : policy'.hasWriteNarrowingEntries = policy.hasWriteNarrowingEntries := by
    have hnarrows : policy'.narrowsWrites = policy.narrowsWrites := by
      funext entry
      simp only [narrowsWrites, hoverride]
    unfold hasWriteNarrowingEntries
    rw [hkind, hnarrows, any_eq_of_mem_iff hmem]
  unfold hasFullDiskWriteAccess
  rw [hkind, hroot, hnarrow]

theorem hasFullDiskWriteAccess_of_perm (hperm : entries.Perm policy.entries) :
    { policy with entries }.hasFullDiskWriteAccess = policy.hasFullDiskWriteAccess :=
  hasFullDiskWriteAccess_congr rfl fun _ => hperm.mem_iff

theorem resolveAccessWithCwd_of_perm (hkind : policy.kind = .restricted)
    (hperm : entries.Perm policy.entries) (host : Host) (path : Path) (cwd : AbsolutePathBuf) :
    { policy with entries }.resolveAccessWithCwd host path cwd =
      policy.resolveAccessWithCwd host path cwd := by
  have hkind' : { policy with entries }.kind = .restricted := hkind
  cases hpath : resolveCandidatePath host path cwd with
  | none =>
    rw [resolveAccessWithCwd_of_unresolved hkind hpath,
      resolveAccessWithCwd_of_unresolved hkind' hpath]
  | some target =>
    rw [resolveAccessWithCwd_of_resolve hkind hpath, resolveAccessWithCwd_of_resolve hkind' hpath,
      resolveAccess_eq_of_mem_iff (mem_resolvedEntries_of_perm hperm)]

/-- An entry of the policy can be brought to the front. -/
theorem exists_perm_resolved_first {e : ResolvedFileSystemEntry}
    (he : e ∈ policy.resolvedEntriesWithCwd host cwd) :
    ∃ entries, entries.Perm policy.entries ∧
      ∃ rest, { policy with entries }.resolvedEntriesWithCwd host cwd = e :: rest := by
  obtain ⟨entry, hentry, hresolve⟩ := mem_filterMap.1 he
  refine ⟨entry :: policy.entries.erase entry, (perm_cons_erase hentry).symm, ?_⟩
  exact ⟨_, filterMap_cons_some hresolve⟩

variable (policy) in
/-- The answers about a path do not depend on the order of the entries. -/
def IgnoresOrder (host : Host) (path : Path) (cwd : AbsolutePathBuf) : Prop :=
  ∀ entries : List FileSystemSandboxEntry, entries.Perm policy.entries →
    { policy with entries }.resolveAccessWithCwd host path cwd =
      policy.resolveAccessWithCwd host path cwd ∧
    { policy with entries }.canReadPathWithCwd host path cwd =
      policy.canReadPathWithCwd host path cwd ∧
    { policy with entries }.canWritePathWithCwd host path cwd =
      policy.canWritePathWithCwd host path cwd

theorem ignoresOrder_iff_canWrite (hkind : policy.kind = .restricted) :
    IgnoresOrder policy host path cwd ↔
      ∀ entries : List FileSystemSandboxEntry, entries.Perm policy.entries →
        { policy with entries }.canWritePathWithCwd host path cwd =
          policy.canWritePathWithCwd host path cwd := by
  refine forall_congr' fun entries => forall_congr' fun hperm => ?_
  have haccess := resolveAccessWithCwd_of_perm hkind hperm host path cwd
  exact ⟨fun h => h.2.2, fun h => ⟨haccess, congrArg _ haccess, h⟩⟩

theorem canWrite_of_perm (hkind : policy.kind = .restricted) (hperm : entries.Perm policy.entries)
    (h : policy.hasFullDiskWriteAccess = true ∨
      ∀ target, resolveCandidatePath host path cwd = some target →
        ∀ outer inner, ¬ Contested (policy.resolvedEntriesWithCwd host cwd) target outer inner) :
    { policy with entries }.canWritePathWithCwd host path cwd =
      policy.canWritePathWithCwd host path cwd := by
  have haccess := resolveAccessWithCwd_of_perm hkind hperm host path cwd
  have hfull := hasFullDiskWriteAccess_of_perm hperm
  by_cases hdisk : policy.hasFullDiskWriteAccess = true
  · unfold canWritePathWithCwd
    rw [haccess, hfull, hdisk]
    rfl
  · have hclear := h.resolve_left hdisk
    rw [Bool.not_eq_true] at hdisk
    cases hpath : resolveCandidatePath host path cwd with
    | none =>
      unfold canWritePathWithCwd
      rw [haccess, resolveAccessWithCwd_of_unresolved hkind hpath]
      rfl
    | some target =>
      rw [canWritePathWithCwd_of_resolve hkind hpath, Bool.eq_iff_iff,
        canWritePathWithCwd_asPath hkind hdisk]
      have hkind' : { policy with entries }.kind = .restricted := hkind
      rw [canWritePathWithCwd_of_resolve hkind' hpath,
        canWritePathWithCwd_asPath hkind' (hfull.trans hdisk)]
      exact writeAllowed_congr_of_mem_iff (hclear target hpath) (mem_resolvedEntries_of_perm hperm)

/-- Where the path is contested, two orders give two answers. -/
theorem Contested.not_ignoresOrder {outer inner : ResolvedFileSystemEntry}
    (hkind : policy.kind = .restricted) (hdisk : policy.hasFullDiskWriteAccess = false)
    (hpath : resolveCandidatePath host path cwd = some target)
    (h : Contested (policy.resolvedEntriesWithCwd host cwd) target outer inner) :
    ¬ IgnoresOrder policy host path cwd := by
  intro hignores
  -- The answer for any order is the answer for the policy's own.
  have hsame : ∀ entries : List FileSystemSandboxEntry, entries.Perm policy.entries →
      (WriteAllowed ({ policy with entries }.resolvedEntriesWithCwd host cwd) target ↔
        policy.canWritePathWithCwd host path cwd = true) := by
    intro entries hperm
    have hkind' : { policy with entries }.kind = .restricted := hkind
    have hdisk' := (hasFullDiskWriteAccess_of_perm hperm).trans hdisk
    rw [← (hignores entries hperm).2.2, canWritePathWithCwd_of_resolve hkind' hpath,
      canWritePathWithCwd_asPath hkind' hdisk']
  obtain ⟨innerFirst, hperm, rest, hresolved⟩ := exists_perm_resolved_first h.inner_mem
  obtain ⟨outerFirst, hperm', rest', hresolved'⟩ := exists_perm_resolved_first h.outer_mem
  have hinner := h.of_mem_iff (mem_resolvedEntries_of_perm hperm)
  have houter := h.of_mem_iff (mem_resolvedEntries_of_perm hperm')
  have hdenied := hsame innerFirst hperm
  have hallowed := hsame outerFirst hperm'
  rw [hresolved] at hinner hdenied
  rw [hresolved'] at houter hallowed
  exact hinner.denied_of_inner_first (hdenied.2 (hallowed.1 houter.allowed_of_outer_first))

end Policies

/-- **The order of the entries** decides an answer exactly where, without full disk access, the
path is in a protected child of two writable entries and the inner one is the deepest above it. -/
theorem answers_ignore_order_iff (host : Host) (depth : Option ℕ)
    (entries : List FileSystemSandboxEntry) (path : Path) (cwd : AbsolutePathBuf) :
    IgnoresOrder ⟨.restricted, depth, entries⟩ host path cwd ↔
      hasFullDiskWriteAccess ⟨.restricted, depth, entries⟩ = true ∨
        ∀ target, resolveCandidatePath host path cwd = some target → ∀ outer inner,
          ¬ Contested (resolvedEntriesWithCwd host
            ⟨.restricted, depth, entries⟩ cwd) target outer inner := by
  refine ⟨fun h => ?_, fun h => ?_⟩
  · rw [or_iff_not_imp_left, Bool.not_eq_true]
    intro hdisk target hpath outer inner hcontested
    exact hcontested.not_ignoresOrder rfl hdisk hpath h
  · rw [ignoresOrder_iff_canWrite rfl]
    intro entries' hperm
    exact canWrite_of_perm rfl hperm h

/-- `/a` and `/a/.git/b` are writable: whether `/a/.git/b/.git` is, depends on which comes first. -/
theorem nested_git_depends_on_order :
    ¬ ∀ (host : Host) (entries : List FileSystemSandboxEntry) (path : Path)
      (cwd : AbsolutePathBuf), IgnoresOrder (.restricted entries) host path cwd := by
  intro h
  let outer : FileSystemSandboxEntry := ⟨.path outerDir, .write⟩
  let inner : FileSystemSandboxEntry := ⟨.path (outerDir ++ [gitName, "b".toList]), .write⟩
  have hsame := (h emptyHost [outer, inner]
    (outerDir ++ [gitName, "b".toList, gitName]).asPath outerDir [inner, outer]
    (List.Perm.swap _ _ _)).2.2
  exact absurd hsame (by decide +kernel)

end Codex.Permissions
