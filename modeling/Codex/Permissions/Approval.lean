import Codex.Permissions.Intersect
import Codex.Permissions.WriteAgreement

/-!
# What an approval hands out

The result of `intersect_permission_profiles` never gives more than the grant.
Against the request it can: a granted directory is accepted by the access of its
own path, and a narrower request for reading below it is not carried over.
-/

namespace Codex.Permissions

open Codex.Text FileSystemSandboxPolicy FileSystemAccessMode

/-! ## On resolved entries -/

section Resolved

variable {R G E : List ResolvedFileSystemEntry} {e : ResolvedFileSystemEntry} {p : AbsolutePathBuf}

/-- The request `R` accepts an entry: it asks for that access at the entry's path, and denies
nothing at or above it (a denial of the root does not count). -/
structure Accepts (R : List ResolvedFileSystemEntry) (e : ResolvedFileSystemEntry) : Prop where
  undenied : ∀ d ∈ R, d.access = .deny → d.path ≠ [] → ¬ d.path <+: e.path
  covered : accessCovers (resolveAccess R e.path) e.access = true

theorem Accepts.access_ne_deny (h : Accepts R e) : e.access ≠ .deny := by
  intro heq
  have hcov := h.covered
  rw [heq] at hcov
  cases hcov

theorem Accepts.breadth_le (h : Accepts R e) :
    e.access.breadth ≤ (resolveAccess R e.path).breadth := by
  have hcov := h.covered
  unfold accessCovers at hcov
  split at hcov
  next heq =>
    rw [heq]
    rw [canRead_eq_true] at hcov
    cases hmode : resolveAccess R e.path with
    | deny => exact absurd hmode hcov
    | read => decide
    | write => decide
  next heq =>
    rw [heq, canWrite_eq_true.1 hcov]
  next => cases hcov

/-- The request and the grant together produce the entries `E`. -/
def Intersects (R G E : List ResolvedFileSystemEntry) : Prop :=
  ∀ e, e ∈ E ↔ e ∈ G ∧ Accepts R e ∨
    e.access = .deny ∧ (e ∈ R ∨ e ∈ G) ∧
      ∃ a ∈ G, Accepts R a ∧ (a.path <+: e.path ∨ e.path <+: a.path)

variable (hE : Intersects R G E)

include hE

/-- Where the result allows something, an accepted entry of the grant decides. -/
theorem Intersects.accepted (he : Decides E p e) (hne : e.access ≠ .deny) :
    e ∈ G ∧ Accepts R e :=
  ((hE e).1 he.mem).resolve_right fun h => hne h.1

/-- No denial lies between the deciding entry and the path. -/
theorem Intersects.no_deny_between {d : ResolvedFileSystemEntry} (he : Decides E p e)
    (hne : e.access ≠ .deny) (hd : d ∈ R ∨ d ∈ G) (hdeny : d.access = .deny)
    (hle : e.path <+: d.path) : ¬ d.path <+: p := by
  intro hp
  obtain ⟨heG, hacc⟩ := hE.accepted he hne
  have hdE : d ∈ E := (hE d).2 (.inr ⟨hdeny, hd, e, heG, hacc, .inl hle⟩)
  have hrank := he.strongest d hdE (prefix_antisymm (he.deepest d hdE hp) hle)
  cases haccess : e.access with
  | deny => exact hne haccess
  | read | write => simp [hdeny, haccess, rank] at hrank

/-- An accepted entry is in the result, so it does not lie below the deciding one. -/
theorem Intersects.accepted_above {g : ResolvedFileSystemEntry} (he : Decides E p e) (hg : g ∈ G)
    (hacc : Accepts R g) (hp : g.path <+: p) : g.path <+: e.path :=
  he.deepest g ((hE g).2 (.inl ⟨hg, hacc⟩)) hp

/-- What the grant lets read below an accepted entry is accepted too, unless a denial stands
between. -/
theorem Intersects.accepts_read {g : ResolvedFileSystemEntry} (he : Decides E p e)
    (hne : e.access ≠ .deny) (hread : g.access = .read) (hle : e.path <+: g.path)
    (hp : g.path <+: p) : Accepts R g := by
  obtain ⟨heG, hacc⟩ := hE.accepted he hne
  refine ⟨fun d hd hdeny hroot hdg => ?_, ?_⟩
  · rcases prefix_total hle hdg with hed | hde
    · exact hE.no_deny_between he hne (.inl hd) hdeny hed (hdg.trans hp)
    · exact hacc.undenied d hd hdeny hroot hde
  · rw [hread, accessCovers, canRead_eq_true]
    -- The request decides the entry's path, so it decides what lies below it as well.
    have hcov := hacc.breadth_le
    have hpos : 0 < e.access.breadth := by
      cases haccess : e.access with
      | deny => exact absurd haccess hne
      | read => decide
      | write => decide
    have hallowed : resolveAccess R e.path ≠ .deny := by
      intro heq
      rw [heq] at hcov
      exact absurd (hpos.trans_le hcov) (by decide)
    obtain ⟨r, hr⟩ := exists_decides hallowed
    obtain ⟨r', hr'⟩ : ∃ r', Decides R g.path r' := exists_governs hr.mem (hr.covers.trans hle)
    rw [hr'.resolveAccess_eq]
    intro hdeny
    rcases prefix_total hle hr'.covers with her | hre
    · exact hE.no_deny_between he hne (.inl hr'.mem) hdeny her (hr'.covers.trans hp)
    · exact hallowed ((Decides.resolveAccess_eq (hr'.between hre hle)).trans hdeny)

/-- **The result never gives more than the grant.** -/
theorem Intersects.breadth_le_granted (p : AbsolutePathBuf) :
    (resolveAccess E p).breadth ≤ (resolveAccess G p).breadth := by
  by_cases hdeny : resolveAccess E p = .deny
  · rw [hdeny]
    exact Nat.zero_le _
  obtain ⟨e, he⟩ := exists_decides hdeny
  rw [he.resolveAccess_eq] at hdeny ⊢
  obtain ⟨heG, -⟩ := hE.accepted he hdeny
  obtain ⟨g, hg⟩ : ∃ g, Decides G p g := exists_governs heG he.covers
  have hle : e.path <+: g.path := hg.deepest e heG he.covers
  rw [hg.resolveAccess_eq]
  cases hgrant : g.access with
  | deny => exact absurd hg.covers (hE.no_deny_between he hdeny (.inr hg.mem) hgrant hle)
  | write => cases e.access <;> decide
  | read =>
    have hacc := hE.accepts_read he hdeny hgrant hle hg.covers
    have hpath := prefix_antisymm (hE.accepted_above he hg.mem hacc hg.covers) hle
    have hrank := hg.strongest e heG hpath.symm
    cases haccess : e.access with
    | deny => exact absurd haccess hdeny
    | read => exact le_refl _
    | write => simp [hgrant, haccess, rank] at hrank

/-- A directory that is granted for writing overwrites a read that was asked for below it: nothing
stands between that would keep it. -/
structure Overwrites (R G : List ResolvedFileSystemEntry) (e x : ResolvedFileSystemEntry) :
    Prop where
  granted : e ∈ G
  write : e.access = .write
  accepted : Accepts R e
  requested : x ∈ R
  read : resolveAccess R x.path = .read
  above : e.path <+: x.path
  strict : e.path ≠ x.path
  no_deny : ∀ d, d ∈ R ∨ d ∈ G → d.access = .deny → e.path <+: d.path → ¬ d.path <+: x.path
  no_read : ∀ g ∈ G, g.access = .read → Accepts R g → e.path <+: g.path → e.path ≠ g.path →
    ¬ g.path <+: x.path

/-- Where a read is overwritten, the result lets write. -/
theorem Intersects.write_of_overwrites {x : ResolvedFileSystemEntry} (h : Overwrites R G e x) :
    resolveAccess E x.path = .write := by
  have heE : e ∈ E := (hE e).2 (.inl ⟨h.granted, h.accepted⟩)
  obtain ⟨f, hf⟩ : ∃ f, Decides E x.path f := exists_governs heE h.above
  have hle : e.path <+: f.path := hf.deepest e heE h.above
  rw [hf.resolveAccess_eq]
  rcases (hE f).1 hf.mem with ⟨hfG, hacc⟩ | ⟨hdeny, hside, -⟩
  · cases hmode : f.access with
    | write => rfl
    | deny => exact absurd hmode hacc.access_ne_deny
    | read =>
      by_cases heq : e.path = f.path
      · have hrank := hf.strongest e heE heq
        simp [h.write, hmode, rank] at hrank
      · exact absurd hf.covers (h.no_read f hfG hmode hacc hle heq)
  · exact absurd hf.covers (h.no_deny f hside hdeny hle)

/-- **The result stays within the request exactly when it overwrites no read.** -/
theorem Intersects.breadth_le_requested_iff :
    (∀ p, (resolveAccess E p).breadth ≤ (resolveAccess R p).breadth) ↔
      ∀ e x, ¬ Overwrites R G e x := by
  constructor
  · intro h e x hover
    have hle := h x.path
    rw [hE.write_of_overwrites hover, hover.read] at hle
    exact absurd hle (by decide)
  · intro h p
    by_cases hdeny : resolveAccess E p = .deny
    · rw [hdeny]
      exact Nat.zero_le _
    obtain ⟨e, he⟩ := exists_decides hdeny
    rw [he.resolveAccess_eq] at hdeny ⊢
    obtain ⟨heG, hacc⟩ := hE.accepted he hdeny
    have hcov := hacc.breadth_le
    rcases resolveAccess_spec R p with ⟨x, hx, hres⟩ | ⟨hno, -⟩
    · rcases prefix_total he.covers hx.covers with hex | hxe
      · rw [hx.resolveAccess_eq]
        by_cases heq : e.path = x.path
        · rw [heq, Decides.resolveAccess_eq hx.self] at hcov
          exact hcov
        · cases hmode : x.access with
          | write => cases e.access <;> decide
          | deny => exact absurd hx.covers (hE.no_deny_between he hdeny (.inl hx.mem) hmode hex)
          | read =>
            cases haccess : e.access with
            | deny => exact absurd haccess hdeny
            | read => exact le_refl _
            | write =>
              refine absurd ⟨heG, haccess, hacc, hx.mem, ?_, hex, heq, ?_, ?_⟩ (h e x)
              · rw [Decides.resolveAccess_eq hx.self, hmode]
              · intro d hd hd' hle hp
                exact hE.no_deny_between he hdeny hd hd' hle (hp.trans hx.covers)
              · intro g hg hread hgacc hle hne hp
                exact hne (prefix_antisymm hle
                  (hE.accepted_above he hg hgacc (hp.trans hx.covers)))
      · rw [Decides.resolveAccess_eq (hx.between hxe he.covers)] at hcov
        rw [hres]
        exact hcov
    · -- Nothing is asked for at the path, so nothing above it either.
      rcases resolveAccess_spec R e.path with ⟨r, hr, -⟩ | ⟨-, hnone⟩
      · exact absurd (hr.covers.trans he.covers) (hno r hr.mem)
      · rw [hnone] at hcov
        exact hcov.trans (Nat.zero_le _)

end Resolved

/-! ## The code, on resolved entries -/

variable {host : Host} {buildGlobMatcher : Str → Option (AbsolutePathBuf → Bool)}
  {cwd : AbsolutePathBuf}

abbrev resolved (host : Host) (entries : List FileSystemSandboxEntry) (cwd : AbsolutePathBuf) :
    List ResolvedFileSystemEntry :=
  (restricted entries).resolvedEntriesWithCwd host cwd

/-- An entry at the place that it points to. -/
abbrev FileSystemSandboxEntry.at (host : Host) (cwd : AbsolutePathBuf)
    (entry : FileSystemSandboxEntry) : ResolvedFileSystemEntry :=
  ⟨entry.path.target host cwd, entry.access⟩

theorem resolvePermissionPath_eq_target {path : FileSystemPath} (h : path.isPlain = true) :
    resolvePermissionPath host path cwd = some (path.target host cwd) := by
  rw [← resolveEntryPath_eq_target host h]
  unfold FileSystemPath.isPlain at h
  split at h
  · rfl
  · rfl
  next subpath => cases subpath <;> rfl
  · cases h

section ReadDeny

variable (hlinks : SymlinkFree host)

include hlinks

variable {path : AbsolutePathBuf} {entries : List FileSystemSandboxEntry}

theorem mem_normalizedAndCanonicalCandidates {candidate : AbsolutePathBuf} :
    candidate ∈ normalizedAndCanonicalCandidates host path ↔ candidate = path := by
  rw [normalizedAndCanonicalCandidates, mem_pushUnique, List.mem_singleton, Option.mem_toList]
  exact or_iff_left_of_imp fun h => hlinks path candidate h

omit hlinks in
theorem restricted_kind (entries : List FileSystemSandboxEntry) :
    (restricted entries).kind = .restricted := rfl

theorem mem_getUnreadableRoots :
    path ∈ (restricted entries).getUnreadableRootsWithCwd host cwd ↔
      ∃ d ∈ resolved host entries cwd, d.access = .deny ∧ d.path ≠ [] ∧ d.path = path := by
  rw [getUnreadableRootsWithCwd, if_pos (restricted_kind entries),
    mem_dedupAbsolutePaths hlinks, List.mem_map]
  simp only [List.mem_filter, Bool.and_eq_true, decide_eq_true_eq, and_assoc]
  refine exists_congr fun d => and_congr_right fun hd => and_congr_right fun hdeny => ?_
  have hunread : (!(restricted entries).canReadPathWithCwd host
      d.path.asPath cwd) = true := by
    rw [canReadPathWithCwd, resolveAccessWithCwd_asPath rfl,
      resolveAccess_eq_deny_of_mem hd hdeny]
    rfl
  rw [and_iff_right hunread]
  exact and_congr_left' (ne_comm)

omit hlinks in
theorem getUnreadableGlobs_eq_nil (hplain : ∀ entry ∈ entries, entry.path.isPlain = true) :
    (restricted entries).getUnreadableGlobsWithCwd host cwd = [] := by
  have hnone : entries.filterMap (deniedGlob host · cwd) = [] := by
    rw [List.filterMap_eq_nil_iff]
    intro entry hentry
    have hp := hplain entry hentry
    unfold deniedGlob
    split
    next _ _ pattern _ heq =>
      rw [heq] at hp
      cases hp
    next => rfl
  rw [getUnreadableGlobsWithCwd, if_pos (restricted_kind entries)]
  show ((entries.filterMap (deniedGlob host · cwd)).insertionSort _).dedup = []
  rw [hnone]
  rfl

/-- The matcher of a request denies what lies at or below one of its denials. -/
theorem isReadDenied_iff (buildGlobMatcher : Str → Option (AbsolutePathBuf → Bool))
    (hplain : ∀ entry ∈ entries, entry.path.isPlain = true) :
    (ReadDenyMatcher.new host buildGlobMatcher (.restricted entries) cwd).any
        (fun matcher => matcher.isReadDenied host path) = true ↔
      ∃ d ∈ resolved host entries cwd, d.access = .deny ∧ d.path ≠ [] ∧ d.path <+: path := by
  rw [ReadDenyMatcher.new, getUnreadableGlobs_eq_nil hplain]
  by_cases hdenied : (restricted entries).hasDeniedReadRestrictions = true
  · rw [if_pos hdenied]
    simp only [List.map_nil, List.filterMap_nil, List.any_nil, Option.any_some,
      ReadDenyMatcher.isReadDenied, Bool.false_or, Bool.or_false, List.any_eq_true, List.mem_map,
      exists_exists_and_eq_and, mem_normalizedAndCanonicalCandidates hlinks, exists_eq_left,
      mem_getUnreadableRoots hlinks, Bool.or_eq_true, decide_eq_true_eq]
    constructor
    · rintro ⟨root, ⟨d, hd, hdeny, hroot, rfl⟩, h⟩
      refine ⟨d, hd, hdeny, hroot, ?_⟩
      rcases h with rfl | h
      · exact List.prefix_refl _
      · exact h
    · rintro ⟨d, hd, hdeny, hroot, h⟩
      exact ⟨d.path, ⟨d, hd, hdeny, hroot, rfl⟩, .inr h⟩
  · rw [if_neg hdenied]
    simp only [Option.any_none, Bool.false_eq_true, false_iff]
    rintro ⟨d, hd, hdeny, -, -⟩
    obtain ⟨entry, hentry, rfl⟩ := (mem_resolvedEntriesWithCwd hplain).1 hd
    refine hdenied ?_
    rw [hasDeniedReadRestrictions, Bool.and_eq_true, List.any_eq_true]
    exact ⟨rfl, entry, hentry, decide_eq_true hdeny⟩

/-- A granted entry is within the request exactly when the resolved request accepts it. -/
theorem within_iff_accepts {requested : FileSystemPermissions} {entry : FileSystemSandboxEntry}
    (hreq : ∀ entry ∈ requested.entries, entry.path.isPlain = true)
    (hplain : entry.path.isPlain = true) :
    grantedFileSystemEntryWithinRequest host requested (.restricted requested.entries)
        (ReadDenyMatcher.new host buildGlobMatcher (.restricted requested.entries) cwd) entry cwd
        = true ↔
      Accepts (resolved host requested.entries cwd) (entry.at host cwd) := by
  have hdenied : _ ↔ ∃ d ∈ resolved host requested.entries cwd, d.access = .deny ∧ d.path ≠ [] ∧
      d.path <+: entry.path.target host cwd := isReadDenied_iff hlinks buildGlobMatcher hreq
  rw [grantedFileSystemEntryWithinRequest, resolvePermissionPath_eq_target hplain]
  simp only [resolveAccessWithCwd_asPath (restricted_kind _)]
  constructor
  · intro h
    split at h
    next => cases h
    next =>
      split at h
      next => cases h
      next hno =>
        refine ⟨fun d hd hdeny hroot hle => hno (hdenied.2 ⟨d, hd, hdeny, hroot, hle⟩), h⟩
  · intro h
    have hread : entry.access.canRead = true :=
      canRead_eq_true.2 h.access_ne_deny
    rw [if_neg (by simp [hread]), if_neg]
    · exact h.covered
    · rw [hdenied]
      rintro ⟨d, hd, hdeny, hroot, hle⟩
      exact h.undenied d hd hdeny hroot hle

end ReadDeny

/-- Making an entry independent of the working directory does not move it. -/
theorem materializeCwdDependentEntry_spec {entry : FileSystemSandboxEntry}
    (hplain : entry.path.isPlain = true) :
    (materializeCwdDependentEntry host entry cwd).path.isPlain = true ∧
      (materializeCwdDependentEntry host entry cwd).at host cwd = entry.at host cwd := by
  obtain ⟨path, access⟩ := entry
  have hcases := hplain
  unfold FileSystemPath.isPlain at hcases
  split at hcases
  next path heq =>
    cases heq
    exact ⟨rfl, rfl⟩
  next heq =>
    cases heq
    exact ⟨rfl, rfl⟩
  next subpath heq =>
    cases heq
    rw [materializeCwdDependentEntry]
    simp only [resolvePermissionPath_eq_target hplain]
    exact ⟨rfl, rfl⟩
  next => cases hcases

/-- A denial constrains the accepted entries exactly when it lies above or below one of them. -/
theorem denyEntryConstrains_iff {deny : FileSystemSandboxEntry}
    {accepted : List FileSystemSandboxEntry} (hdeny : deny.path.isPlain = true)
    (hplain : ∀ entry ∈ accepted, entry.path.isPlain = true) :
    denyEntryConstrainsAcceptedGrant host deny accepted cwd = true ↔
      ∃ a ∈ accepted, a.access ≠ .deny ∧ (a.path.target host cwd <+: deny.path.target host cwd ∨
        deny.path.target host cwd <+: a.path.target host cwd) := by
  rw [denyEntryConstrainsAcceptedGrant, List.any_eq_true]
  refine exists_congr fun a => and_congr_right fun ha => ?_
  rw [resolvePermissionPath_eq_target (hplain a ha), Bool.and_eq_true,
    canRead_eq_true]
  refine and_congr_right fun _ => ?_
  have hside : ((resolvePermissionPath host deny.path cwd).any fun denyPath =>
      pathsOverlap denyPath (a.path.target host cwd)) = true ↔
        a.path.target host cwd <+: deny.path.target host cwd ∨
          deny.path.target host cwd <+: a.path.target host cwd := by
    rw [resolvePermissionPath_eq_target hdeny, Option.any_some, pathsOverlap, Bool.or_eq_true,
      decide_eq_true_eq, decide_eq_true_eq]
  rw [← hside]
  cases hpath : deny.path with
  | path path => rfl
  | special value => rfl
  | globPattern pattern =>
    rw [hpath] at hdeny
    cases hdeny

/-! ## Profiles -/

namespace AdditionalPermissionProfile

def entries (profile : AdditionalPermissionProfile) : List FileSystemSandboxEntry :=
  match profile.fileSystem with
  | none => []
  | some permissions => permissions.entries

def NetworkEnabled (profile : AdditionalPermissionProfile) : Prop :=
  profile.network = some ⟨some true⟩

/-- The access of a path under the profile's entries. -/
def accessWithCwd (host : Host) (profile : AdditionalPermissionProfile) (path : Path)
    (cwd : AbsolutePathBuf) : FileSystemAccessMode :=
  (restricted profile.entries).resolveAccessWithCwd host path cwd

end AdditionalPermissionProfile

section Profiles

variable {profile : AdditionalPermissionProfile}

theorem accessWithCwd_of_some {path : Path} {p : AbsolutePathBuf}
    (h : resolveCandidatePath host path cwd = some p) :
    profile.accessWithCwd host path cwd = resolveAccess (resolved host profile.entries cwd) p := by
  rw [AdditionalPermissionProfile.accessWithCwd, resolveAccessWithCwd]
  simp only [restricted_kind, h]

theorem accessWithCwd_of_none {path : Path} (h : resolveCandidatePath host path cwd = none) :
    profile.accessWithCwd host path cwd = .deny := by
  rw [AdditionalPermissionProfile.accessWithCwd, resolveAccessWithCwd]
  simp only [restricted_kind, h]

theorem accessWithCwd_asPath {p : AbsolutePathBuf} :
    profile.accessWithCwd host p.asPath cwd = resolveAccess (resolved host profile.entries cwd) p :=
  accessWithCwd_of_some (resolveCandidatePath_asPath host p cwd)

variable {requested granted : AdditionalPermissionProfile}

theorem entries_intersect_none (hnone : requested.fileSystem = none) :
    (intersectPermissionProfiles host buildGlobMatcher requested granted cwd).entries = [] := by
  rw [intersectPermissionProfiles, hnone]
  rfl

theorem entries_intersect_some {permissions : FileSystemPermissions}
    (hsome : requested.fileSystem = some permissions) :
    (intersectPermissionProfiles host buildGlobMatcher requested granted cwd).entries =
      (intersectFileSystemPermissions host buildGlobMatcher permissions
        (granted.fileSystem.getD ⟨[], none⟩) cwd).entries := by
  rw [intersectPermissionProfiles, hsome, Option.map_some, AdditionalPermissionProfile.entries]
  cases h : (intersectFileSystemPermissions host buildGlobMatcher permissions
      (granted.fileSystem.getD ⟨[], none⟩) cwd).entries with
  | nil => simp [Option.filter, h]
  | cons entry entries => simp [Option.filter, h]

theorem entries_getD : (granted.fileSystem.getD ⟨[], none⟩).entries = granted.entries := by
  rw [AdditionalPermissionProfile.entries]
  cases granted.fileSystem <;> rfl

theorem networkEnabled_intersect
    (h : (intersectPermissionProfiles host buildGlobMatcher requested granted cwd).NetworkEnabled) :
    requested.NetworkEnabled ∧ granted.NetworkEnabled := by
  unfold intersectPermissionProfiles AdditionalPermissionProfile.NetworkEnabled at h
  dsimp only at h
  split at h
  next hr hg => exact ⟨hr, hg⟩
  next => cases h

theorem not_accepts_nil (e : ResolvedFileSystemEntry) : ¬ Accepts [] e := by
  intro h
  have hcov : accessCovers .deny e.access = true := h.covered
  cases haccess : e.access <;> rw [haccess] at hcov <;> cases hcov

variable {accepted : List FileSystemSandboxEntry}

/-- Entries that are kept for what they resolve to, each at its place. -/
theorem exists_materialized_iff {source kept : List FileSystemSandboxEntry}
    {Kept : ResolvedFileSystemEntry → Prop}
    (hsource : ∀ entry ∈ source, entry.path.isPlain = true)
    (hmem : ∀ a, a ∈ kept ↔ ∃ s ∈ source, Kept (s.at host cwd) ∧
      materializeCwdDependentEntry host s cwd = a) :
    (∀ entry ∈ kept, entry.path.isPlain = true) ∧
      ∀ e, (∃ a ∈ kept, e = a.at host cwd) ↔ e ∈ resolved host source cwd ∧ Kept e := by
  refine ⟨fun a ha => ?_, fun e => ?_⟩
  · obtain ⟨s, hs, -, rfl⟩ := (hmem a).1 ha
    exact (materializeCwdDependentEntry_spec (hsource s hs)).1
  · rw [mem_resolvedEntriesWithCwd hsource]
    constructor
    · rintro ⟨a, ha, rfl⟩
      obtain ⟨s, hs, hkept, rfl⟩ := (hmem a).1 ha
      rw [(materializeCwdDependentEntry_spec (hsource s hs)).2]
      exact ⟨⟨s, hs, rfl⟩, hkept⟩
    · rintro ⟨⟨s, hs, rfl⟩, hkept⟩
      exact ⟨_, (hmem _).2 ⟨s, hs, hkept, rfl⟩,
        (materializeCwdDependentEntry_spec (hsource s hs)).2.symm⟩

/-- The denials that are kept, each at its place. -/
theorem exists_retained_iff {source : List FileSystemSandboxEntry}
    (hsource : ∀ entry ∈ source, entry.path.isPlain = true)
    (haccepted : ∀ entry ∈ accepted, entry.path.isPlain = true) :
    (∀ entry ∈ retainConstrainingDenyEntries host source accepted cwd,
      entry.path.isPlain = true) ∧
      ∀ e, (∃ d ∈ retainConstrainingDenyEntries host source accepted cwd, e = d.at host cwd) ↔
        e.access = .deny ∧ e ∈ resolved host source cwd ∧
          ∃ a ∈ accepted, a.access ≠ .deny ∧ (a.path.target host cwd <+: e.path ∨
            e.path <+: a.path.target host cwd) := by
  simp only [and_left_comm (b := _ ∈ resolved host source cwd)]
  refine exists_materialized_iff hsource fun d => ?_
  simp only [retainConstrainingDenyEntries, List.mem_map, List.mem_filter, Bool.and_eq_true,
    decide_eq_true_eq, and_assoc]
  refine exists_congr fun s => and_congr_right fun hs => and_congr_right fun _ => ?_
  exact and_congr_left' (denyEntryConstrains_iff (hsource s hs) haccepted)

variable (hlinks : SymlinkFree host)

include hlinks

/-- The accepted entries, each at its place. -/
theorem exists_accepted_iff {requested granted : FileSystemPermissions}
    (hreq : ∀ entry ∈ requested.entries, entry.path.isPlain = true)
    (hgr : ∀ entry ∈ granted.entries, entry.path.isPlain = true)
    (hacc : accepted = pushUnique [] ((granted.entries.filter fun entry =>
      grantedFileSystemEntryWithinRequest host requested (.restricted requested.entries)
        (ReadDenyMatcher.new host buildGlobMatcher (.restricted requested.entries) cwd) entry cwd).map
          (materializeCwdDependentEntry host · cwd))) :
    (∀ entry ∈ accepted, entry.path.isPlain = true) ∧
      ∀ e, (∃ a ∈ accepted, e = a.at host cwd) ↔
        e ∈ resolved host granted.entries cwd ∧ Accepts (resolved host requested.entries cwd) e := by
  refine exists_materialized_iff hgr fun a => ?_
  rw [hacc, mem_pushUnique, List.mem_map]
  simp only [List.not_mem_nil, false_or, List.mem_filter, and_assoc]
  refine exists_congr fun g => and_congr_right fun hg => ?_
  exact and_congr_left' (within_iff_accepts hlinks hreq (hgr g hg))

/-- **The code computes the intersection of the resolved entries.** -/
theorem intersectFileSystemPermissions_intersects {requested granted : FileSystemPermissions}
    (hreq : ∀ entry ∈ requested.entries, entry.path.isPlain = true)
    (hgr : ∀ entry ∈ granted.entries, entry.path.isPlain = true) :
    Intersects (resolved host requested.entries cwd) (resolved host granted.entries cwd)
      (resolved host
        (intersectFileSystemPermissions host buildGlobMatcher requested granted cwd).entries cwd) := by
  obtain ⟨accepted, hacc⟩ : ∃ accepted, accepted = pushUnique [] ((granted.entries.filter fun entry =>
      grantedFileSystemEntryWithinRequest host requested (.restricted requested.entries)
        (ReadDenyMatcher.new host buildGlobMatcher (.restricted requested.entries) cwd) entry cwd).map
          (materializeCwdDependentEntry host · cwd)) := ⟨_, rfl⟩
  obtain ⟨haplain, hamem⟩ := exists_accepted_iff hlinks hreq hgr hacc
  obtain ⟨hrplain, hrmem⟩ := exists_retained_iff hreq haplain
  obtain ⟨hgplain, hgmem⟩ := exists_retained_iff hgr haplain
  have hentries : (intersectFileSystemPermissions host buildGlobMatcher requested granted
      cwd).entries = pushUnique (pushUnique accepted
        (retainConstrainingDenyEntries host requested.entries accepted cwd))
          (retainConstrainingDenyEntries host granted.entries accepted cwd) := by
    rw [hacc]
    rfl
  have hmem : ∀ entry, entry ∈ (intersectFileSystemPermissions host buildGlobMatcher requested
      granted cwd).entries ↔ (entry ∈ accepted ∨
        entry ∈ retainConstrainingDenyEntries host requested.entries accepted cwd) ∨
          entry ∈ retainConstrainingDenyEntries host granted.entries accepted cwd := by
    intro entry
    rw [hentries, mem_pushUnique, mem_pushUnique]
  have hplain : ∀ entry ∈ (intersectFileSystemPermissions host buildGlobMatcher requested granted
      cwd).entries, entry.path.isPlain = true := by
    intro entry hentry
    rcases (hmem entry).1 hentry with (h | h) | h
    · exact haplain entry h
    · exact hrplain entry h
    · exact hgplain entry h
  -- What touches an accepted entry, stated on resolved entries.
  have hnear : ∀ e : ResolvedFileSystemEntry, (∃ a ∈ accepted, a.access ≠ .deny ∧
      (a.path.target host cwd <+: e.path ∨ e.path <+: a.path.target host cwd)) ↔
        ∃ a ∈ resolved host granted.entries cwd, Accepts (resolved host requested.entries cwd) a ∧
          (a.path <+: e.path ∨ e.path <+: a.path) := by
    intro e
    constructor
    · rintro ⟨a, ha, -, h⟩
      obtain ⟨haG, haccepts⟩ := (hamem (a.at host cwd)).1 ⟨a, ha, rfl⟩
      exact ⟨_, haG, haccepts, h⟩
    · rintro ⟨a, haG, haccepts, h⟩
      obtain ⟨a, ha, rfl⟩ := (hamem a).2 ⟨haG, haccepts⟩
      exact ⟨a, ha, haccepts.access_ne_deny, h⟩
  intro e
  rw [mem_resolvedEntriesWithCwd hplain]
  simp only [restricted, hmem, or_and_right, exists_or]
  rw [hamem, hrmem, hgmem, hnear, or_assoc, ← and_or_left, ← or_and_right]

theorem intersects_profiles (hreq : ∀ entry ∈ requested.entries, entry.path.isPlain = true)
    (hgr : ∀ entry ∈ granted.entries, entry.path.isPlain = true) :
    Intersects (resolved host requested.entries cwd) (resolved host granted.entries cwd)
      (resolved host
        (intersectPermissionProfiles host buildGlobMatcher requested granted cwd).entries cwd) := by
  cases hfs : requested.fileSystem with
  | none =>
    have hR : requested.entries = [] := by rw [AdditionalPermissionProfile.entries, hfs]
    rw [entries_intersect_none hfs, hR]
    intro e
    refine iff_of_false (List.not_mem_nil) ?_
    rintro (⟨-, h⟩ | ⟨-, -, a, -, h, -⟩)
    · exact not_accepts_nil e h
    · exact not_accepts_nil a h
  | some permissions =>
    have hR : requested.entries = permissions.entries := by
      rw [AdditionalPermissionProfile.entries, hfs]
    rw [entries_intersect_some hfs, hR, ← entries_getD]
    rw [hR] at hreq
    rw [← entries_getD] at hgr
    exact intersectFileSystemPermissions_intersects hlinks hreq hgr

end Profiles

/-- **An approval hands out no more than was asked for and no more than was granted, exactly when
no requested read is overwritten by a granted write above it.** The bound by the grant and the one
on the network hold always. -/
theorem approval_within_iff (hlinks : SymlinkFree host)
    {requested granted : AdditionalPermissionProfile}
    (hreq : ∀ entry ∈ requested.entries, entry.path.isPlain = true)
    (hgr : ∀ entry ∈ granted.entries, entry.path.isPlain = true) (cwd : AbsolutePathBuf) :
    ((∀ path,
      ((intersectPermissionProfiles host buildGlobMatcher requested granted cwd).accessWithCwd
        host path cwd).breadth ≤ (requested.accessWithCwd host path cwd).breadth ∧
      ((intersectPermissionProfiles host buildGlobMatcher requested granted cwd).accessWithCwd
        host path cwd).breadth ≤ (granted.accessWithCwd host path cwd).breadth) ∧
      ((intersectPermissionProfiles host buildGlobMatcher requested granted cwd).NetworkEnabled →
        requested.NetworkEnabled ∧ granted.NetworkEnabled)) ↔
    ∀ e x, ¬ Overwrites (resolved host requested.entries cwd)
      (resolved host granted.entries cwd) e x := by
  have hE : Intersects _ _ (resolved host
      (intersectPermissionProfiles host buildGlobMatcher requested granted cwd).entries cwd) :=
    intersects_profiles hlinks hreq hgr
  rw [← hE.breadth_le_requested_iff]
  constructor
  · intro h p
    have hp := (h.1 p.asPath).1
    rw [accessWithCwd_asPath, accessWithCwd_asPath] at hp
    exact hp
  · intro h
    refine ⟨fun path => ?_, networkEnabled_intersect⟩
    cases hpath : resolveCandidatePath host path cwd with
    | none =>
      rw [accessWithCwd_of_none hpath]
      exact ⟨Nat.zero_le _, Nat.zero_le _⟩
    | some p =>
      simp only [accessWithCwd_of_some hpath]
      exact ⟨h p, hE.breadth_le_granted p⟩

/-! ## A granted directory over a requested file -/

def requestedNested : AdditionalPermissionProfile :=
  ⟨none, some ⟨[⟨.path outerDir, .write⟩, ⟨.path innerDir, .read⟩], none⟩⟩

def grantedOuter : AdditionalPermissionProfile :=
  ⟨none, some ⟨[⟨.path outerDir, .write⟩], none⟩⟩

def grantedInner : AdditionalPermissionProfile :=
  ⟨none, some ⟨[⟨.path innerDir, .write⟩], none⟩⟩

/-- The grant of a directory inside the requested one hands out what was granted. -/
theorem approval_within_inner :
    (∀ path,
      ((intersectPermissionProfiles emptyHost (fun _ => none) grantedOuter grantedInner
        outerDir).accessWithCwd emptyHost path outerDir).breadth ≤
          (grantedOuter.accessWithCwd emptyHost path outerDir).breadth ∧
      ((intersectPermissionProfiles emptyHost (fun _ => none) grantedOuter grantedInner
        outerDir).accessWithCwd emptyHost path outerDir).breadth ≤
          (grantedInner.accessWithCwd emptyHost path outerDir).breadth) ∧
    ((intersectPermissionProfiles emptyHost (fun _ => none) grantedOuter grantedInner
      outerDir).NetworkEnabled → grantedOuter.NetworkEnabled ∧ grantedInner.NetworkEnabled) := by
  refine (approval_within_iff emptyHost_symlinkFree (by decide) (by decide) outerDir).2 ?_
  intro e x h
  have hx : x = ⟨outerDir, .write⟩ := List.mem_singleton.1 h.requested
  have hread := h.read
  rw [hx] at hread
  revert hread
  decide +kernel

/-- Reading below a writable directory was asked for, and writing is handed out. -/
theorem approval_overwrites_read :
    (requestedNested.accessWithCwd emptyHost innerDir.asPath outerDir = .read ∧
      (intersectPermissionProfiles emptyHost (fun _ => none) requestedNested grantedOuter
        outerDir).accessWithCwd emptyHost innerDir.asPath outerDir = .write) ∧
    ¬ (∀ path,
      ((intersectPermissionProfiles emptyHost (fun _ => none) requestedNested grantedOuter
        outerDir).accessWithCwd emptyHost path outerDir).breadth ≤
          (requestedNested.accessWithCwd emptyHost path outerDir).breadth) := by
  have haccess : requestedNested.accessWithCwd emptyHost innerDir.asPath outerDir = .read ∧
      (intersectPermissionProfiles emptyHost (fun _ => none) requestedNested grantedOuter
        outerDir).accessWithCwd emptyHost innerDir.asPath outerDir = .write := by
    decide +kernel
  refine ⟨haccess, fun h => ?_⟩
  have hle := h innerDir.asPath
  rw [haccess.1, haccess.2] at hle
  exact absurd hle (by decide)

end Codex.Permissions
