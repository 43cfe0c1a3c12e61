import Codex.Config.DomainKeys
import Codex.NetworkProxy.HostBlocked

/-!
# Overlaid network domains

The domains of a permission profile in two layers (`config/src/merge.rs`). Before one table is
laid over the other, the keys of both are replaced by `normalize_host` of them, and of the keys
that become the same the last stands, with whatever it says. What the proxy decides for a host is
read from the patterns, where a denial wins (`network-proxy/src/config.rs`). Where the keys match the
host as their normal forms do, the decision is lost exactly for a host whose denials are all followed
by a permission under the same normal form (`overlay_keeps_decision_iff`).
-/

namespace Codex.Config

open List Codex.Text NetworkProxy

inductive NetworkDomainPermissionToml where
  | allow
  | deny
  deriving DecidableEq

namespace NetworkDomainPermissionToml

def toToml : NetworkDomainPermissionToml → TomlValue
  | allow => .scalar "allow".toList
  | deny => .scalar "deny".toList

end NetworkDomainPermissionToml

/-- A table of domains, in the order of its keys. -/
abbrev Domains := List (Str × NetworkDomainPermissionToml)

def Domains.toToml (domains : Domains) : TomlValue :=
  .table (domains.map fun entry => (entry.1, entry.2.toToml))

/-! ## Decisions -/

section

variable (glob : Str → Str → Bool)

/-- A pattern matches a host when one of its globs does. -/
def matchesHost (pattern host : Str) : Bool :=
  globsetMatchesHostOrUnscoped glob (globsOf pattern) host

/-- A pattern of the table with the permission matches the host. -/
def hasPermission (domains : Domains) (permission : NetworkDomainPermissionToml) (host : Str) : Bool :=
  domains.any fun entry => entry.2 = permission && matchesHost glob entry.1 host

/-- What the table decides for a host, if it has a pattern for it. -/
def decision (domains : Domains) (host : Str) : Option NetworkDomainPermissionToml :=
  if hasPermission glob domains .deny host then some .deny
  else if hasPermission glob domains .allow host then some .allow
  else none

variable {glob}

variable {permission : NetworkDomainPermissionToml}

theorem hasPermission_iff {domains : Domains} {host : Str} :
    hasPermission glob domains permission host = true ↔
      ∃ entry ∈ domains, entry.2 = permission ∧ matchesHost glob entry.1 host = true := by
  simp only [hasPermission, any_eq_true, Bool.and_eq_true, decide_eq_true_eq]

theorem decision_eq_deny {domains : Domains} {host : Str}
    (h : hasPermission glob domains .deny host = true) :
    decision glob domains host = some .deny := if_pos h

theorem decision_eq_allow {domains : Domains} {host : Str}
    (hdeny : hasPermission glob domains .deny host = false)
    (hallow : hasPermission glob domains .allow host = true) :
    decision glob domains host = some .allow := by
  rw [decision, if_neg (Bool.eq_false_iff.1 hdeny), if_pos hallow]

/-- What is decided is said by some key. -/
theorem hasPermission_of_decision {domains : Domains} {host : Str}
    (h : decision glob domains host = some permission) :
    hasPermission glob domains permission host = true := by
  unfold decision at h
  split at h
  · next hdeny =>
    cases h
    exact hdeny
  · split at h
    · next hallow =>
      cases h
      exact hallow
    · cases h

theorem decision_eq_none {domains : Domains} {host : Str} :
    decision glob domains host = none ↔ ∀ entry ∈ domains, matchesHost glob entry.1 host = false := by
  constructor
  · intro hnone entry hentry
    rw [Bool.eq_false_iff]
    intro hmatch
    have hsaid : hasPermission glob domains entry.2 host = true :=
      hasPermission_iff.2 ⟨entry, hentry, rfl, hmatch⟩
    unfold decision at hnone
    cases hpermission : entry.2 with
    | allow =>
      rw [hpermission] at hsaid
      rw [if_pos hsaid] at hnone
      split at hnone
      · cases hnone
      · cases hnone
    | deny =>
      rw [hpermission] at hsaid
      rw [if_pos hsaid] at hnone
      cases hnone
  · intro hall
    have hsilent : ∀ permission, hasPermission glob domains permission host ≠ true := by
      intro permission hsaid
      obtain ⟨entry, hentry, -, hmatch⟩ := hasPermission_iff.1 hsaid
      rw [hall entry hentry] at hmatch
      cases hmatch
    rw [decision, if_neg (hsilent .deny), if_neg (hsilent .allow)]

end

/-! ## Tables over tables -/

section Over

variable {β : Type} {key : Str} {value : β} {entries base overlay : List (Str × β)}

/-- The entries of the overlay replace those of the base, or are added. -/
def overlaid (base overlay : List (Str × β)) : List (Str × β) :=
  overlay.foldl (fun table entry => Entries.insert entry.1 entry.2 table) base

theorem overlaid_concat (base overlay : List (Str × β)) (entry : Str × β) :
    overlaid base (overlay ++ [entry]) = Entries.insert entry.1 entry.2 (overlaid base overlay) := by
  rw [overlaid, foldl_append]
  rfl

theorem keys_overlaid_nodup (h : (base.map Prod.fst).Nodup) :
    ((overlaid base overlay).map Prod.fst).Nodup := by
  induction overlay using List.reverseRecOn with
  | nil => exact h
  | append_singleton overlay entry ih =>
    rw [overlaid_concat]
    exact Entries.keys_insert_nodup ih

/-- What the overlay has is what stands. -/
theorem get?_overlaid (hnodup : (overlay.map Prod.fst).Nodup) :
    Entries.get? key (overlaid base overlay) = (Entries.get? key overlay).or (Entries.get? key base) := by
  induction overlay using List.reverseRecOn with
  | nil => rfl
  | append_singleton overlay entry ih =>
    rw [map_append, map_singleton, nodup_append] at hnodup
    have hnot : entry.1 ∉ overlay.map Prod.fst := fun hmem =>
      hnodup.2.2 _ hmem _ (mem_singleton_self _) rfl
    rw [overlaid_concat, Entries.get?_insert, ih hnodup.1, ← Entries.insert_of_notMem hnot,
      Entries.get?_insert]
    split
    · rfl
    · rfl

theorem overlaid_map {γ : Type} (f : β → γ) (base overlay : List (Str × β)) :
    overlaid (base.map fun entry => (entry.1, f entry.2)) (overlay.map fun entry => (entry.1, f entry.2)) =
      (overlaid base overlay).map fun entry => (entry.1, f entry.2) := by
  induction overlay using List.reverseRecOn with
  | nil => rfl
  | append_singleton overlay entry ih =>
    rw [map_append, map_singleton, overlaid_concat, ih, overlaid_concat]
    exact Entries.insert_map f

end Over

/-! ## The merged table -/

/-- What the merge of two tables of domains is. -/
def mergeDomains (base overlay : Domains) : Domains :=
  overlaid (normalizeNetworkDomainKeys base) (normalizeNetworkDomainKeys overlay)

theorem normalizedWithKeyAliases_toToml (path : List Str) (permission : NetworkDomainPermissionToml) :
    normalizedWithKeyAliases path permission.toToml = permission.toToml := by
  cases permission <;> rfl

theorem mergeAtPath_permission (permission : NetworkDomainPermissionToml) (existing : TomlValue)
    (path : List Str) : mergeAtPath permission.toToml existing path = permission.toToml := by
  cases permission <;> rfl

/-- An overlay of permissions replaces what is there. -/
theorem mergedEntries_permissions (path : List Str) (overlay : Domains)
    (base : List (Str × TomlValue)) :
    mergedEntries path base (overlay.map fun entry => (entry.1, entry.2.toToml)) =
      overlaid base (overlay.map fun entry => (entry.1, entry.2.toToml)) := by
  induction overlay generalizing base with
  | nil => rfl
  | cons entry overlay ih =>
    rw [map_cons, mergedEntries_cons, ih]
    refine congrArg (fun base => overlaid base _) ?_
    unfold mergeEntry
    dsimp only
    split
    · rw [mergeAtPath_permission]
    · rw [normalizedWithKeyAliases_toToml]

theorem mergeAtPath_domains (profile : Str) (base overlay : Domains) :
    mergeAtPath overlay.toToml base.toToml (domainsPath profile) =
      (mergeDomains base overlay).toToml := by
  unfold Domains.toToml
  rw [mergeAtPath_tables, normalizeEntries_domains, normalizeEntries_domains,
    normalizeNetworkDomainKeys_map NetworkDomainPermissionToml.toToml,
    normalizeNetworkDomainKeys_map NetworkDomainPermissionToml.toToml, mergedEntries_permissions,
    overlaid_map]
  rfl

/-- **The merge of two documents** has the merge of their tables of domains. -/
theorem value?_mergeTomlValues {profile : Str} {domains above : Domains} {base overlay : TomlValue}
    (hkeys : overlay.distinctKeys = true)
    (hbase : Tree.value? (domainsPath profile) base = some domains.toToml)
    (hoverlay : Tree.value? (domainsPath profile) overlay = some above.toToml) :
    Tree.value? (domainsPath profile) (mergeTomlValues base overlay) =
      some (mergeDomains domains above).toToml := by
  have hpath : [] ++ domainsPath profile = domainsPath profile := rfl
  rw [mergeTomlValues, value?_mergeAtPath_both hpath hkeys hbase hoverlay, mergeAtPath_domains]

/-! ## What stands -/

variable {glob : Str → Str → Bool} {domains above : Domains} {host : Str}

/-- The keys that a merge leaves: the last of each normal form, those of the overlay before those of
the base. -/
def Stands (domains above : Domains) (entry : Str × NetworkDomainPermissionToml) : Prop :=
  IsLast above entry ∨ IsLast domains entry ∧
    ∀ e ∈ above, normalizeHost e.1 ≠ normalizeHost entry.1

theorem IsLast.mem {β : Type} {entries : List (Str × β)} {entry : Str × β}
    (h : IsLast entries entry) : entry ∈ entries := by
  obtain ⟨before, after, rfl, -⟩ := h
  exact mem_append_right _ mem_cons_self

theorem mem_mergeDomains {entry : Str × NetworkDomainPermissionToml} :
    entry ∈ mergeDomains domains above ↔
      ∃ e, Stands domains above e ∧ normalizeHost e.1 = entry.1 ∧ e.2 = entry.2 := by
  obtain ⟨key, permission⟩ := entry
  have hnodup : ((mergeDomains domains above).map Prod.fst).Nodup :=
    keys_overlaid_nodup (keys_normalized_nodup domains)
  have hget : (key, permission) ∈ mergeDomains domains above ↔
      Entries.get? key (mergeDomains domains above) = some permission :=
    ⟨Entries.get?_of_mem hnodup, Entries.mem_of_get?⟩
  rw [hget, mergeDomains, get?_overlaid (keys_normalized_nodup above), Option.or_eq_some_iff,
    get?_normalizeNetworkDomainKeys, get?_normalizeNetworkDomainKeys, get?_normalized_eq_none]
  constructor
  · rintro (⟨e, hlast, hkey, hsame⟩ | ⟨hnone, e, hlast, rfl, hsame⟩)
    · exact ⟨e, Or.inl hlast, hkey, hsame⟩
    · exact ⟨e, Or.inr ⟨hlast, hnone⟩, rfl, hsame⟩
  · rintro ⟨e, hlast | ⟨hlast, hnone⟩, rfl, hsame⟩
    · exact Or.inl ⟨e, hlast, rfl, hsame⟩
    · exact Or.inr ⟨hnone, e, hlast, rfl, hsame⟩

/-- The merged table says of a host what the keys that stand say, read in their normal forms. -/
theorem hasPermission_mergeDomains {permission : NetworkDomainPermissionToml} :
    hasPermission glob (mergeDomains domains above) permission host = true ↔
      ∃ e, Stands domains above e ∧ e.2 = permission ∧
        matchesHost glob (normalizeHost e.1) host = true := by
  rw [hasPermission_iff]
  constructor
  · rintro ⟨entry, hentry, rfl, hmatch⟩
    obtain ⟨e, hstands, hkey, hsame⟩ := mem_mergeDomains.1 hentry
    exact ⟨e, hstands, hsame, hkey.symm ▸ hmatch⟩
  · rintro ⟨e, hstands, rfl, hmatch⟩
    exact ⟨(normalizeHost e.1, e.2), mem_mergeDomains.2 ⟨e, hstands, rfl, rfl⟩, rfl, hmatch⟩

/-- Of the keys with the normal form of an entry, one that stands is that entry or comes later. -/
theorem exists_isLast {β : Type} (before after : List (Str × β)) (entry : Str × β) :
    ∃ last, IsLast (before ++ entry :: after) last ∧
      normalizeHost last.1 = normalizeHost entry.1 ∧
      (last = entry ∨ last ∈ after) := by
  induction after using List.reverseRecOn with
  | nil => exact ⟨entry, ⟨before, [], rfl, nofun⟩, rfl, .inl rfl⟩
  | append_singleton after final ih =>
    rw [← cons_append, ← List.append_assoc]
    by_cases hsame : normalizeHost final.1 = normalizeHost entry.1
    · exact ⟨final, isLast_concat.2 (.inl rfl), hsame,
        .inr (mem_append_right _ (mem_singleton_self final))⟩
    · obtain ⟨last, hlast, hnormal, hplace⟩ := ih
      refine ⟨last, isLast_concat.2 (.inr ⟨hlast, ?_⟩), hnormal,
        hplace.imp_right (mem_append_left _)⟩
      rw [hnormal]
      exact hsame

theorem exists_isLast_of_mem {β : Type} {entry : Str × β} {entries : List (Str × β)}
    (hentry : entry ∈ entries) :
    ∃ last, IsLast entries last ∧ normalizeHost last.1 = normalizeHost entry.1 := by
  obtain ⟨before, after, rfl⟩ := append_of_mem hentry
  obtain ⟨last, hlast, hsame, -⟩ := exists_isLast before after entry
  exact ⟨last, hlast, hsame⟩

/-- Each key stands in the merged table, in its normal form. -/
theorem exists_mem_mergeDomains {entry : Str × NetworkDomainPermissionToml}
    (hentry : entry ∈ domains ++ above) :
    ∃ e ∈ mergeDomains domains above, e.1 = normalizeHost entry.1 := by
  by_cases hover : ∃ e ∈ above, normalizeHost e.1 = normalizeHost entry.1
  · obtain ⟨e, he, hsame⟩ := hover
    obtain ⟨last, hlast, hsame'⟩ := exists_isLast_of_mem he
    exact ⟨(_, last.2), mem_mergeDomains.2 ⟨last, .inl hlast, rfl, rfl⟩, hsame'.trans hsame⟩
  · have hbelow := (mem_append.1 hentry).resolve_right fun habove => hover ⟨entry, habove, rfl⟩
    obtain ⟨last, hlast, hsame⟩ := exists_isLast_of_mem hbelow
    exact ⟨(_, last.2), mem_mergeDomains.2 ⟨last, .inr ⟨hlast, fun e he hsame' =>
      hover ⟨e, he, hsame'.trans hsame⟩⟩, rfl, rfl⟩, hsame⟩

variable (glob domains above host) in
/-- Every key matches the host as its normal form does. -/
def ReadAlike : Prop :=
  ∀ entry ∈ domains ++ above,
    matchesHost glob (normalizeHost entry.1) host = matchesHost glob entry.1 host

variable (glob domains host) in
/-- The table denies the host, and a permission with the same normal form follows every denial. -/
def DenialsOverwritten : Prop :=
  hasPermission glob domains .deny host = true ∧
  ∀ before entry after, domains = before ++ entry :: after → entry.2 = .deny →
    matchesHost glob entry.1 host = true → ∃ later ∈ after, later.2 = .allow ∧
      normalizeHost later.1 = normalizeHost entry.1

/-- Keys occur once: a later key of the same normal form is another one. -/
theorem DenialsOverwritten.exists_later (h : DenialsOverwritten glob domains host)
    (hkeys : (domains.map Prod.fst).Nodup) :
    ∃ entry ∈ domains, matchesHost glob entry.1 host = true ∧ ∃ later ∈ domains,
      later.1 ≠ entry.1 ∧ normalizeHost later.1 = normalizeHost entry.1 := by
  obtain ⟨hdenied, hall⟩ := h
  obtain ⟨entry, hentry, hdeny, hmatch⟩ := hasPermission_iff.1 hdenied
  obtain ⟨before, after, hsplit⟩ := append_of_mem hentry
  obtain ⟨later, hlater, -, hsame⟩ := hall before entry after hsplit hdeny hmatch
  refine ⟨entry, hentry, hmatch, later, hsplit ▸ mem_append_right _ (mem_cons_of_mem _ hlater),
    fun hkey => ?_, hsame⟩
  rw [hsplit, map_append, map_cons, nodup_append, nodup_cons] at hkeys
  exact hkeys.2.1.1 (hkey ▸ mem_map_of_mem hlater)

variable (glob domains above host) in
/-- At most one key has to do with the host, as it is written or in its normal form. -/
def OneKeyConcerns : Prop :=
  ∀ entry ∈ domains ++ above, ∀ entry' ∈ domains ++ above,
    (matchesHost glob entry.1 host = true ∨
      matchesHost glob (normalizeHost entry.1) host = true) →
    (matchesHost glob entry'.1 host = true ∨
      matchesHost glob (normalizeHost entry'.1) host = true) → entry = entry'

section Unmatched

variable (hunmatched : ∀ entry ∈ above, matchesHost glob entry.1 host = false)

include hunmatched

variable {entry : Str × NetworkDomainPermissionToml}

/-- A key of the upper table does not match the host in its normal form either. -/
theorem ReadAlike.unmatched (h : ReadAlike glob domains above host) (hentry : entry ∈ above) :
    matchesHost glob (normalizeHost entry.1) host = false := by
  rw [h entry (mem_append_right _ hentry)]
  exact hunmatched entry hentry

/-- Read alike, the merged table says of the host what the last keys of the lower table say. -/
theorem ReadAlike.hasPermission_mergeDomains (h : ReadAlike glob domains above host)
    {permission : NetworkDomainPermissionToml} :
    hasPermission glob (mergeDomains domains above) permission host = true ↔
      ∃ e, IsLast domains e ∧ e.2 = permission ∧ matchesHost glob e.1 host = true := by
  rw [Config.hasPermission_mergeDomains]
  constructor
  · rintro ⟨e, hlast | ⟨hlast, -⟩, hsays, hmatch⟩
    · rw [h.unmatched hunmatched hlast.mem] at hmatch
      cases hmatch
    · rw [h e (mem_append_left _ hlast.mem)] at hmatch
      exact ⟨e, hlast, hsays, hmatch⟩
  · rintro ⟨e, hlast, hsays, hmatch⟩
    rw [← h e (mem_append_left _ hlast.mem)] at hmatch
    refine ⟨e, .inr ⟨hlast, fun other hother hsame => ?_⟩, hsays, hmatch⟩
    rw [← hsame, h.unmatched hunmatched hother] at hmatch
    cases hmatch

omit hunmatched in
/-- A host that some key of the lower table matches is matched by a last key. -/
theorem ReadAlike.exists_last (h : ReadAlike glob domains above host) {before after : Domains}
    (hsplit : domains = before ++ entry :: after) (hmatch : matchesHost glob entry.1 host = true) :
    ∃ last, IsLast domains last ∧ matchesHost glob last.1 host = true ∧
      normalizeHost last.1 = normalizeHost entry.1 ∧
      (last = entry ∨ last ∈ after) := by
  obtain ⟨last, hlast, hnormal, hplace⟩ := exists_isLast before after entry
  rw [← hsplit] at hlast
  have hentry : entry ∈ domains := hsplit ▸ mem_append_right _ mem_cons_self
  refine ⟨last, hlast, ?_, hnormal, hplace⟩
  rw [← h last (mem_append_left _ hlast.mem), hnormal, h entry (mem_append_left _ hentry)]
  exact hmatch

/-- Read alike, a denial is kept by the merge unless each is overwritten. -/
theorem ReadAlike.keeps_denial_iff (h : ReadAlike glob domains above host)
    (hdenied : hasPermission glob domains .deny host = true) :
    hasPermission glob (mergeDomains domains above) .deny host = true ↔
      ¬ DenialsOverwritten glob domains host := by
  rw [h.hasPermission_mergeDomains hunmatched]
  constructor
  · rintro ⟨e, ⟨before, after, hsplit, hlast⟩, hdeny, hmatch⟩ ⟨-, hall⟩
    obtain ⟨later, hmem, -, hsame⟩ := hall before e after hsplit hdeny hmatch
    exact hlast later hmem hsame
  · intro hkept
    by_contra hlost
    refine hkept ⟨hdenied, fun before entry after hsplit hdeny hmatch => ?_⟩
    obtain ⟨last, hlast, hlastMatch, hnormal, hplace⟩ := h.exists_last hsplit hmatch
    have hallow : last.2 = .allow := by
      cases hsays : last.2 with
      | allow => rfl
      | deny => exact absurd ⟨last, hlast, hsays, hlastMatch⟩ hlost
    rcases hplace with rfl | hmem
    · rw [hdeny] at hallow
      cases hallow
    · exact ⟨last, hmem, hallow, hnormal⟩

/-- **Where the keys match the host as their normal forms do**, the decision changes exactly if all
denials are overwritten. -/
theorem ReadAlike.decision_mergeDomains_iff (h : ReadAlike glob domains above host) :
    decision glob (mergeDomains domains above) host = decision glob domains host ↔
      ¬ DenialsOverwritten glob domains host := by
  cases hdenied : hasPermission glob domains .deny host with
  | true =>
    rw [← h.keeps_denial_iff hunmatched hdenied, decision_eq_deny hdenied]
    exact ⟨hasPermission_of_decision, decision_eq_deny⟩
  | false =>
    have hkept : ¬ DenialsOverwritten glob domains host := by
      rintro ⟨hdeny, -⟩
      rw [hdenied] at hdeny
      cases hdeny
    refine iff_of_true ?_ hkept
    -- no last key denies the host, since no key does
    have hnotDenied : hasPermission glob (mergeDomains domains above) .deny host = false := by
      rw [Bool.eq_false_iff]
      intro hdeny
      obtain ⟨e, hlast, hsays, hmatch⟩ := (h.hasPermission_mergeDomains hunmatched).1 hdeny
      rw [hasPermission_iff.2 ⟨e, hlast.mem, hsays, hmatch⟩] at hdenied
      cases hdenied
    cases hallowed : hasPermission glob domains .allow host with
    | true =>
      rw [decision_eq_allow hdenied hallowed]
      refine decision_eq_allow hnotDenied ((h.hasPermission_mergeDomains hunmatched).2 ?_)
      obtain ⟨entry, hentry, -, hmatch⟩ := hasPermission_iff.1 hallowed
      obtain ⟨before, after, hsplit⟩ := append_of_mem hentry
      obtain ⟨last, hlast, hlastMatch, -⟩ := h.exists_last hsplit hmatch
      refine ⟨last, hlast, ?_, hlastMatch⟩
      cases hsays : last.2 with
      | allow => rfl
      | deny =>
        rw [hasPermission_iff.2 ⟨last, hlast.mem, hsays, hlastMatch⟩] at hdenied
        cases hdenied
    | false =>
      have hnotAllowed : hasPermission glob (mergeDomains domains above) .allow host = false := by
        rw [Bool.eq_false_iff]
        intro hallow
        obtain ⟨e, hlast, hsays, hmatch⟩ := (h.hasPermission_mergeDomains hunmatched).1 hallow
        rw [hasPermission_iff.2 ⟨e, hlast.mem, hsays, hmatch⟩] at hallowed
        cases hallowed
      rw [decision, decision, hdenied, hallowed, hnotDenied, hnotAllowed]

/-- **Where one key has to do with the host**, the decision stays exactly if the key is read alike. -/
theorem OneKeyConcerns.decision_mergeDomains_iff (h : OneKeyConcerns glob domains above host)
    (hkeys : (domains.map Prod.fst).Nodup) :
    decision glob (mergeDomains domains above) host = decision glob domains host ↔
      ReadAlike glob domains above host := by
  constructor
  · intro heq entry hentry
    rw [Bool.eq_iff_iff]
    constructor
    · -- a key that matches only in its normal form stands, and decides
      intro hnormal
      by_contra hself
      have hnone : decision glob domains host = none := by
        refine decision_eq_none.2 fun e he => Bool.eq_false_iff.2 fun hmatch => ?_
        cases h entry hentry e (mem_append_left _ he) (.inr hnormal) (.inl hmatch)
        exact hself hmatch
      rw [hnone] at heq
      obtain ⟨e, he, hkey⟩ := exists_mem_mergeDomains hentry
      have hsilent := decision_eq_none.1 heq e he
      rw [hkey, hnormal] at hsilent
      cases hsilent
    · -- a key that matches only as it is written is the only one that does
      intro hmatch
      by_contra hnormal
      have hbelow : entry ∈ domains := by
        refine (mem_append.1 hentry).resolve_right fun habove => ?_
        rw [hunmatched entry habove] at hmatch
        cases hmatch
      have hnone : decision glob (mergeDomains domains above) host = none := by
        refine decision_eq_none.2 fun e he => Bool.eq_false_iff.2 fun hmatch' => ?_
        obtain ⟨e', hstands, hkey, -⟩ := mem_mergeDomains.1 he
        have hmem : e' ∈ domains ++ above := by
          rcases hstands with hlast | ⟨hlast, -⟩
          · exact mem_append_right _ hlast.mem
          · exact mem_append_left _ hlast.mem
        rw [← hkey] at hmatch'
        cases h entry hentry e' hmem (.inl hmatch) (.inr hmatch')
        exact hnormal hmatch'
      rw [hnone] at heq
      rw [decision_eq_none.1 heq.symm entry hbelow] at hmatch
      cases hmatch
  · intro hread
    refine (hread.decision_mergeDomains_iff hunmatched).2 ?_
    intro hover
    obtain ⟨entry, hentry, hmatch, later, hlater, hne, hsame⟩ := hover.exists_later hkeys
    have hnormal := hread entry (mem_append_left _ hentry)
    rw [hmatch, ← hsame] at hnormal
    exact hne (congrArg Prod.fst (h later (mem_append_left _ hlater) entry
      (mem_append_left _ hentry) (.inr hnormal) (.inl hmatch)))

end Unmatched

/-- A pattern without a domain becomes the pattern of all hosts. -/
example : decision globMatches [("*.".toList, .allow)] "example.com".toList = none ∧
    decision globMatches (mergeDomains [("*.".toList, .allow)] []) "example.com".toList =
      some .allow := by decide +kernel

/-- Keys in normal form are read alike. -/
theorem readAlike_of_normal
    (hnormal : ∀ entry ∈ domains ++ above, normalizeHost entry.1 = entry.1) :
    ReadAlike glob domains above host := by
  intro entry hentry
  rw [hnormal entry hentry]

/-- Keys in normal form overwrite no denial. -/
theorem not_denialsOverwritten_of_normal (hkeys : (domains.map Prod.fst).Nodup)
    (hnormal : ∀ entry ∈ domains, normalizeHost entry.1 = entry.1) :
    ¬ DenialsOverwritten glob domains host := by
  intro hover
  obtain ⟨entry, hentry, -, later, hlater, hne, hsame⟩ := hover.exists_later hkeys
  rw [hnormal later hlater, hnormal entry hentry] at hsame
  exact hne hsame

/-- **What an overlay of unrelated domains keeps.** For a host that no pattern of the upper table
matches, and that every key matches as its normal form does, the merged table decides as the lower one
did exactly when not all its denials are overwritten. Where one key only has to do with the host, it
does so exactly when that key matches as its normal form does. -/
theorem overlay_keeps_decision_iff {profile : Str} {base overlay : TomlValue}
    (hbaseKeys : base.distinctKeys = true) (hkeys : overlay.distinctKeys = true)
    (hbase : Tree.value? (domainsPath profile) base = some domains.toToml)
    (hoverlay : Tree.value? (domainsPath profile) overlay = some above.toToml)
    (hunmatched : ∀ entry ∈ above, matchesHost glob entry.1 host = false) :
    ∃ merged : Domains, Tree.value? (domainsPath profile) (mergeTomlValues base overlay) =
        some merged.toToml ∧
      (ReadAlike glob domains above host →
        (decision glob merged host = decision glob domains host ↔
          ¬ DenialsOverwritten glob domains host)) ∧
      (OneKeyConcerns glob domains above host →
        (decision glob merged host = decision glob domains host ↔
          ReadAlike glob domains above host)) := by
  refine ⟨mergeDomains domains above, value?_mergeTomlValues hkeys hbase hoverlay,
    fun h => h.decision_mergeDomains_iff hunmatched,
    fun h => h.decision_mergeDomains_iff hunmatched ?_⟩
  have hbelow := Tree.distinctKeys_of_value? hbaseKeys hbase
  have hnodup := (Tree.distinctKeys_table.1 hbelow).1
  rwa [map_map] at hnodup

/-! ## Closed runs -/

/-- A document that has nothing but the domains of a profile. -/
def document (profile : Str) (domains : Domains) : TomlValue :=
  .table [("permissions".toList, .table [(profile, .table [("network".toList,
    .table [("domains".toList, domains.toToml)])])])]

theorem value?_document (profile : Str) (domains : Domains) :
    Tree.value? (domainsPath profile) (document profile domains) = some domains.toToml := by
  rw [domainsPath, document, Tree.value?_cons_self, Tree.value?_cons_self, Tree.value?_cons_self,
    Tree.value?_cons_self]
  rfl

theorem overlay_keeps_decision_iff_denied :
    ∃ merged : Domains, Tree.value? (domainsPath "dev".toList)
        (mergeTomlValues (document "dev".toList [("example.com".toList, .deny)])
          (document "dev".toList [("other.org".toList, .allow)])) = some merged.toToml ∧
      decision globMatches merged "example.com".toList = some .deny := by
  have hunmatched : ∀ entry ∈ ([("other.org".toList, .allow)] : Domains),
      matchesHost globMatches entry.1 "example.com".toList = false :=
    forall_mem_singleton.2 (by decide +kernel)
  have hnormal : ∀ entry ∈ ([("example.com".toList, .deny)] ++ [("other.org".toList, .allow)] : Domains),
      normalizeHost entry.1 = entry.1 :=
    forall_mem_cons.2 ⟨by decide +kernel, forall_mem_singleton.2 (by decide +kernel)⟩
  have hdenied : decision globMatches [("example.com".toList, .deny)] "example.com".toList =
      some .deny := by decide +kernel
  have hbaseKeys : (document "dev".toList [("example.com".toList, .deny)]).distinctKeys = true := by
    decide +kernel
  have hkeys : (document "dev".toList [("other.org".toList, .allow)]).distinctKeys = true := by
    decide +kernel
  obtain ⟨merged, hmerged, hread, -⟩ := overlay_keeps_decision_iff hbaseKeys hkeys
    (value?_document _ _) (value?_document _ _) hunmatched
  have hkept : ¬ DenialsOverwritten globMatches [("example.com".toList, .deny)] "example.com".toList :=
    not_denialsOverwritten_of_normal (nodup_singleton _)
      fun entry hentry => hnormal entry (mem_append_left _ hentry)
  exact ⟨merged, hmerged, ((hread (readAlike_of_normal hnormal)).2 hkept).trans hdenied⟩

/-- The permission of another spelling stands, and the denial is gone. -/
theorem overlay_undoes_deny :
    Tree.value? (domainsPath "dev".toList) (mergeTomlValues
        (document "dev".toList [("example.com".toList, .deny), ("EXAMPLE.COM".toList, .allow)])
        (document "dev".toList [("other.org".toList, .allow)])) =
      some (Domains.toToml [("example.com".toList, .allow), ("other.org".toList, .allow)]) ∧
    matchesHost globMatches "other.org".toList "example.com".toList = false ∧
    decision globMatches [("example.com".toList, .deny), ("EXAMPLE.COM".toList, .allow)]
      "example.com".toList = some .deny ∧
    decision globMatches [("example.com".toList, .allow), ("other.org".toList, .allow)]
      "example.com".toList = some .allow :=
  ⟨rfl, by decide +kernel, by decide +kernel, by decide +kernel⟩

end Codex.Config
