import Codex.Config.Merge

/-!
# The keys of merged domains

A merge of two tables of network domains writes the normal form of a key for the key. The scalars that
it leaves are those of layered trees (`Codex.Base.Tree`) all the same, if every scalar stands under a
host that is its own normal form and that no other key turns into (`leaf?_effectiveConfig`).
-/

namespace Codex.Config

open List Codex.Text Entries NetworkProxy

variable {path below : List Str} {profile host : Str} {base overlay value : TomlValue}

/-! ## On the way to the domains -/

theorem ne_memories_of_domains (h : path ++ below = domainsPath profile) : path ≠ [memoriesKey] := by
  rintro rfl
  exact absurd (List.cons.inj h).1 (by decide)

theorem isDomainsPath_of_short {key : Str} (h : path ++ key :: below = domainsPath profile) :
    isPermissionNetworkDomainsPath path = false := by
  rw [Bool.eq_false_iff, ne_eq, isDomainsPath_iff]
  rintro ⟨other, rfl⟩
  have hlength := congrArg List.length h
  rw [length_append, length_cons] at hlength
  change 4 + (below.length + 1) = 4 at hlength
  omega

/-- Nothing is normalised on the way. -/
theorem normalizeEntries_of_short {β : Type} {entries : List (Str × β)} {key : Str}
    (h : path ++ key :: below = domainsPath profile) : normalizeEntries path entries = entries := by
  unfold normalizeEntries
  rw [isDomainsPath_of_short h, if_neg Bool.false_ne_true,
    normalizeKeyAliases_of_ne (ne_memories_of_domains h)]

theorem normalizeEntries_domains {β : Type} (entries : List (Str × β)) :
    normalizeEntries (domainsPath profile) entries = normalizeNetworkDomainKeys entries := by
  unfold normalizeEntries
  rw [normalizeKeyAliases_of_ne (ne_memories_of_domains (append_nil _))]
  rfl

theorem value?_normalized (h : path ++ below = domainsPath profile) :
    Tree.value? below (normalizedWithKeyAliases path value) = Tree.value? below value := by
  by_cases hpath : path = []
  · subst hpath
    obtain rfl : below = domainsPath profile := h
    cases value with
    | scalar _ | array _ => rfl
    | table entries =>
      rw [normalized_table, normalizeKeyAliases_of_ne (by simp), domainsPath, Tree.value?_cons_table,
        Tree.value?_cons_table, get?_mapWithKey fun key => normalizedWithKeyAliases ([] ++ [key])]
      have hsame : normalizedWithKeyAliases ([] ++ ["permissions".toList]) = id :=
        funext fun value => normalizedWithKeyAliases_of_ne value (by simp) (by decide)
      rw [hsame, Option.map_id, id_eq]
  · rw [normalizedWithKeyAliases_of_ne value hpath (ne_memories_of_domains h)]

/-- What a merge has at the domains: the base's or the overlay's own, or the merge of both. -/
theorem value?_mergeAtPath_cases (h : path ++ below = domainsPath profile)
    (hkeys : overlay.distinctKeys = true)
    (hvalue : Tree.value? below (mergeAtPath overlay base path) = some value) :
    Tree.value? below base = some value ∨ Tree.value? below overlay = some value ∨
      ∃ base' overlay', Tree.value? below base = some base' ∧ Tree.value? below overlay = some overlay' ∧
        value = mergeAtPath overlay' base' (domainsPath profile) := by
  induction below generalizing path base overlay with
  | nil =>
    rw [append_nil] at h
    subst h
    cases hvalue
    exact .inr (.inr ⟨base, overlay, rfl, rfl, rfl⟩)
  | cons key below ih =>
    have hpath : (path ++ [key]) ++ below = domainsPath profile := by
      rw [List.append_assoc, singleton_append, h]
    cases overlay with
    | scalar _ | array _ => cases hvalue
    | table overlay =>
      cases base with
      | scalar _ | array _ => exact .inr (.inl (value?_normalized h ▸ hvalue))
      | table base =>
        obtain ⟨hnodup, hbelow⟩ := Tree.distinctKeys_table.1 hkeys
        rw [mergeAtPath_tables, normalizeEntries_of_short h, normalizeEntries_of_short h,
          Tree.value?_cons_table] at hvalue
        rw [Tree.value?_cons_table, Tree.value?_cons_table]
        rcases Option.eq_none_or_eq_some (get? key overlay) with hnone | ⟨above, habove⟩
        · rw [get?_mergedEntries_of_none hnone] at hvalue
          exact .inl hvalue
        · rcases Option.eq_none_or_eq_some (get? key base) with hnone | ⟨existing, hexisting⟩
          · rw [get?_mergedEntries_new hnodup habove hnone, Option.bind_some, value?_normalized hpath]
              at hvalue
            rw [habove]
            exact .inr (.inl hvalue)
          · rw [get?_mergedEntries_both hnodup habove hexisting, Option.bind_some] at hvalue
            rw [habove, hexisting]
            exact ih hpath (hbelow _ (mem_of_get? habove)) hvalue

/-- Where both have something at the domains, a merge has the merge of it. -/
theorem value?_mergeAtPath_both {base' overlay' : TomlValue} (h : path ++ below = domainsPath profile)
    (hkeys : overlay.distinctKeys = true) (hbase : Tree.value? below base = some base')
    (hoverlay : Tree.value? below overlay = some overlay') :
    Tree.value? below (mergeAtPath overlay base path) =
      some (mergeAtPath overlay' base' (domainsPath profile)) := by
  induction below generalizing path base overlay with
  | nil =>
    rw [append_nil] at h
    subst h
    cases hbase
    cases hoverlay
    rfl
  | cons key below ih =>
    cases overlay with
    | scalar _ | array _ => cases hoverlay
    | table overlay =>
      cases base with
      | scalar _ | array _ => cases hbase
      | table base =>
        obtain ⟨hnodup, hbelow⟩ := Tree.distinctKeys_table.1 hkeys
        obtain ⟨above, habove, hoverlay⟩ := Option.bind_eq_some_iff.1 hoverlay
        obtain ⟨existing, hexisting, hbase⟩ := Option.bind_eq_some_iff.1 hbase
        rw [mergeAtPath_tables, normalizeEntries_of_short h, normalizeEntries_of_short h,
          Tree.value?_cons_table, get?_mergedEntries_both hnodup habove hexisting]
        refine ih ?_ (hbelow _ (mem_of_get? habove)) hbase hoverlay
        rw [List.append_assoc, singleton_append, h]

/-! ## Aliases -/

theorem aliasFree_of_long (h : 4 ≤ path.length) {key : Str} : AliasFree (path ++ [key]) value := by
  intro below hbelow
  have hlength := congrArg List.length hbelow
  simp only [length_append, length_cons, length_nil] at hlength
  omega

theorem normalizeEntries_memories {β : Type} (entries : List (Str × β)) :
    normalizeEntries [memoriesKey] entries = normalizeKeyAliases [memoriesKey] entries := rfl

theorem normalizeEntries_top {β : Type} (entries : List (Str × β)) :
    normalizeEntries [] entries = entries :=
  normalizeKeyAliases_of_ne (by simp)

theorem value?_legacy_mergeAtPath :
    Tree.value? [legacyMemoriesKey] (mergeAtPath overlay base [memoriesKey]) = none := by
  cases overlay with
  | scalar _ | array _ => rfl
  | table overlay =>
    cases base with
    | scalar _ | array _ => exact value?_legacy_normalized (.table overlay)
    | table base =>
      rw [mergeAtPath_tables, normalizeEntries_memories, normalizeEntries_memories,
        Tree.value?_cons_table, get?_mergedEntries_of_none (get?_legacy overlay), get?_legacy]
      rfl

/-- A merge brings no legacy key back. -/
theorem AliasFree.mergeAtPath (hfree : AliasFree [] base) (hkeys : overlay.distinctKeys = true) :
    AliasFree [] (mergeAtPath overlay base []) := by
  intro below hbelow
  obtain rfl : below = [memoriesKey, legacyMemoriesKey] := hbelow
  cases overlay with
  | scalar _ | array _ => rfl
  | table overlay =>
    cases base with
    | scalar _ | array _ => exact aliasFree_normalized (.table overlay) _ rfl
    | table base =>
      have hnodup := (Tree.distinctKeys_table.1 hkeys).1
      rw [mergeAtPath_tables, normalizeEntries_top, normalizeEntries_top, Tree.value?_cons_table]
      rcases Option.eq_none_or_eq_some (get? memoriesKey overlay) with hnone | ⟨above, habove⟩
      · rw [get?_mergedEntries_of_none hnone]
        exact hfree _ rfl
      · rcases Option.eq_none_or_eq_some (get? memoriesKey base) with hnone | ⟨existing, hexisting⟩
        · rw [get?_mergedEntries_new hnodup habove hnone]
          exact value?_legacy_normalized above
        · rw [get?_mergedEntries_both hnodup habove hexisting]
          exact value?_legacy_mergeAtPath

/-! ## Kept hosts -/

section Keep

variable (keep : Str → Str → Prop)

/-- No scalar of the value at `path` stands under a host that is not kept. -/
def BareHosts (path : List Str) (value : TomlValue) : Prop :=
  ∀ profile host below rest, path ++ below = domainsPath profile → ¬ keep profile host →
    Tree.leaf? (below.map Step.key ++ .key host :: rest) value = none

/-- A key does not turn into a host that is kept. -/
def Stable (profile : Str) {β : Type} (entries : List (Str × β)) : Prop :=
  ∀ entry ∈ entries, keep profile (normalizeHost entry.1) →
    normalizeHost entry.1 = entry.1

/-- The tables of domains that meet in a merge are stable. -/
def StableMeeting (path : List Str) (base overlay : TomlValue) : Prop :=
  ∀ profile below table table', path ++ below = domainsPath profile →
    Tree.value? below base = some (.table table) → Tree.value? below overlay = some (.table table') →
      Stable keep profile table ∧ Stable keep profile table'

variable {keep} {entries : List (Str × TomlValue)} {key : Str}

theorem BareHosts.child (h : BareHosts keep path (.table entries))
    (hkey : get? key entries = some value) : BareHosts keep (path ++ [key]) value := by
  intro profile host below rest hbelow hhost
  have hleaf := h profile host (key :: below) rest (by simpa using hbelow) hhost
  rw [map_cons, cons_append, Tree.leaf?_step, Tree.child?_table_key, hkey] at hleaf
  exact hleaf

theorem StableMeeting.child {entries' : List (Str × TomlValue)} {value' : TomlValue}
    (h : StableMeeting keep path (.table entries) (.table entries'))
    (hkey : get? key entries = some value) (hkey' : get? key entries' = some value') :
    StableMeeting keep (path ++ [key]) value value' := by
  intro profile below table table' hbelow htable htable'
  refine h profile (key :: below) table table' (by simpa using hbelow) ?_ ?_
  · rw [Tree.value?_cons_table, hkey]
    exact htable
  · rw [Tree.value?_cons_table, hkey']
    exact htable'

/-- A kept host has in the normalised table what it had before. -/
theorem Stable.get?_kept (h : Stable keep profile entries) (hnodup : (entries.map Prod.fst).Nodup)
    (hhost : keep profile host) (hnormal : normalizeHost host = host) :
    get? host (normalizeNetworkDomainKeys entries) = get? host entries := by
  have hself : ∀ entry ∈ entries, normalizeHost entry.1 = host → entry.1 = host := by
    intro entry hentry heq
    rw [← h entry hentry (heq ▸ hhost), heq]
  rcases Option.eq_none_or_eq_some (get? host entries) with hnone | ⟨value, hvalue⟩
  · rw [hnone, get?_normalized_eq_none]
    intro entry hentry heq
    refine get?_eq_none.1 hnone ?_
    rw [← hself entry hentry heq]
    exact mem_map_of_mem hentry
  · rw [hvalue, get?_normalizeNetworkDomainKeys]
    obtain ⟨before, after, rfl⟩ := append_of_mem (mem_of_get? hvalue)
    refine ⟨(host, value), ⟨before, after, rfl, fun later hlater heq => ?_⟩, hnormal, rfl⟩
    have hsame := hself later (mem_append_right _ (mem_cons_of_mem _ hlater))
      (heq.trans hnormal)
    rw [map_append, map_cons, nodup_append, nodup_cons] at hnodup
    refine hnodup.2.1.1 ?_
    show host ∈ after.map Prod.fst
    rw [← hsame]
    exact mem_map_of_mem hlater

/-- What another host has was not under a kept host before. -/
theorem exists_of_get?_unkept (hnormal : ∀ host, keep profile host → normalizeHost host = host)
    (hhost : ¬ keep profile host) (hvalue : get? host (normalizeNetworkDomainKeys entries) = some value) :
    ∃ other, ¬ keep profile other ∧ (other, value) ∈ entries := by
  obtain ⟨entry, ⟨before, after, rfl, -⟩, hsame, rfl⟩ := get?_normalizeNetworkDomainKeys.1 hvalue
  refine ⟨entry.1, fun hkeep => hhost ?_, mem_append_right _ mem_cons_self⟩
  rwa [← hsame, hnormal _ hkeep]

/-- Below the domains there are none. -/
theorem append_ne_domains (h : 4 ≤ path.length) {key : Str} (below : List Str) :
    (path ++ [key]) ++ below ≠ domainsPath profile := by
  intro heq
  have hlength := congrArg List.length heq
  simp only [length_append, length_cons, length_nil] at hlength
  change path.length + 1 + below.length = 4 at hlength
  omega

theorem memories_append_ne_domains (below : List Str) : [memoriesKey] ++ below ≠ domainsPath profile :=
  fun h => ne_memories_of_domains h rfl

/-- The domains are not below the table with aliases. -/
theorem BareHosts.entry {entry : Str × TomlValue} (h : BareHosts keep path (.table entries))
    (hnodup : (entries.map Prod.fst).Nodup) (hentry : entry ∈ normalizeKeyAliases path entries) :
    BareHosts keep (path ++ [entry.1]) entry.2 := by
  obtain ⟨key, hmem, rfl | ⟨rfl, -⟩⟩ := mem_normalizeKeyAliases hentry
  · exact h.child (get?_of_mem hnodup hmem)
  · intro profile host below rest hbelow
    rw [List.append_assoc] at hbelow
    exact absurd hbelow (memories_append_ne_domains _)

theorem StableMeeting.entry {overlay : List (Str × TomlValue)} {entry : Str × TomlValue}
    (h : StableMeeting keep path (.table entries) (.table overlay))
    (hnodup : (overlay.map Prod.fst).Nodup) (hentry : entry ∈ normalizeKeyAliases path overlay)
    (hkey : get? entry.1 entries = some value) :
    StableMeeting keep (path ++ [entry.1]) value entry.2 := by
  obtain ⟨key, hmem, rfl | ⟨rfl, -⟩⟩ := mem_normalizeKeyAliases hentry
  · exact h.child hkey (get?_of_mem hnodup hmem)
  · intro profile below table table' hbelow
    rw [List.append_assoc] at hbelow
    exact absurd hbelow (memories_append_ne_domains _)

theorem leaf?_merge_bare {steps : List (Step Str)} (hkeys : overlay.distinctKeys = true)
    (hbase : Tree.leaf? steps base = none) (h : Tree.leaf? steps overlay = none) :
    Tree.leaf? steps (Tree.merge base overlay) = none := by
  rw [Tree.leaf?_merge hkeys, h, hbase]
  split
  · rfl
  · rfl

theorem BareHosts.at_domains (h : BareHosts keep (domainsPath profile) (.table entries))
    (hnodup : (entries.map Prod.fst).Nodup) (hhost : ¬ keep profile host)
    (hmem : (host, value) ∈ entries) (rest : List (Step Str)) : Tree.leaf? rest value = none := by
  have hleaf := h profile host [] rest (append_nil _) hhost
  rw [map_nil, nil_append, Tree.leaf?_step, Tree.child?_table_key,
    get?_of_mem hnodup hmem] at hleaf
  exact hleaf

theorem bareHosts_of_long (h : 4 ≤ path.length) {key : Str} : BareHosts keep (path ++ [key]) value :=
  fun _ _ below _ hbelow => absurd hbelow (append_ne_domains h below)

theorem stableMeeting_of_long (h : 4 ≤ path.length) {key : Str} :
    StableMeeting keep (path ++ [key]) base overlay :=
  fun _ below _ _ hbelow => absurd hbelow (append_ne_domains h below)

/-- Two merges that find the same at a key have the same scalars below it, if the values have. -/
theorem leaf?_mergedEntries {base' overlay' : List (Str × TomlValue)} {key : Str}
    {base overlay : List (Str × TomlValue)} {rest : List (Step Str)}
    (hnodup : (overlay.map Prod.fst).Nodup) (hnodup' : (overlay'.map Prod.fst).Nodup)
    (hbase : get? key base' = get? key base)
    (hoverlay : get? key overlay' = get? key overlay)
    (hmerge : ∀ value existing, get? key overlay = some value →
      get? key base = some existing →
        Tree.leaf? rest (mergeAtPath value existing (path ++ [key])) =
          Tree.leaf? rest (Tree.merge existing (normalizedWithKeyAliases (path ++ [key]) value))) :
    (get? key (mergedEntries path base' overlay')).bind (Tree.leaf? rest) =
      (get? key (Tree.mergeEntries base (overlay.map fun entry =>
        (entry.1, normalizedWithKeyAliases (path ++ [entry.1]) entry.2)))).bind (Tree.leaf? rest) := by
  have hmapped : ((overlay.map fun entry =>
      (entry.1, normalizedWithKeyAliases (path ++ [entry.1]) entry.2)).map Prod.fst).Nodup := by
    rwa [map_map]
  have hget : get? key (overlay.map fun entry =>
      (entry.1, normalizedWithKeyAliases (path ++ [entry.1]) entry.2)) =
      (get? key overlay).map (normalizedWithKeyAliases (path ++ [key])) :=
    get?_mapWithKey fun key => normalizedWithKeyAliases (path ++ [key])
  rcases Option.eq_none_or_eq_some (get? key overlay) with hnone | ⟨value, hvalue⟩
  · rw [hnone] at hoverlay hget
    rw [get?_mergedEntries_of_none hoverlay, hbase, Tree.get?_mergeEntries_of_none hmapped hget]
  · rw [hvalue] at hoverlay hget
    rcases Option.eq_none_or_eq_some (get? key base) with hnone | ⟨existing, hexisting⟩
    · rw [hnone] at hbase
      rw [get?_mergedEntries_new hnodup' hoverlay hbase, Tree.get?_mergeEntries_new hmapped hget hnone]
    · rw [hexisting] at hbase
      rw [get?_mergedEntries_both hnodup' hoverlay hbase,
        Tree.get?_mergeEntries_both hmapped hget hexisting]
      exact hmerge value existing hvalue hexisting

/-- Where tables of domains meet, nothing comes to stand under a host that is not kept. -/
theorem leaf?_mergedEntries_unkept {base overlay : List (Str × TomlValue)} {rest : List (Step Str)}
    (hnormal : ∀ host, keep profile host → normalizeHost host = host)
    (hhost : ¬ keep profile host)
    (hbase : ∀ other value, ¬ keep profile other → (other, value) ∈ base → Tree.leaf? rest value = none)
    (h : ∀ other value, ¬ keep profile other → (other, value) ∈ overlay → Tree.leaf? rest value = none)
    (hkeys : ∀ entry ∈ overlay, entry.2.distinctKeys = true)
    (hmerge : ∀ entry ∈ overlay, ∀ existing,
      (∃ other ∈ base, other.2 = existing) →
        Tree.leaf? rest (mergeAtPath entry.2 existing (path ++ [host])) =
          Tree.leaf? rest (Tree.merge existing (normalizedWithKeyAliases (path ++ [host]) entry.2)))
    (hsame : ∀ value, normalizedWithKeyAliases (path ++ [host]) value = value) :
    (get? host (mergedEntries path (normalizeNetworkDomainKeys base)
      (normalizeNetworkDomainKeys overlay))).bind (Tree.leaf? rest) = none := by
  have hnodup := keys_normalized_nodup overlay
  rcases Option.eq_none_or_eq_some (get? host (normalizeNetworkDomainKeys overlay)) with
    hnone | ⟨value, hvalue⟩
  · rw [get?_mergedEntries_of_none hnone]
    rcases Option.eq_none_or_eq_some (get? host (normalizeNetworkDomainKeys base)) with
      hnone | ⟨existing, hexisting⟩
    · rw [hnone]
      rfl
    · obtain ⟨other, hother, hmem⟩ := exists_of_get?_unkept hnormal hhost hexisting
      rw [hexisting]
      exact hbase other existing hother hmem
  · obtain ⟨other, hother, hmem⟩ := exists_of_get?_unkept hnormal hhost hvalue
    have hbare := h other value hother hmem
    rcases Option.eq_none_or_eq_some (get? host (normalizeNetworkDomainKeys base)) with
      hnone | ⟨existing, hexisting⟩
    · rw [get?_mergedEntries_new hnodup hvalue hnone, hsame]
      exact hbare
    · obtain ⟨other', hother', hmem'⟩ := exists_of_get?_unkept hnormal hhost hexisting
      have hmerged := hmerge _ hmem existing ⟨_, hmem', rfl⟩
      rw [hsame] at hmerged
      rw [get?_mergedEntries_both hnodup hvalue hexisting, Option.bind_some, hmerged]
      exact leaf?_merge_bare (hkeys _ hmem) (hbase other' existing hother' hmem') hbare

/-- **The scalars of a merge** are those of the merged trees. -/
theorem leaf?_mergeAtPath (hnormal : ∀ profile host, keep profile host → normalizeHost host = host)
    (hfree : AliasFree path base) (hbase : BareHosts keep path base) (h : BareHosts keep path overlay)
    (hmeet : StableMeeting keep path base overlay) (hbaseKeys : base.distinctKeys = true)
    (hkeys : overlay.distinctKeys = true) (steps : List (Step Str)) :
    Tree.leaf? steps (mergeAtPath overlay base path) =
      Tree.leaf? steps (Tree.merge base (normalizedWithKeyAliases path overlay)) := by
  induction overlay using Tree.nested_induction generalizing base path steps with
  | scalar text => rfl
  | array items ih => rfl
  | table overlay ih =>
    cases base with
    | scalar _ | array _ => simp only [mergeAtPath, normalized_table, Tree.merge]
    | table base =>
      obtain ⟨hnodup, hbelow⟩ := Tree.distinctKeys_table.1 hkeys
      obtain ⟨hbaseNodup, hbaseBelow⟩ := Tree.distinctKeys_table.1 hbaseKeys
      rw [mergeAtPath_tables, normalized_table, Tree.merge]
      cases steps with
      | nil => rfl
      | cons step rest =>
      cases step with
      | index i => rfl
      | key key =>
        simp only [Tree.leaf?_step, Tree.child?_table_key]
        have hAliases := keys_normalizeKeyAliases path hnodup
        have hmerge : ∀ value existing,
            get? key (normalizeKeyAliases path overlay) = some value →
            get? key base = some existing →
              Tree.leaf? rest (mergeAtPath value existing (path ++ [key])) =
                Tree.leaf? rest (Tree.merge existing (normalizedWithKeyAliases (path ++ [key]) value)) := by
          intro value existing hvalue hexisting
          have hentry := mem_of_get? hvalue
          obtain ⟨original, hmem, -⟩ := mem_normalizeKeyAliases hentry
          exact ih _ hmem (hfree.child hexisting) (hbase.child hexisting) (h.entry hnodup hentry)
            (hmeet.entry hnodup hentry hexisting) (hbaseBelow _ (mem_of_get? hexisting))
            (hbelow _ hmem) rest
        by_cases hdomains : isPermissionNetworkDomainsPath path = true
        · obtain ⟨profile, rfl⟩ := isDomainsPath_iff.1 hdomains
          obtain ⟨hstable, hstable'⟩ := hmeet profile [] base overlay (append_nil _) rfl rfl
          have hAlias : normalizeKeyAliases (domainsPath profile) overlay = overlay :=
            normalizeKeyAliases_of_ne (ne_memories_of_domains (append_nil _))
          rw [hAlias] at hmerge ⊢
          rw [normalizeEntries_domains, normalizeEntries_domains]
          by_cases hkeep : keep profile key
          · exact leaf?_mergedEntries hnodup (keys_normalized_nodup overlay)
              (hstable.get?_kept hbaseNodup hkeep (hnormal _ _ hkeep))
              (hstable'.get?_kept hnodup hkeep (hnormal _ _ hkeep)) hmerge
          · have hdeep : 4 ≤ (domainsPath profile).length := le_rfl
            have hsame : ∀ key value,
                normalizedWithKeyAliases (domainsPath profile ++ [key]) value = value := by
              intro key value
              refine normalizedWithKeyAliases_of_ne value (by simp) fun h => ?_
              cases congrArg List.length h
            rw [leaf?_mergedEntries_unkept (hnormal profile) hkeep
              (fun other value hother hmem => hbase.at_domains hbaseNodup hother hmem rest)
              (fun other value hother hmem => h.at_domains hnodup hother hmem rest) hbelow ?_
              (hsame key)]
            · -- the merged trees have nothing under the host either
              have hleft := hbase profile key [] rest (append_nil _) hkeep
              have hright := h profile key [] rest (append_nil _) hkeep
              have hmerged := leaf?_merge_bare hkeys hleft hright
              simp only [hsame, map_id']
              exact hmerged.symm
            · intro entry hentry existing hexisting
              obtain ⟨other, hother, rfl⟩ := hexisting
              exact ih entry hentry (aliasFree_of_long hdeep) (bareHosts_of_long hdeep)
                (bareHosts_of_long hdeep) (stableMeeting_of_long hdeep) (hbaseBelow _ hother)
                (hbelow _ hentry) rest
        · have hentries : ∀ {β : Type} (entries : List (Str × β)),
              normalizeEntries path entries = normalizeKeyAliases path entries :=
            fun entries => if_neg hdomains
          rw [hentries, hentries, hfree.normalizeKeyAliases_eq]
          exact leaf?_mergedEntries hAliases hAliases rfl rfl hmerge

end Keep

/-! ## The layers -/

/-- The network domains of a profile. -/
def domainsOf (profile : Str) (config : TomlValue) : Option (List (Str × TomlValue)) :=
  match Tree.value? (domainsPath profile) config with
  | some (.table entries) => some entries
  | _ => none

def ConfigLayerEntry.hasDomains (profile : Str) (layer : ConfigLayerEntry) : Bool :=
  (domainsOf profile (.table layer.config)).isSome

section Layers

variable (layers : List ConfigLayerEntry)

/-- The host is a key of the profile's domains in some layer, or becomes of one when that is normalised. -/
def Occurs (profile host : Str) : Prop :=
  ∃ layer ∈ layers, ∃ entries, domainsOf profile (.table layer.config) = some entries ∧
    ∃ entry ∈ entries, ∃ n, normalizeHost^[n] entry.1 = host

/-- The host is its own normal form, and where tables of the profile may meet no other key becomes it. -/
def KeptHost (profile host : Str) : Prop :=
  normalizeHost host = host ∧
    (2 ≤ layers.countP (ConfigLayerEntry.hasDomains profile) →
      ∀ other, Occurs layers profile other → normalizeHost other = host → other = host)

/-- Scalars stand under hosts that are kept, and that no later key of the table has as its normal form. -/
def ScalarsKept : Prop :=
  ∀ layer ∈ layers, ∀ profile before entry after,
    domainsOf profile (.table layer.config) = some (before ++ entry :: after) →
      entry.2.leafPaths ≠ [] → KeptHost layers profile entry.1 ∧
        ∀ later ∈ after, normalizeHost later.1 ≠ entry.1

variable {layers} {layer : ConfigLayerEntry}

theorem domainsOf_eq_some {config : TomlValue} {entries : List (Str × TomlValue)} :
    domainsOf profile config = some entries ↔
      Tree.value? (domainsPath profile) config = some (.table entries) := by
  unfold domainsOf
  constructor
  · intro h
    split at h
    · next hvalue => rw [hvalue, Option.some_inj.1 h]
    · cases h
  · intro h
    rw [h]

theorem Occurs.normalizeHost (h : Occurs layers profile host) :
    Occurs layers profile (normalizeHost host) := by
  obtain ⟨layer, hlayer, entries, hentries, entry, hentry, n, rfl⟩ := h
  exact ⟨layer, hlayer, entries, hentries, entry, hentry, n + 1, Function.iterate_succ_apply' _ _ _⟩

theorem occurs_of_mem {entries : List (Str × TomlValue)} {entry : Str × TomlValue}
    (hlayer : layer ∈ layers) (hentries : domainsOf profile (.table layer.config) = some entries)
    (hentry : entry ∈ entries) : Occurs layers profile entry.1 :=
  ⟨layer, hlayer, entries, hentries, entry, hentry, 0, rfl⟩

theorem stable_of_occurs {entries : List (Str × TomlValue)}
    (hmet : 2 ≤ layers.countP (ConfigLayerEntry.hasDomains profile))
    (h : ∀ entry ∈ entries, Occurs layers profile entry.1) :
    Stable (KeptHost layers) profile entries :=
  fun entry hentry hkept => (hkept.2 hmet entry.1 (h entry hentry) rfl).symm

/-- What stands below keys. -/
theorem leaf?_keys (keys : List Str) (rest : List (Step Str)) (value : TomlValue) :
    Tree.leaf? (keys.map Step.key ++ rest) value = (Tree.value? keys value).bind (Tree.leaf? rest) := by
  induction keys generalizing value with
  | nil => rfl
  | cons key keys ih =>
    rw [map_cons, cons_append, Tree.leaf?_step]
    cases value with
    | scalar _ | array _ => rfl
    | table entries =>
      rw [Tree.child?_table_key, Tree.value?_cons_table, Option.bind_assoc]
      exact Option.bind_congr fun value _ => ih value

theorem ScalarsKept.bareHosts (h : ScalarsKept layers) (hlayer : layer ∈ layers) :
    BareHosts (KeptHost layers) [] (.table layer.config) := by
  intro profile host below rest hbelow hhost
  obtain rfl : below = domainsPath profile := hbelow
  rw [leaf?_keys, Option.bind_eq_none_iff]
  intro domains hdomains
  by_contra hhas
  obtain ⟨value, hvalue, hscalar⟩ := Tree.leaf?_cons hhas
  cases domains with
  | scalar _ | array _ => cases hvalue
  | table entries =>
    have hkeys := Tree.distinctKeys_of_value? layer.distinctKeys hdomains
    have hmem := mem_of_get? hvalue
    obtain ⟨before, after, rfl⟩ := append_of_mem hmem
    have hpaths : value.leafPaths ≠ [] := by
      intro hnil
      have hpath := (Tree.mem_leafPaths ((Tree.distinctKeys_table.1 hkeys).2 _ hmem)).2 hscalar
      rw [hnil] at hpath
      cases hpath
    exact hhost (h layer hlayer profile before (host, value) after (domainsOf_eq_some.2 hdomains)
      hpaths).1

/-- The merge of the layers in `done`. -/
structure MergedTo (layers done : List ConfigLayerEntry) (base : TomlValue) : Prop where
  aliasFree : AliasFree [] base
  distinctKeys : base.distinctKeys = true
  bare : BareHosts (KeptHost layers) [] base
  tables : ∀ profile table, Tree.value? (domainsPath profile) base = some (.table table) →
    0 < done.countP (ConfigLayerEntry.hasDomains profile) ∧
      ∀ entry ∈ table, Occurs layers profile entry.1
  leaf : ∀ steps, Tree.leaf? steps base = Tree.leaf? steps (Tree.mergeAll (done.map fun layer =>
    normalizedWithKeyAliases [] (.table layer.config)))

/-! ### One more layer -/

theorem keys_mergedEntries {base overlay : List (Str × TomlValue)} {entry : Str × TomlValue}
    (h : entry ∈ mergedEntries path base overlay) :
    entry.1 ∈ base.map Prod.fst ∨ entry.1 ∈ overlay.map Prod.fst := by
  by_contra hnot
  rw [not_or] at hnot
  have hnone : get? entry.1 (mergedEntries path base overlay) = none := by
    rw [get?_mergedEntries_of_none (get?_eq_none.2 hnot.2)]
    exact get?_eq_none.2 hnot.1
  exact get?_eq_none.1 hnone (mem_map_of_mem h)

theorem exists_of_mem_normalized {β : Type} {entries : List (Str × β)} {key : Str}
    (h : key ∈ (normalizeNetworkDomainKeys entries).map Prod.fst) :
    ∃ entry ∈ entries, normalizeHost entry.1 = key := by
  by_contra hnone
  refine get?_eq_none.1 (get?_normalized_eq_none.2 fun entry hentry heq => ?_) h
  exact hnone ⟨entry, hentry, heq⟩

theorem mem_normalizeEntries {β : Type} {entries : List (Str × β)} {entry : Str × β}
    (h : entry ∈ normalizeEntries path entries) : ∃ key, (key, entry.2) ∈ entries := by
  unfold normalizeEntries at h
  split at h
  · obtain ⟨last, ⟨before, after, hsplit, -⟩, -, hsame⟩ :=
      get?_normalizeNetworkDomainKeys.1 (get?_of_mem (keys_normalized_nodup _) h)
    have hmem : last ∈ normalizeKeyAliases path entries := by
      rw [hsplit]
      exact mem_append_right _ mem_cons_self
    obtain ⟨key, hkey, -⟩ := mem_normalizeKeyAliases hmem
    exact ⟨key, hsame ▸ hkey⟩
  · obtain ⟨key, hkey, -⟩ := mem_normalizeKeyAliases h
    exact ⟨key, hkey⟩

variable (path) in
theorem keys_mergedEntries_nodup {base : List (Str × TomlValue)} (overlay : List (Str × TomlValue))
    (h : (base.map Prod.fst).Nodup) : ((mergedEntries path base overlay).map Prod.fst).Nodup := by
  induction overlay generalizing base with
  | nil => exact h
  | cons entry overlay ih =>
    rw [mergedEntries_cons]
    refine ih ?_
    unfold mergeEntry
    split
    · exact keys_insert_nodup h
    · exact keys_insert_nodup h

theorem distinctKeys_mergeAtPath (hbase : base.distinctKeys = true) (hkeys : overlay.distinctKeys = true) :
    (mergeAtPath overlay base path).distinctKeys = true := by
  induction overlay using Tree.nested_induction generalizing base path with
  | scalar text => rfl
  | array items ih => exact distinctKeys_normalized hkeys
  | table overlay ih =>
    cases base with
    | scalar _ | array _ => exact distinctKeys_normalized hkeys
    | table base =>
      obtain ⟨hnodup, hbelow⟩ := Tree.distinctKeys_table.1 hkeys
      obtain ⟨hbaseNodup, hbaseBelow⟩ := Tree.distinctKeys_table.1 hbase
      have hoverlay := keys_normalizeEntries path hnodup
      have hmerged := keys_mergedEntries_nodup path (normalizeEntries path overlay)
        (keys_normalizeEntries path hbaseNodup)
      rw [mergeAtPath_tables]
      refine Tree.distinctKeys_table.2 ⟨hmerged, fun entry hentry => ?_⟩
      have hget := get?_of_mem hmerged hentry
      have hexisting : ∀ {existing}, get? entry.1 (normalizeEntries path base) = some existing →
          existing.distinctKeys = true := by
        intro existing hexisting
        obtain ⟨key, hmem⟩ := mem_normalizeEntries (mem_of_get? hexisting)
        exact hbaseBelow _ hmem
      rcases Option.eq_none_or_eq_some (get? entry.1 (normalizeEntries path overlay)) with
        hnone | ⟨value, hvalue⟩
      · rw [get?_mergedEntries_of_none hnone] at hget
        exact hexisting hget
      · obtain ⟨key, hmem⟩ := mem_normalizeEntries (mem_of_get? hvalue)
        rcases Option.eq_none_or_eq_some (get? entry.1 (normalizeEntries path base)) with
          hnone | ⟨existing, hboth⟩
        · rw [get?_mergedEntries_new hoverlay hvalue hnone] at hget
          rw [← Option.some_inj.1 hget]
          exact distinctKeys_normalized (hbelow _ hmem)
        · rw [get?_mergedEntries_both hoverlay hvalue hboth] at hget
          rw [← Option.some_inj.1 hget]
          exact ih _ hmem (hexisting hboth) (hbelow _ hmem)

/-- The merge of what is at the domains, as a table. -/
theorem mergeAtPath_domains_cases {table : List (Str × TomlValue)}
    (h : mergeAtPath overlay base (domainsPath profile) = .table table) :
    overlay = .table table ∨ ∃ below above, base = .table below ∧ overlay = .table above ∧
      ∀ entry ∈ table, ∃ original ∈ below ++ above,
        normalizeHost original.1 = entry.1 := by
  cases overlay with
  | scalar _ | array _ => cases h
  | table above =>
    cases base with
    | scalar _ | array _ =>
      left
      rw [← h]
      exact (normalizedWithKeyAliases_of_ne _ (by simp [domainsPath])
        (ne_memories_of_domains (append_nil _))).symm
    | table below =>
      refine .inr ⟨below, above, rfl, rfl, fun entry hentry => ?_⟩
      rw [mergeAtPath_tables] at h
      cases h
      rw [normalizeEntries_domains, normalizeEntries_domains] at hentry
      rcases keys_mergedEntries hentry with hbelow | habove
      · obtain ⟨original, hmem, hsame⟩ := exists_of_mem_normalized hbelow
        exact ⟨original, mem_append_left _ hmem, hsame⟩
      · obtain ⟨original, hmem, hsame⟩ := exists_of_mem_normalized habove
        exact ⟨original, mem_append_right _ hmem, hsame⟩

/-- The tables of domains after one more layer. -/
theorem MergedTo.tables_step {done : List ConfigLayerEntry} (h : MergedTo layers done base)
    (hlayer : layer ∈ layers) {table : List (Str × TomlValue)}
    (htable : Tree.value? (domainsPath profile) (mergeTomlValues base (.table layer.config)) =
      some (.table table)) :
    0 < (done ++ [layer]).countP (ConfigLayerEntry.hasDomains profile) ∧
      ∀ entry ∈ table, Occurs layers profile entry.1 := by
  rw [countP_append, countP_singleton]
  have hown : ∀ {entries}, Tree.value? (domainsPath profile) (.table layer.config) =
      some (.table entries) → layer.hasDomains profile = true ∧
        ∀ entry ∈ entries, Occurs layers profile entry.1 := by
    intro entries hvalue
    have hentries := domainsOf_eq_some.2 hvalue
    refine ⟨?_, fun entry hentry => occurs_of_mem hlayer hentries hentry⟩
    rw [ConfigLayerEntry.hasDomains, hentries]
    rfl
  rcases value?_mergeAtPath_cases (nil_append _) layer.distinctKeys htable with
    hbase | hoverlay | ⟨base', overlay', hbase, hoverlay, hmerge⟩
  · obtain ⟨hdone, hoccurs⟩ := h.tables profile table hbase
    exact ⟨Nat.add_pos_left hdone _, hoccurs⟩
  · obtain ⟨hhas, hoccurs⟩ := hown hoverlay
    rw [if_pos hhas]
    exact ⟨Nat.succ_pos _, hoccurs⟩
  · rcases mergeAtPath_domains_cases hmerge.symm with rfl | ⟨below, above, rfl, rfl, hkeys⟩
    · obtain ⟨hhas, hoccurs⟩ := hown hoverlay
      rw [if_pos hhas]
      exact ⟨Nat.succ_pos _, hoccurs⟩
    · obtain ⟨hhas, hoccurs⟩ := hown hoverlay
      rw [if_pos hhas]
      refine ⟨Nat.succ_pos _, fun entry hentry => ?_⟩
      obtain ⟨original, hmem, hsame⟩ := hkeys entry hentry
      rw [← hsame]
      rcases mem_append.1 hmem with hmem | hmem
      · exact ((h.tables profile below hbase).2 original hmem).normalizeHost
      · exact (hoccurs original hmem).normalizeHost

theorem MergedTo.step {done rest : List ConfigLayerEntry} (h : MergedTo layers done base)
    (hlayers : layers = done ++ layer :: rest) (hkept : ScalarsKept layers) :
    MergedTo layers (done ++ [layer]) (mergeTomlValues base (.table layer.config)) := by
  have hlayer : layer ∈ layers := hlayers ▸ mem_append_right _ mem_cons_self
  have hbare := hkept.bareHosts hlayer
  have hmeet : StableMeeting (KeptHost layers) [] base (.table layer.config) := by
    intro profile below table table' hbelow htable htable'
    obtain rfl : below = domainsPath profile := hbelow
    obtain ⟨hdone, hoccurs⟩ := h.tables profile table htable
    have hentries := domainsOf_eq_some.2 htable'
    have hmet : 2 ≤ layers.countP (ConfigLayerEntry.hasDomains profile) := by
      have hhas : layer.hasDomains profile = true := by
        rw [ConfigLayerEntry.hasDomains, hentries]
        rfl
      rw [hlayers, countP_append, countP_cons, if_pos hhas]
      omega
    exact ⟨stable_of_occurs hmet hoccurs,
      stable_of_occurs hmet fun entry hentry => occurs_of_mem hlayer hentries hentry⟩
  have hleaf := leaf?_mergeAtPath (fun _ _ (hkeep : KeptHost layers _ _) => hkeep.1) h.aliasFree
    h.bare hbare hmeet h.distinctKeys layer.distinctKeys
  have hnormalized : (normalizedWithKeyAliases [] (.table layer.config)).distinctKeys = true :=
    distinctKeys_normalized layer.distinctKeys
  refine ⟨h.aliasFree.mergeAtPath layer.distinctKeys,
    distinctKeys_mergeAtPath h.distinctKeys layer.distinctKeys, ?_,
    fun profile table => h.tables_step hlayer, fun steps => ?_⟩
  · intro profile host below rest hbelow hhost
    refine (hleaf _).trans (leaf?_merge_bare hnormalized (h.bare profile host below rest hbelow hhost) ?_)
    rw [leaf?_keys, value?_normalized hbelow, ← leaf?_keys]
    exact hbare profile host below rest hbelow hhost
  · refine (hleaf steps).trans ?_
    rw [map_append, Tree.mergeAll, foldl_append, map_singleton, foldl_cons,
      foldl_nil, Tree.leaf?_merge hnormalized, Tree.leaf?_merge hnormalized, h.leaf]
    rfl

/-- **The scalars of the effective config** are those of the layers' trees. -/
theorem leaf?_effectiveConfig {layers : List ConfigLayerEntry}
    (hkept : ScalarsKept (enabledLayers layers)) (steps : List (Step Str)) :
    Tree.leaf? steps (effectiveConfig layers) = Tree.leaf? steps (Tree.merged (normalizedLayers layers)) := by
  have hstart : MergedTo (enabledLayers layers) [] (.table []) := by
    refine ⟨?_, rfl, ?_, ?_, fun _ => rfl⟩
    · intro below hbelow
      obtain rfl : below = [memoriesKey, legacyMemoriesKey] := hbelow
      rfl
    · intro profile host below rest hbelow
      obtain rfl : below = domainsPath profile := hbelow
      exact fun _ => rfl
    · intro profile table htable
      cases htable
  have hrun : ∀ (done rest : List ConfigLayerEntry) (base : TomlValue),
      enabledLayers layers = done ++ rest → MergedTo (enabledLayers layers) done base →
        MergedTo (enabledLayers layers) (enabledLayers layers)
          (rest.foldl (fun merged layer => mergeTomlValues merged (.table layer.config)) base) := by
    intro done rest
    induction rest generalizing done with
    | nil =>
      intro base hsplit h
      rw [append_nil] at hsplit
      rwa [← hsplit] at h
    | cons layer rest ih =>
      intro base hsplit h
      refine ih (done ++ [layer]) _ ?_ (h.step hsplit hkept)
      rw [hsplit, List.append_assoc, singleton_append]
  have hend := (hrun [] (enabledLayers layers) _ rfl hstart).leaf steps
  rw [effectiveConfig, hend, Tree.merged, normalizedLayers, map_map]
  rfl

end Layers

end Codex.Config
