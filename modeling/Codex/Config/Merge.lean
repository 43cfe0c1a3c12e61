import Codex.Config.Toml

/-!
# Merged layers

`merge_toml_values` normalises while it merges. Below the tables that have aliases or network domains
nothing is normalised, and a merge of two tables is told key by key: what the overlay has is normalised,
or merged with what the base has there.
-/

namespace Codex.Config

open List Codex.Text Entries

variable {β γ : Type} {path : List Str} {entries : List (Str × β)}

/-! ## Normalised tables -/

theorem normalizeKeyAliases_of_ne (h : path ≠ [memoriesKey]) :
    normalizeKeyAliases path entries = entries := by
  simp [normalizeKeyAliases, configKeyAliases, applyAlias, h]

theorem orInsert_map (f : β → γ) (key : Str) (value : β) :
    orInsert key (f value) (entries.map fun entry => (entry.1, f entry.2)) =
      (orInsert key value entries).map fun entry => (entry.1, f entry.2) := by
  unfold orInsert
  rw [get?_map]
  cases get? key entries with
  | none => exact insert_map f
  | some old => rfl

theorem normalizeKeyAliases_map (f : β → γ) :
    normalizeKeyAliases path (entries.map fun entry => (entry.1, f entry.2)) =
      (normalizeKeyAliases path entries).map fun entry => (entry.1, f entry.2) := by
  by_cases hpath : path = [memoriesKey]
  · simp only [normalizeKeyAliases, configKeyAliases, foldl_cons, foldl_nil, applyAlias,
      hpath, if_true, get?_map]
    cases get? legacyMemoriesKey entries with
    | none => rfl
    | some value => simp only [Option.map_some, remove_map, orInsert_map]
  · rw [normalizeKeyAliases_of_ne hpath, normalizeKeyAliases_of_ne hpath]

theorem normalizedItems_eq (items : List TomlValue) :
    normalizedItems path items = items.map (normalizedWithKeyAliases path) := by
  induction items with
  | nil => rfl
  | cons item items ih => rw [normalizedItems, ih, map_cons]

theorem normalizedEntries_eq (entries : List (Str × TomlValue)) :
    normalizedEntries path entries =
      entries.map fun entry => (entry.1, normalizedWithKeyAliases (path ++ [entry.1]) entry.2) := by
  induction entries with
  | nil => rfl
  | cons entry entries ih => rw [normalizedEntries, ih, map_cons]

theorem mergers_eq (entries : List (Str × TomlValue)) :
    mergers entries = entries.map fun entry => (entry.1, entry.2, mergeAtPath entry.2) := by
  induction entries with
  | nil => rfl
  | cons entry entries ih => rw [mergers, ih, map_cons]

/-- Aliases are found at the top of the tree only. -/
theorem normalizedWithKeyAliases_of_ne (value : TomlValue) (hne : path ≠ [])
    (hpath : path ≠ [memoriesKey]) : normalizedWithKeyAliases path value = value := by
  induction value using Tree.nested_induction generalizing path with
  | scalar text => rfl
  | array items ih =>
    rw [normalizedWithKeyAliases, normalizedItems_eq,
      map_congr_left fun item hitem => ih item hitem hne hpath, map_id']
  | table entries ih =>
    have hbelow (key : Str) : path ++ [key] ≠ [memoriesKey] := by
      intro h
      have hlength := congrArg List.length h
      exact hne (by simpa using hlength)
    rw [normalizedWithKeyAliases, normalizeKeyAliases_of_ne hpath, normalizedEntries_eq,
      map_congr_left fun entry hentry => by
        rw [ih entry hentry (by simp) (hbelow entry.1)], map_id']

/-- At the table with aliases nothing below it is left to normalise. -/
theorem normalized_table (entries : List (Str × TomlValue)) :
    normalizedWithKeyAliases path (.table entries) =
      .table ((normalizeKeyAliases path entries).map fun entry =>
        (entry.1, normalizedWithKeyAliases (path ++ [entry.1]) entry.2)) := by
  rw [normalizedWithKeyAliases, normalizedEntries_eq]
  by_cases hpath : path = [memoriesKey]
  · have hbelow (es : List (Str × TomlValue)) :
        (es.map fun entry => (entry.1, normalizedWithKeyAliases (path ++ [entry.1]) entry.2)) = es := by
      rw [map_congr_left fun entry _ => by
        rw [normalizedWithKeyAliases_of_ne _ (by simp) (by simp [hpath])], map_id']
    rw [hbelow, hbelow]
  · rw [normalizeKeyAliases_of_ne hpath, normalizeKeyAliases_of_ne hpath]

/-! ## What a merge keeps -/

/-- No legacy key is left in the value at `path`. -/
def AliasFree (path : List Str) (value : TomlValue) : Prop :=
  ∀ below, path ++ below = [memoriesKey, legacyMemoriesKey] → Tree.value? below value = none

def domainsPath (profile : Str) : List Str :=
  ["permissions".toList, profile, "network".toList, "domains".toList]

section Kept

variable {table : List (Str × TomlValue)} {key : Str} {value base overlay : TomlValue}

theorem AliasFree.child (h : AliasFree path (.table table)) (hkey : get? key table = some value) :
    AliasFree (path ++ [key]) value := by
  intro below hbelow
  have hvalue := h (key :: below) (by simpa using hbelow)
  simpa [Tree.value?_cons_table, hkey] using hvalue

theorem AliasFree.normalizeKeyAliases_eq (h : AliasFree path (.table table)) :
    normalizeKeyAliases path table = table := by
  by_cases hpath : path = [memoriesKey]
  · have hnone : get? legacyMemoriesKey table = none := by
      have hvalue := h [legacyMemoriesKey] (by simp [hpath])
      cases hget : get? legacyMemoriesKey table with
      | none => rfl
      | some value => simp [Tree.value?_cons_table, Tree.value?_nil, hget] at hvalue
    simp [normalizeKeyAliases, configKeyAliases, applyAlias, hpath, hnone]
  · exact normalizeKeyAliases_of_ne hpath

theorem isDomainsPath_iff :
    isPermissionNetworkDomainsPath path = true ↔ ∃ profile, path = domainsPath profile := by
  constructor
  · intro h
    unfold isPermissionNetworkDomainsPath at h
    split at h
    · next profile _ _ =>
      simp only [Bool.and_eq_true, decide_eq_true_eq] at h
      obtain ⟨⟨rfl, rfl⟩, rfl⟩ := h
      exact ⟨profile, rfl⟩
    · cases h
  · rintro ⟨profile, rfl⟩
    rfl

/-- An entry is as it was, or it has been moved to the canonical key. -/
theorem mem_normalizeKeyAliases {entry : Str × β} (h : entry ∈ normalizeKeyAliases path entries) :
    ∃ key, (key, entry.2) ∈ entries ∧
      (key = entry.1 ∨ (path = [memoriesKey] ∧ entry.1 = canonicalMemoriesKey)) := by
  by_cases hpath : path = [memoriesKey]
  · simp only [normalizeKeyAliases, configKeyAliases, foldl_cons, foldl_nil, applyAlias,
      hpath, if_true] at h
    split at h
    · next value hvalue =>
      unfold orInsert at h
      split at h
      · exact ⟨entry.1, mem_remove h, .inl rfl⟩
      · rcases mem_insert h with rfl | hmem
        · exact ⟨legacyMemoriesKey, mem_of_get? hvalue, .inr ⟨hpath, rfl⟩⟩
        · exact ⟨entry.1, mem_remove hmem, .inl rfl⟩
    · exact ⟨entry.1, h, .inl rfl⟩
  · rw [normalizeKeyAliases_of_ne hpath] at h
    exact ⟨entry.1, h, .inl rfl⟩

variable (path) in
theorem keys_normalizeKeyAliases (h : (entries.map Prod.fst).Nodup) :
    ((normalizeKeyAliases path entries).map Prod.fst).Nodup := by
  by_cases hpath : path = [memoriesKey]
  · simp only [normalizeKeyAliases, configKeyAliases, foldl_cons, foldl_nil, applyAlias,
      hpath, if_true]
    split
    · unfold orInsert
      split
      · exact keys_remove_nodup h
      · exact keys_insert_nodup (keys_remove_nodup h)
    · exact h
  · rwa [normalizeKeyAliases_of_ne hpath]

theorem get?_legacy (entries : List (Str × β)) :
    get? legacyMemoriesKey (normalizeKeyAliases [memoriesKey] entries) = none := by
  simp only [normalizeKeyAliases, configKeyAliases, foldl_cons, foldl_nil, applyAlias,
    if_true]
  split
  · unfold orInsert
    split
    · simp
    · have hne : legacyMemoriesKey ≠ canonicalMemoriesKey := by decide
      simp [hne]
  · next h => exact h

theorem distinctKeys_normalized (hkeys : value.distinctKeys = true) :
    (normalizedWithKeyAliases path value).distinctKeys = true := by
  induction value using Tree.nested_induction generalizing path with
  | scalar text => rfl
  | array items ih =>
    rw [Tree.distinctKeys, Tree.distinctKeysItems_iff] at hkeys
    rw [normalizedWithKeyAliases, normalizedItems_eq, Tree.distinctKeys, Tree.distinctKeysItems_iff]
    intro item hitem
    obtain ⟨original, horiginal, rfl⟩ := mem_map.1 hitem
    exact ih original horiginal (hkeys original horiginal)
  | table table ih =>
    rw [Tree.distinctKeys_table] at hkeys
    rw [normalized_table, Tree.distinctKeys_table]
    constructor
    · simpa [Function.comp_def] using keys_normalizeKeyAliases _ hkeys.1
    · intro entry hentry
      obtain ⟨original, horiginal, rfl⟩ := mem_map.1 hentry
      obtain ⟨key, hmem, -⟩ := mem_normalizeKeyAliases horiginal
      exact ih _ hmem (hkeys.2 _ hmem)

theorem value?_legacy_normalized (value : TomlValue) :
    Tree.value? [legacyMemoriesKey] (normalizedWithKeyAliases [memoriesKey] value) = none := by
  cases value with
  | scalar _ | array _ => rfl
  | table memories =>
    rw [normalized_table, Tree.value?_cons_table,
      get?_mapWithKey fun key => normalizedWithKeyAliases ([memoriesKey] ++ [key]),
      get?_legacy]
    rfl

/-- A config with its aliases resolved has none. -/
theorem aliasFree_normalized (value : TomlValue) :
    AliasFree [] (normalizedWithKeyAliases [] value) := by
  intro below hbelow
  obtain rfl : below = [memoriesKey, legacyMemoriesKey] := hbelow
  cases value with
  | scalar _ | array _ => rfl
  | table table =>
    rw [normalized_table, normalizeKeyAliases_of_ne (by simp), Tree.value?_cons_table,
      get?_mapWithKey fun key => normalizedWithKeyAliases ([] ++ [key])]
    cases get? memoriesKey table with
    | none => rfl
    | some value => exact value?_legacy_normalized value

end Kept

/-! ## Of the keys with one normal form -/

section Normalized

variable {key : Str} {value : β}

/-- No later key has the same normal form. -/
def IsLast (entries : List (Str × β)) (entry : Str × β) : Prop :=
  ∃ before after, entries = before ++ entry :: after ∧
    ∀ later ∈ after, NetworkProxy.normalizeHost later.1 ≠ NetworkProxy.normalizeHost entry.1

theorem normalizeNetworkDomainKeys_concat (entries : List (Str × β)) (entry : Str × β) :
    normalizeNetworkDomainKeys (entries ++ [entry]) =
      Entries.insert (NetworkProxy.normalizeHost entry.1) entry.2
        (normalizeNetworkDomainKeys entries) := by
  rw [normalizeNetworkDomainKeys, foldl_append]
  rfl

theorem keys_normalized_nodup (entries : List (Str × β)) :
    ((normalizeNetworkDomainKeys entries).map Prod.fst).Nodup := by
  induction entries using List.reverseRecOn with
  | nil => exact nodup_nil
  | append_singleton entries entry ih =>
    rw [normalizeNetworkDomainKeys_concat]
    exact keys_insert_nodup ih

theorem isLast_concat {entry last : Str × β} :
    IsLast (entries ++ [last]) entry ↔ entry = last ∨
      (IsLast entries entry ∧ NetworkProxy.normalizeHost last.1 ≠ NetworkProxy.normalizeHost entry.1) := by
  constructor
  · rintro ⟨before, after, hsplit, hlater⟩
    rcases eq_nil_or_concat' after with rfl | ⟨after, final, rfl⟩
    · obtain ⟨-, heq⟩ := append_inj' hsplit rfl
      exact Or.inl (List.cons.inj heq).1.symm
    · have hassoc : before ++ entry :: (after ++ [final]) = (before ++ entry :: after) ++ [final] := by
        rw [List.append_assoc, cons_append]
      rw [hassoc] at hsplit
      obtain ⟨hfront, heq⟩ := append_inj' hsplit rfl
      cases heq
      refine Or.inr ⟨⟨before, after, hfront, fun later hmem => ?_⟩, ?_⟩
      · exact hlater later (mem_append_left _ hmem)
      · exact hlater last (mem_append_right _ (mem_singleton_self last))
  · rintro (rfl | ⟨⟨before, after, rfl, hlater⟩, hne⟩)
    · exact ⟨entries, [], rfl, nofun⟩
    · refine ⟨before, after ++ [last], by rw [List.append_assoc]; rfl, fun later hmem => ?_⟩
      rcases mem_append.1 hmem with hmem | hmem
      · exact hlater later hmem
      · rw [mem_singleton.1 hmem]
        exact hne

/-- **Of the keys with one normal form the last stands.** -/
theorem get?_normalizeNetworkDomainKeys :
    get? key (normalizeNetworkDomainKeys entries) = some value ↔
      ∃ entry, IsLast entries entry ∧ NetworkProxy.normalizeHost entry.1 = key ∧ entry.2 = value := by
  induction entries using List.reverseRecOn with
  | nil =>
    refine ⟨nofun, ?_⟩
    rintro ⟨_, ⟨before, after, hsplit, -⟩, -⟩
    exact absurd hsplit (by simp)
  | append_singleton entries last ih =>
    rw [normalizeNetworkDomainKeys_concat, get?_insert]
    by_cases hkey : key = NetworkProxy.normalizeHost last.1
    · rw [if_pos hkey]
      constructor
      · intro hvalue
        exact ⟨last, isLast_concat.2 (Or.inl rfl), hkey.symm, Option.some_inj.1 hvalue⟩
      · rintro ⟨entry, hentry, hnormal, rfl⟩
        rcases isLast_concat.1 hentry with rfl | ⟨-, hne⟩
        · rfl
        · exact absurd (hkey.symm.trans hnormal.symm) hne
    · rw [if_neg hkey, ih]
      constructor
      · rintro ⟨entry, hentry, rfl, hvalue⟩
        exact ⟨entry, isLast_concat.2 (Or.inr ⟨hentry, fun h => hkey h.symm⟩), rfl, hvalue⟩
      · rintro ⟨entry, hentry, rfl, hvalue⟩
        rcases isLast_concat.1 hentry with rfl | ⟨hlast, -⟩
        · exact absurd rfl hkey
        · exact ⟨entry, hlast, rfl, hvalue⟩

theorem get?_normalized_eq_none :
    get? key (normalizeNetworkDomainKeys entries) = none ↔
      ∀ entry ∈ entries, NetworkProxy.normalizeHost entry.1 ≠ key := by
  induction entries using List.reverseRecOn with
  | nil => exact ⟨fun _ => nofun, fun _ => rfl⟩
  | append_singleton entries last ih =>
    rw [normalizeNetworkDomainKeys_concat, get?_insert, forall_mem_append,
      forall_mem_singleton, ← ih]
    by_cases hkey : key = NetworkProxy.normalizeHost last.1
    · rw [if_pos hkey]
      exact ⟨nofun, fun h => absurd hkey.symm h.2⟩
    · rw [if_neg hkey]
      exact ⟨fun h => ⟨h, fun heq => hkey heq.symm⟩, fun h => h.1⟩

theorem normalizeNetworkDomainKeys_map (f : β → γ) (entries : List (Str × β)) :
    normalizeNetworkDomainKeys (entries.map fun entry => (entry.1, f entry.2)) =
      (normalizeNetworkDomainKeys entries).map fun entry => (entry.1, f entry.2) := by
  induction entries using List.reverseRecOn with
  | nil => rfl
  | append_singleton entries entry ih =>
    rw [map_append, map_singleton, normalizeNetworkDomainKeys_concat, ih,
      normalizeNetworkDomainKeys_concat]
    exact insert_map f

end Normalized

/-! ## Two tables -/

section Tables

variable {base overlay : List (Str × TomlValue)} {key : Str} {value existing : TomlValue}

/-- The loop over the entries of an overlay. -/
def mergedEntries (path : List Str) (base overlay : List (Str × TomlValue)) : List (Str × TomlValue) :=
  (overlay.map fun entry => (entry.1, entry.2, mergeAtPath entry.2)).foldl (mergeEntry path) base

theorem normalizeEntries_map (f : β → γ) :
    normalizeEntries path (entries.map fun entry => (entry.1, f entry.2)) =
      (normalizeEntries path entries).map fun entry => (entry.1, f entry.2) := by
  unfold normalizeEntries
  rw [normalizeKeyAliases_map]
  split
  · exact normalizeNetworkDomainKeys_map f _
  · rfl

variable (path) in
theorem keys_normalizeEntries (h : (entries.map Prod.fst).Nodup) :
    ((normalizeEntries path entries).map Prod.fst).Nodup := by
  unfold normalizeEntries
  split
  · exact keys_normalized_nodup _
  · exact keys_normalizeKeyAliases path h

theorem mergeAtPath_tables (base overlay : List (Str × TomlValue)) :
    mergeAtPath (.table overlay) (.table base) path =
      .table (mergedEntries path (normalizeEntries path base) (normalizeEntries path overlay)) := by
  simp only [mergeAtPath, mergers_eq, mergedEntries]
  rw [normalizeEntries_map fun value => (value, mergeAtPath value)]

theorem mergedEntries_cons (entry : Str × TomlValue) :
    mergedEntries path base (entry :: overlay) =
      mergedEntries path (mergeEntry path base (entry.1, entry.2, mergeAtPath entry.2)) overlay := rfl

theorem get?_mergeEntry_of_ne {entry : Str × TomlValue × (TomlValue → List Str → TomlValue)}
    (h : key ≠ entry.1) : get? key (mergeEntry path base entry) = get? key base := by
  unfold mergeEntry
  split
  · rw [get?_insert, if_neg h]
  · rw [get?_insert, if_neg h]

theorem get?_mergedEntries_of_none (h : get? key overlay = none) :
    get? key (mergedEntries path base overlay) = get? key base := by
  induction overlay generalizing base with
  | nil => rfl
  | cons entry overlay ih =>
    rw [get?_eq_none, map_cons, mem_cons, not_or] at h
    rw [mergedEntries_cons, ih (get?_eq_none.2 h.2), get?_mergeEntry_of_ne h.1]

/-- A value of an overlay meets what the base has there. -/
theorem get?_mergedEntries_of_some (hnodup : (overlay.map Prod.fst).Nodup)
    (h : get? key overlay = some value) :
    get? key (mergedEntries path base overlay) =
      get? key (mergeEntry path base (key, value, mergeAtPath value)) := by
  induction overlay generalizing base with
  | nil => cases h
  | cons entry overlay ih =>
    rw [map_cons, nodup_cons] at hnodup
    rw [mergedEntries_cons]
    by_cases hkey : entry.1 = key
    · subst hkey
      rw [get?_cons, if_pos rfl] at h
      obtain rfl := Option.some_inj.1 h
      exact get?_mergedEntries_of_none (get?_eq_none.2 hnodup.1)
    · rw [get?_cons, if_neg hkey] at h
      rw [ih hnodup.2 h]
      have hbase : get? key (mergeEntry path base (entry.1, entry.2, mergeAtPath entry.2)) =
          get? key base := get?_mergeEntry_of_ne (Ne.symm hkey)
      unfold mergeEntry at hbase ⊢
      dsimp only at hbase ⊢
      rw [hbase]
      split
      · rw [get?_insert, if_pos rfl, get?_insert, if_pos rfl]
      · rw [get?_insert, if_pos rfl, get?_insert, if_pos rfl]

theorem get?_mergedEntries_new (hnodup : (overlay.map Prod.fst).Nodup)
    (h : get? key overlay = some value) (hbase : get? key base = none) :
    get? key (mergedEntries path base overlay) =
      some (normalizedWithKeyAliases (path ++ [key]) value) := by
  rw [get?_mergedEntries_of_some hnodup h, mergeEntry]
  dsimp only
  rw [hbase, get?_insert, if_pos rfl]

theorem get?_mergedEntries_both (hnodup : (overlay.map Prod.fst).Nodup)
    (h : get? key overlay = some value) (hbase : get? key base = some existing) :
    get? key (mergedEntries path base overlay) =
      some (mergeAtPath value existing (path ++ [key])) := by
  rw [get?_mergedEntries_of_some hnodup h, mergeEntry]
  dsimp only
  rw [hbase, get?_insert, if_pos rfl]

end Tables

/-! ## The layers -/

/-- The enabled layers with their aliases resolved, lowest precedence first. -/
def normalizedLayers (layers : List ConfigLayerEntry) : List (ConfigLayerMetadata × TomlValue) :=
  (enabledLayers layers).map fun layer =>
    (layer.metadata, normalizedWithKeyAliases [] (.table layer.config))

theorem distinctKeys_normalizedLayers (layers : List ConfigLayerEntry) :
    ∀ layer ∈ normalizedLayers layers, layer.2.distinctKeys = true := by
  intro layer hlayer
  obtain ⟨entry, -, rfl⟩ := mem_map.1 hlayer
  exact distinctKeys_normalized entry.distinctKeys

end Codex.Config
