import Codex.Config.DomainKeys

/-!
# Origins of the effective config

`origins` against `effective_config`, both of them folds over the enabled layers. Origins only ever
overwrite single entries, while the merge replaces arrays and values of another shape as a whole: an
entry of a scalar that a higher layer has displaced stays. Nor do they write the normal form of a
host for the key, as the merge does (`origins_describe_iff`).
-/

namespace Codex.Config

open List Codex.Text Entries

/-! ## Written paths -/

/-- A path as it is written, that can be read back from the joined text. -/
structure Legible (written : List Str) : Prop where
  ne_nil : written ≠ []
  dotFree : ∀ part ∈ written, '.' ∉ part

theorem Legible.joinPath_inj {written written' : List Str} (h : Legible written)
    (h' : Legible written') (heq : joinPath written = joinPath written') : written = written' := by
  rw [← splitOn_intercalate '.' h.dotFree h.ne_nil,
    ← splitOn_intercalate '.' h'.dotFree h'.ne_nil]
  exact congrArg (List.splitOn '.') heq

theorem digits_dotFree (i : ℕ) : '.' ∉ renderStep (.index i) := by
  intro h
  have hdigit : ('.' : Char).isDigit = true := by
    apply Nat.isDigit_of_mem_toDigits (b := 10) (n := i) (by decide) (by decide)
    rw [← Nat.toList_repr]
    exact h
  cases hdigit

theorem renders_renderStep : Tree.Renders renderStep where
  key _ _ h := h
  index i j h := by
    have hdigits : Nat.toDigits 10 i = Nat.toDigits 10 j := by
      rw [← Nat.toList_repr, ← Nat.toList_repr]
      exact h
    rw [← Nat.ofDigitChars_ten_toDigits (n := i), hdigits, Nat.ofDigitChars_ten_toDigits]

/-- No key of the value has a dot. -/
def dotFreeKeys (value : TomlValue) : Bool := value.allKeys fun key => !key.contains '.'

variable {entries : List (Str × TomlValue)}

theorem legible_of_leaf {path : List (Step Str)} (h : dotFreeKeys (.table entries) = true)
    (hleaf : Tree.leaf? path (.table entries) ≠ none) : Legible (path.map renderStep) := by
  refine ⟨?_, fun part hpart => ?_⟩
  · intro hnil
    rw [map_eq_nil_iff.1 hnil] at hleaf
    exact hleaf rfl
  · obtain ⟨step, hstep, rfl⟩ := mem_map.1 hpart
    cases step with
    | key k => simpa [renderStep] using Tree.allKeys_leaf h hleaf k hstep
    | index i => exact digits_dotFree i

/-! ## What is recorded -/

section Record

variable {origin : ConfigLayerMetadata} {path : List Str}

def recordLeaf (origin : ConfigLayerMetadata) (path : List Str)
    (origins : List (Str × ConfigLayerMetadata)) (leaf : List (Step Str)) :
    List (Str × ConfigLayerMetadata) :=
  let written := path ++ leaf.map renderStep
  if written = [] then origins else Entries.insert (joinPath written) origin origins

theorem recordLeaf_cons {origins : List (Str × ConfigLayerMetadata)} (step : Step Str)
    (leaf : List (Step Str)) :
    recordLeaf origin path origins (step :: leaf) =
      recordLeaf origin (path ++ [renderStep step]) origins leaf := by
  simp [recordLeaf]

/-- An entry for each scalar, in order. -/
theorem recordOrigins_eq (value : TomlValue) (origins : List (Str × ConfigLayerMetadata)) :
    recordOrigins origin path value origins =
      value.leafPaths.foldl (recordLeaf origin path) origins := by
  induction value using Tree.nested_induction generalizing path origins with
  | scalar text => simp [recordOrigins, Tree.leafPaths, recordLeaf]
  | array items ih =>
    rw [recordOrigins, Tree.leafPaths]
    generalize 0 = i
    induction items generalizing i origins with
    | nil => rfl
    | cons item items ihRest =>
      rw [recordItems, Tree.leafPathsItems, foldl_append, foldl_map,
        ih item mem_cons_self, ihRest fun other hother => ih other (mem_cons_of_mem _ hother)]
      simp only [recordLeaf_cons]
  | table entries ih =>
    rw [recordOrigins, Tree.leafPaths]
    induction entries generalizing origins with
    | nil => rfl
    | cons entry entries ihRest =>
      obtain ⟨key, value⟩ := entry
      rw [recordEntries, Tree.leafPathsEntries, foldl_append, foldl_map,
        ih (key, value) mem_cons_self,
        ihRest fun other hother => ih other (mem_cons_of_mem _ hother)]
      simp only [recordLeaf_cons, renderStep]

theorem get?_recordLeaves {leaves : List (List (Step Str))} (h : [] ∉ leaves) (name : Str)
    (origins : List (Str × ConfigLayerMetadata)) :
    get? name (leaves.foldl (recordLeaf origin []) origins) =
      if leaves.any fun leaf => joinPath (leaf.map renderStep) = name then some origin
      else get? name origins := by
  induction leaves generalizing origins with
  | nil => rfl
  | cons leaf leaves ih =>
    rw [mem_cons, not_or] at h
    have hleaf : leaf.map renderStep ≠ [] := fun hnil => h.1 (map_eq_nil_iff.1 hnil).symm
    rw [foldl_cons, ih h.2, recordLeaf, nil_append, if_neg hleaf, get?_insert,
      any_cons]
    by_cases hname : joinPath (leaf.map renderStep) = name
    · simp [hname]
    · simp [hname, Ne.symm hname]

end Record

variable {value : TomlValue}

theorem dotFreeKeys_normalized {path : List Str} (h : dotFreeKeys value = true) :
    dotFreeKeys (normalizedWithKeyAliases path value) = true := by
  unfold dotFreeKeys at h ⊢
  induction value using Tree.nested_induction generalizing path with
  | scalar text => rfl
  | array items ih =>
    rw [Tree.allKeys, Tree.allKeysItems_iff] at h
    rw [normalizedWithKeyAliases, normalizedItems_eq, Tree.allKeys, Tree.allKeysItems_iff]
    intro item hitem
    obtain ⟨original, horiginal, rfl⟩ := mem_map.1 hitem
    exact ih original horiginal (h original horiginal)
  | table entries ih =>
    rw [Tree.allKeys, Tree.allKeysEntries_iff] at h
    rw [normalized_table, Tree.allKeys, Tree.allKeysEntries_iff]
    intro entry hentry
    obtain ⟨moved, hmoved, rfl⟩ := mem_map.1 hentry
    obtain ⟨key, hmem, hkey⟩ := mem_normalizeKeyAliases hmoved
    obtain ⟨hdot, hvalue⟩ := h _ hmem
    refine ⟨?_, ih _ hmem hvalue⟩
    rcases hkey with rfl | ⟨-, hcanonical⟩
    · exact hdot
    · rw [hcanonical]
      decide

/-! ## Origins of the layers -/

section Layers

variable {layers : List ConfigLayerEntry}

theorem origins_eq (layers : List ConfigLayerEntry) :
    origins layers = (normalizedLayers layers).foldl
      (fun origins layer => layer.2.leafPaths.foldl (recordLeaf layer.1 []) origins) [] := by
  simp only [origins, normalizedLayers, foldl_map, recordOrigins_eq]

/-- The layers are tables, with legible paths. -/
theorem legible_normalizedLayers
    (hdot : ∀ layer ∈ enabledLayers layers, dotFreeKeys (.table layer.config) = true) :
    ∀ layer ∈ normalizedLayers layers, ∀ path, Tree.leaf? path layer.2 ≠ none →
      Legible (path.map renderStep) := by
  intro layer hlayer path hleaf
  obtain ⟨entry, hentry, rfl⟩ := mem_map.1 hlayer
  have hkeys : dotFreeKeys (normalizedWithKeyAliases [] (.table entry.config)) = true :=
    dotFreeKeys_normalized (hdot entry hentry)
  dsimp only at hleaf
  rw [normalized_table] at hkeys hleaf
  exact legible_of_leaf hkeys hleaf

variable {pile : List (ConfigLayerMetadata × TomlValue)}

variable (hkeys : ∀ layer ∈ pile, layer.2.distinctKeys = true)
  (h : ∀ layer ∈ pile, ∀ path, Tree.leaf? path layer.2 ≠ none → Legible (path.map renderStep))

include hkeys h

theorem legible_of_mem {layer : ConfigLayerMetadata × TomlValue} (hlayer : layer ∈ pile)
    {path : List (Step Str)} (hpath : path ∈ layer.2.leafPaths) : Legible (path.map renderStep) :=
  h layer hlayer path ((Tree.mem_leafPaths (hkeys layer hlayer)).1 hpath)

/-- The recorded origin of a name, for layers in whose paths no step is empty. -/
theorem get?_foldl_recordLeaf {written : List Str} (hwritten : Legible written) :
    get? (joinPath written) (pile.foldl
        (fun origins layer => layer.2.leafPaths.foldl (recordLeaf layer.1 []) origins) []) =
      Tree.originOf renderStep pile written := by
  induction pile using List.reverseRecOn with
  | nil => rfl
  | append_singleton pile top ih =>
    have hlegible := @legible_of_mem _ hkeys h _ mem_concat_self
    have hsame : (top.2.leafPaths.any fun leaf => joinPath (leaf.map renderStep) = joinPath written) =
        Tree.supplies renderStep written top.2 := by
      rw [Tree.supplies, Bool.eq_iff_iff, any_eq_true, any_eq_true]
      refine exists_congr fun path => and_congr_right fun hpath => ?_
      rw [decide_eq_true_eq, decide_eq_true_eq]
      exact ⟨(hlegible hpath).joinPath_inj hwritten, congrArg joinPath⟩
    rw [foldl_append, foldl_cons, foldl_nil, Tree.originOf_append,
      get?_recordLeaves fun hnil => (hlegible hnil).ne_nil rfl, hsame,
      ih (fun layer hlayer => hkeys layer (mem_append_left _ hlayer))
        fun layer hlayer => h layer (mem_append_left _ hlayer)]

/-- A recorded name is the one of a scalar of a layer. -/
theorem exists_leaf_of_recorded {name : Str} (hname : get? name (pile.foldl
      (fun origins layer => layer.2.leafPaths.foldl (recordLeaf layer.1 []) origins) []) ≠ none) :
    ∃ written, Legible written ∧ joinPath written = name := by
  induction pile using List.reverseRecOn with
  | nil => exact absurd rfl hname
  | append_singleton pile top ih =>
    have hlegible := @legible_of_mem _ hkeys h _ mem_concat_self
    rw [foldl_append, foldl_cons, foldl_nil,
      get?_recordLeaves fun hnil => (hlegible hnil).ne_nil rfl] at hname
    split at hname
    · next hany =>
      obtain ⟨path, hpath, heq⟩ := any_eq_true.1 hany
      exact ⟨path.map renderStep, hlegible hpath, of_decide_eq_true heq⟩
    · exact ih (fun layer hlayer => hkeys layer (mem_append_left _ hlayer))
        (fun layer hlayer => h layer (mem_append_left _ hlayer)) hname

end Layers

/-! ## What origins should say -/

mutual

/-- The keys of network domains below the path in their normal form, as a merge with another table
leaves them. -/
def normalizedDomains (path : List Str) : TomlValue → TomlValue
  | .table entries =>
    .table (if isPermissionNetworkDomainsPath path
      then normalizeNetworkDomainKeys (normalizedDomainsEntries path entries)
      else normalizedDomainsEntries path entries)
  | value => value

def normalizedDomainsEntries (path : List Str) : List (Str × TomlValue) → List (Str × TomlValue)
  | [] => []
  | (key, value) :: rest =>
    (key, normalizedDomains (path ++ [key]) value) :: normalizedDomainsEntries path rest

end

/-- The config of a layer after alias and domain-key normalisation. -/
def ConfigLayerEntry.normalized (layer : ConfigLayerEntry) : TomlValue :=
  normalizedDomains [] (normalizedWithKeyAliases [] (.table layer.config))

/-- Origins describe the effective config: a name has an entry if and only if it is the one of a
scalar there, no two scalars share a name, and the entry names the highest enabled layer with that
scalar. -/
structure OriginsDescribe (layers : List ConfigLayerEntry) : Prop where
  entry : ∀ name, get? name (origins layers) ≠ none ↔
    ∃ path, Tree.leaf? path (effectiveConfig layers) ≠ none ∧ joinPath (path.map renderStep) = name
  once : ∀ path path', Tree.leaf? path (effectiveConfig layers) ≠ none →
    Tree.leaf? path' (effectiveConfig layers) ≠ none →
    joinPath (path.map renderStep) = joinPath (path'.map renderStep) → path = path'
  names : ∀ path, Tree.leaf? path (effectiveConfig layers) ≠ none →
    ∃ below layer above, enabledLayers layers = below ++ layer :: above ∧
      Tree.leaf? path layer.normalized ≠ none ∧
      (∀ other ∈ above, Tree.leaf? path other.normalized = none) ∧
      get? (joinPath (path.map renderStep)) (origins layers) = some layer.metadata

theorem normalizedDomainsEntries_eq (path : List Str) (entries : List (Str × TomlValue)) :
    normalizedDomainsEntries path entries =
      entries.map fun entry => (entry.1, normalizedDomains (path ++ [entry.1]) entry.2) := by
  induction entries with
  | nil => rfl
  | cons entry entries ih => rw [normalizedDomainsEntries, ih, map_cons]

/-- A scalar of the domains in the value at `path` stands under a host that is its own normal form,
and that no later key of the table has as its own. -/
def ScalarsLast (path : List Str) (value : TomlValue) : Prop :=
  ∀ profile below before entry after, path ++ below = domainsPath profile →
    Tree.value? below value = some (.table (before ++ entry :: after)) → entry.2.leafPaths ≠ [] →
      NetworkProxy.normalizeHost entry.1 = entry.1 ∧
        ∀ later ∈ after, NetworkProxy.normalizeHost later.1 ≠ entry.1

theorem ScalarsLast.child {path : List Str} {key : Str} (h : ScalarsLast path (.table entries))
    (hkey : get? key entries = some value) : ScalarsLast (path ++ [key]) value := by
  intro profile below before entry after hbelow hvalue
  refine h profile (key :: below) before entry after (by simpa using hbelow) ?_
  rw [Tree.value?_cons_table, hkey]
  exact hvalue

theorem leafPaths_ne_nil {steps : List (Step Str)} (hkeys : value.distinctKeys = true)
    (h : Tree.leaf? steps value ≠ none) : value.leafPaths ≠ [] :=
  ne_nil_of_mem ((Tree.mem_leafPaths hkeys).2 h)

/-- Below the domains no key is normalised. -/
theorem normalizedDomains_of_long {path : List Str} (value : TomlValue) (h : 4 < path.length) :
    normalizedDomains path value = value := by
  induction value using Tree.nested_induction generalizing path with
  | scalar _ | array _ => rfl
  | table entries ih =>
    have hpath : ¬ isPermissionNetworkDomainsPath path = true := by
      rw [isDomainsPath_iff]
      rintro ⟨profile, rfl⟩
      exact absurd h (Nat.lt_irrefl 4)
    have hlong : ∀ key : Str, 4 < (path ++ [key]).length := by
      intro key
      rw [length_append]
      exact Nat.lt_add_right _ h
    rw [normalizedDomains, if_neg hpath, normalizedDomainsEntries_eq,
      map_congr_left fun entry hentry => by rw [ih entry hentry (hlong entry.1)], map_id']

/-- Normalised, a table of domains has the scalars that it had. -/
theorem leaf?_normalizedTable (key : Str) (rest : List (Step Str))
    (hkeys : (Tree.table entries).distinctKeys = true)
    (hlast : ∀ before entry after, entries = before ++ entry :: after → entry.2.leafPaths ≠ [] →
      NetworkProxy.normalizeHost entry.1 = entry.1 ∧
        ∀ later ∈ after, NetworkProxy.normalizeHost later.1 ≠ entry.1) :
    (get? key (normalizeNetworkDomainKeys entries)).bind (Tree.leaf? rest) =
      (get? key entries).bind (Tree.leaf? rest) := by
  obtain ⟨hnodup, hbelow⟩ := Tree.distinctKeys_table.1 hkeys
  by_cases hnone : (get? key entries).bind (Tree.leaf? rest) = none
  · rw [hnone, Option.bind_eq_none_iff]
    intro value hvalue
    obtain ⟨entry, ⟨before, after, rfl, -⟩, hsame, rfl⟩ := get?_normalizeNetworkDomainKeys.1 hvalue
    have hentry : entry ∈ before ++ entry :: after := mem_append_right _ mem_cons_self
    by_contra hleaf
    obtain ⟨hnormal, -⟩ := hlast before entry after rfl (leafPaths_ne_nil (hbelow _ hentry) hleaf)
    rw [hnormal] at hsame
    subst hsame
    rw [get?_of_mem hnodup hentry] at hnone
    exact hleaf hnone
  · obtain ⟨value, hvalue, hleaf⟩ : ∃ value, get? key entries = some value ∧
        Tree.leaf? rest value ≠ none := by
      rw [Option.bind_eq_none_iff, not_forall] at hnone
      obtain ⟨value, hnone⟩ := hnone
      rw [Classical.not_imp] at hnone
      exact ⟨value, hnone⟩
    have hmem := mem_of_get? hvalue
    obtain ⟨before, after, hsplit⟩ := append_of_mem hmem
    obtain ⟨hnormal, hafter⟩ := hlast before _ after hsplit (leafPaths_ne_nil (hbelow _ hmem) hleaf)
    have hget : get? key (normalizeNetworkDomainKeys entries) = some value := by
      refine get?_normalizeNetworkDomainKeys.2 ⟨(key, value), ⟨before, after, hsplit, ?_⟩, hnormal, rfl⟩
      intro later hlater
      rw [hnormal]
      exact hafter later hlater
    rw [hget, hvalue]

theorem leaf?_normalizedDomains {path : List Str} (hkeys : value.distinctKeys = true)
    (h : ScalarsLast path value) (steps : List (Step Str)) :
    Tree.leaf? steps (normalizedDomains path value) = Tree.leaf? steps value := by
  induction value using Tree.nested_induction generalizing path steps with
  | scalar _ | array _ => rfl
  | table entries ih =>
    obtain ⟨hnodup, hbelow⟩ := Tree.distinctKeys_table.1 hkeys
    rw [normalizedDomains, normalizedDomainsEntries_eq]
    cases steps with
    | nil => rfl
    | cons step rest =>
    cases step with
    | index i => rfl
    | key key =>
      rw [Tree.leaf?_step, Tree.leaf?_step, Tree.child?_table_key, Tree.child?_table_key]
      have hsame : ∀ entry ∈ entries, Tree.leaf? rest (normalizedDomains (path ++ [entry.1]) entry.2) =
          Tree.leaf? rest entry.2 := fun entry hentry =>
        ih entry hentry (hbelow entry hentry) (h.child (get?_of_mem hnodup hentry)) rest
      split
      · next hdomains =>
        obtain ⟨profile, rfl⟩ := isDomainsPath_iff.1 hdomains
        have hdeep : ∀ key value, normalizedDomains (domainsPath profile ++ [key]) value = value :=
          fun key value => normalizedDomains_of_long value (Nat.lt_succ_self 4)
        simp only [hdeep, map_id']
        exact leaf?_normalizedTable key rest hkeys fun before entry after hsplit =>
          h profile [] before entry after (append_nil _) (congrArg (some ∘ Tree.table) hsplit)
      · rw [get?_mapWithKey fun key => normalizedDomains (path ++ [key])]
        rcases Option.eq_none_or_eq_some (get? key entries) with hnone | ⟨value, hvalue⟩
        · rw [hnone]
          rfl
        · rw [hvalue]
          exact hsame _ (mem_of_get? hvalue)

section Describe

variable {layers : List ConfigLayerEntry}

/-- Normalised, a layer has the scalars that origins record. -/
theorem leaf?_normalizedLayer (hkept : ScalarsKept (enabledLayers layers)) {layer : ConfigLayerEntry}
    (hlayer : layer ∈ enabledLayers layers) (steps : List (Step Str)) :
    Tree.leaf? steps layer.normalized =
      Tree.leaf? steps (normalizedWithKeyAliases [] (.table layer.config)) := by
  refine leaf?_normalizedDomains (distinctKeys_normalized layer.distinctKeys) ?_ steps
  intro profile below before entry after hbelow hvalue hscalar
  rw [value?_normalized hbelow] at hvalue
  obtain rfl : below = domainsPath profile := hbelow
  obtain ⟨hhost, hafter⟩ := hkept layer hlayer profile before entry after
    (domainsOf_eq_some.2 hvalue) hscalar
  exact ⟨hhost.1, hafter⟩

/-- The scalars of the merge have legible paths. -/
theorem legible_merged
    (hdot : ∀ layer ∈ enabledLayers layers, dotFreeKeys (.table layer.config) = true)
    {path : List (Step Str)} (hleaf : Tree.leaf? path (Tree.merged (normalizedLayers layers)) ≠ none) :
    Legible (path.map renderStep) := by
  obtain ⟨below, layer, above, hsplit, hlayer, -⟩ :=
    (Tree.leaf?_merged (distinctKeys_normalizedLayers layers)).1 hleaf
  exact legible_normalizedLayers hdot layer (by simp [hsplit]) path hlayer

theorem get?_origins
    (hdot : ∀ layer ∈ enabledLayers layers, dotFreeKeys (.table layer.config) = true)
    {written : List Str} (hwritten : Legible written) :
    get? (joinPath written) (origins layers) =
      Tree.originOf renderStep (normalizedLayers layers) written := by
  rw [origins_eq]
  exact get?_foldl_recordLeaf (distinctKeys_normalizedLayers layers) (legible_normalizedLayers hdot)
    hwritten

/-- Joining loses nothing: what origins should say is what layered trees should say. -/
theorem originsDescribe_iff_describes
    (hdot : ∀ layer ∈ enabledLayers layers, dotFreeKeys (.table layer.config) = true)
    (hkept : ScalarsKept (enabledLayers layers)) :
    OriginsDescribe layers ↔ Tree.Describes renderStep (normalizedLayers layers) := by
  have heffective := leaf?_effectiveConfig hkept
  have hsame : ∀ {layer}, layer ∈ enabledLayers layers → ∀ steps, Tree.leaf? steps layer.normalized =
      Tree.leaf? steps (normalizedWithKeyAliases [] (.table layer.config)) :=
    fun hlayer => leaf?_normalizedLayer hkept hlayer
  constructor
  · rintro ⟨hentry, honce, hnames⟩
    simp only [heffective] at hentry honce hnames
    refine ⟨fun written => ⟨fun horigin => ?_, ?_⟩, fun path path' hleaf hleaf' heq => ?_, ?_⟩
    · obtain ⟨name, hname⟩ := Option.ne_none_iff_exists'.1 horigin
      obtain ⟨below, layer, above, hsplit, hsupplies, -⟩ := Tree.originOf_eq_some_iff.1 hname
      have hlayer : layer ∈ normalizedLayers layers := by simp [hsplit]
      obtain ⟨path, hpath, rfl⟩ :=
        (Tree.supplies_iff (distinctKeys_normalizedLayers layers layer hlayer)).1 hsupplies
      have hlegible := legible_normalizedLayers hdot layer hlayer path hpath
      rw [← get?_origins hdot hlegible, hentry] at horigin
      obtain ⟨path', hleaf, heq⟩ := horigin
      exact ⟨path', hleaf, (legible_merged hdot hleaf).joinPath_inj hlegible heq⟩
    · rintro ⟨path, hleaf, rfl⟩
      rw [← get?_origins hdot (legible_merged hdot hleaf), hentry]
      exact ⟨path, hleaf, rfl⟩
    · exact honce path path' hleaf hleaf' (congrArg joinPath heq)
    · intro path hleaf
      obtain ⟨below, layer, above, hsplit, hlayer, habove, horigin⟩ := hnames path hleaf
      rw [get?_origins hdot (legible_merged hdot hleaf)] at horigin
      have henabled : ∀ other ∈ layer :: above, other ∈ enabledLayers layers := by
        rw [hsplit]
        exact fun other => mem_append_right _
      rw [hsame (henabled layer mem_cons_self)] at hlayer
      refine ⟨below.map fun layer => (layer.metadata, normalizedWithKeyAliases [] (.table layer.config)),
        (layer.metadata, normalizedWithKeyAliases [] (.table layer.config)),
        above.map fun layer => (layer.metadata, normalizedWithKeyAliases [] (.table layer.config)),
        ?_, hlayer, ?_, horigin⟩
      · rw [normalizedLayers, hsplit, map_append, map_cons]
      · intro other hother
        obtain ⟨entry, hmem, rfl⟩ := mem_map.1 hother
        rw [← hsame (henabled entry (mem_cons_of_mem _ hmem))]
        exact habove entry hmem
  · rintro ⟨hentry, honce, hnames⟩
    refine ⟨fun name => ⟨fun hname => ?_, ?_⟩, fun path path' hleaf hleaf' heq => ?_, ?_⟩
    · obtain ⟨written, hlegible, rfl⟩ := exists_leaf_of_recorded (distinctKeys_normalizedLayers layers)
        (legible_normalizedLayers hdot) (origins_eq layers ▸ hname)
      rw [get?_origins hdot hlegible, hentry] at hname
      obtain ⟨path, hleaf, rfl⟩ := hname
      rw [← heffective] at hleaf
      exact ⟨path, hleaf, rfl⟩
    · rintro ⟨path, hleaf, rfl⟩
      rw [heffective] at hleaf
      rw [get?_origins hdot (legible_merged hdot hleaf), hentry]
      exact ⟨path, hleaf, rfl⟩
    · rw [heffective] at hleaf hleaf'
      refine honce path path' hleaf hleaf' ?_
      exact (legible_merged hdot hleaf).joinPath_inj (legible_merged hdot hleaf') heq
    · intro path hleaf
      rw [heffective] at hleaf
      obtain ⟨below, layer, above, hsplit, hlayer, habove, horigin⟩ := hnames path hleaf
      obtain ⟨below', rest, henabled, rfl, hrest⟩ := map_eq_append_iff.1 hsplit
      obtain ⟨entry, above', rfl, rfl, rfl⟩ := map_eq_cons_iff.1 hrest
      have hmem : ∀ other ∈ entry :: above', other ∈ enabledLayers layers := by
        rw [henabled]
        exact fun other => mem_append_right _
      rw [← hsame (hmem entry mem_cons_self)] at hlayer
      refine ⟨below', entry, above', henabled, hlayer, fun other hother => ?_, ?_⟩
      · rw [hsame (hmem other (mem_cons_of_mem _ hother))]
        exact habove (other.metadata, normalizedWithKeyAliases [] (.table other.config))
          (mem_map_of_mem hother)
      · rw [get?_origins hdot (legible_merged hdot hleaf)]
        exact horigin

/-- The scalars of the domains are kept by normalisation, and no layer displaces a scalar that no layer
above supplies again. -/
def Describable (layers : List ConfigLayerEntry) : Prop :=
  ScalarsKept (enabledLayers layers) ∧ Tree.Undisplaced renderStep (normalizedLayers layers)

end Describe

/-! ## Two layers -/

def systemLayer : ConfigLayerEntry where
  metadata := ⟨"system".toList, "1".toList⟩
  config := [("notify".toList, .array [.scalar "notify-send".toList, .scalar "Codex".toList]),
    ("tui".toList, .table [("theme".toList, .scalar "dark".toList)])]
  distinctKeys := by decide

/-- Another table of the user: only single values are overridden. -/
def userLayer : ConfigLayerEntry where
  metadata := ⟨"user".toList, "2".toList⟩
  config := [("memories".toList, .table [(legacyMemoriesKey, .scalar "true".toList)]),
    ("tui".toList, .table [("theme".toList, .scalar "light".toList)])]
  distinctKeys := by decide

/-- A shorter array of the user. -/
def userNotifyLayer : ConfigLayerEntry where
  metadata := ⟨"user".toList, "3".toList⟩
  config := [("notify".toList, .array [.scalar "bell".toList])]
  distinctKeys := by decide

end Codex.Config
