import Codex.Config.Composition
import Mathlib.Data.List.Flatten

/-!
# Composed requirements

The denied reads are taken out of the TOML of every layer, so that they meet
nothing in the merged TOML that they are put back into. With the loop over the
layers this gives what a composition does as a whole (`composeRequirements_keeps`).
-/

namespace Codex.Config

open List Codex.Text Entries ComposableRequirementsLayer

/-! ## Stripped layers -/

section Stripped

variable {path : List Str} {value : TomlValue}

theorem distinctKeys_removeTopLevelField (key : Str) (h : value.distinctKeys = true) :
    (removeTopLevelField key value).distinctKeys = true := by
  cases value with
  | scalar _ | array _ => exact h
  | table entries => exact Tree.distinctKeys_remove h

section Replaced

variable {key : Str} {entries : List (Str × TomlValue)} (f : TomlValue → TomlValue)

theorem distinctKeys_replaced (h : (Tree.table entries).distinctKeys = true)
    (hf : ∀ child : TomlValue, child.distinctKeys = true → (f child).distinctKeys = true) :
    (Tree.table (match get? key entries with
      | some child => Entries.insert key (f child) entries
      | none => entries)).distinctKeys = true := by
  split
  · next child hchild =>
    refine Tree.distinctKeys_insert h (hf child ?_)
    exact (Tree.distinctKeys_table.1 h).2 _ (mem_of_get? hchild)
  · exact h

theorem get?_replaced :
    get? key (match get? key entries with
      | some child => Entries.insert key (f child) entries
      | none => entries) = (get? key entries).map f := by
  cases hkey : get? key entries with
  | none => exact hkey
  | some child => simp

end Replaced

theorem distinctKeys_removeNestedFieldAndPruneEmpty (h : value.distinctKeys = true) :
    (removeNestedFieldAndPruneEmpty path value).distinctKeys = true := by
  fun_induction removeNestedFieldAndPruneEmpty path value with
  | case1 key entries => exact Tree.distinctKeys_remove h
  | case2 key remaining entries _ _ _ ih =>
    exact Tree.distinctKeys_remove (distinctKeys_replaced _ h ih)
  | case3 key remaining entries _ _ _ ih => exact distinctKeys_replaced _ h ih
  | case4 => exact h

theorem value?_removeNestedFieldAndPruneEmpty (hpath : path ≠ []) :
    Tree.value? path (removeNestedFieldAndPruneEmpty path value) = none := by
  fun_induction removeNestedFieldAndPruneEmpty path value with
  | case1 key entries | case2 key remaining entries => simp [Tree.value?_cons_table]
  | case3 key remaining entries hremaining replaced _ ih =>
    have hget : get? key replaced =
        (get? key entries).map (removeNestedFieldAndPruneEmpty remaining) :=
      get?_replaced _
    rw [Tree.value?_cons_table, hget]
    cases get? key entries with
    | none => rfl
    | some child => exact ih child hremaining
  | case4 path value _ hother =>
    obtain ⟨key, remaining, rfl⟩ := exists_cons_of_ne_nil hpath
    cases value with
    | scalar _ | array _ => rfl
    | table entries => exact absurd rfl (hother key remaining entries rfl)

theorem distinctKeys_materialize {requirements : ConfigRequirementsToml}
    (h : value.distinctKeys = true) :
    (materializeRemoteSandboxConfig value requirements).distinctKeys = true := by
  have hremoved := distinctKeys_removeTopLevelField "remote_sandbox_config".toList h
  unfold materializeRemoteSandboxConfig
  dsimp only
  split
  · next modes entries _ hentries =>
    rw [hentries] at hremoved
    refine Tree.distinctKeys_insert hremoved ?_
    rw [Tree.distinctKeys, Tree.distinctKeysItems_iff]
    intro item hitem
    obtain ⟨mode, -, rfl⟩ := mem_map.1 hitem
    rfl
  · exact hremoved

/-- A layer that has been read, without the fields that are merged on their own. -/
theorem fromEntry_regularToml {env : Environment} {entry : RequirementsLayerEntry}
    {layer : ComposableRequirementsLayer}
    (h : fromEntry env entry = .ok layer) :
    layer.regularToml.distinctKeys = true ∧ Tree.value? denyReadPath layer.regularToml = none := by
  unfold fromEntry at h
  cases hdocument : parseLayerToml env entry.toml entry.source with
  | error err =>
    rw [hdocument] at h
    cases h
  | ok document =>
    cases hrequirements : parseLayerRequirements env entry.baseDir entry.toml entry.source with
    | error err =>
      rw [hdocument, hrequirements] at h
      cases h
    | ok requirements =>
      rw [hdocument, hrequirements] at h
      cases h
      refine ⟨distinctKeys_removeNestedFieldAndPruneEmpty ?_,
        value?_removeNestedFieldAndPruneEmpty (by decide)⟩
      apply distinctKeys_removeTopLevelField
      apply distinctKeys_removeTopLevelField
      exact distinctKeys_materialize document.distinctKeys

end Stripped

/-! ## What is absent from all layers -/

section Absent

variable {path keys : List Str} {value base overlay : TomlValue}

/-- Nothing is renamed on the way down the keys. -/
def KeepsKeys (path keys : List Str) : Prop :=
  ∀ above ∈ keys.inits, path ++ above ≠ [memoriesKey] ∧
    isPermissionNetworkDomainsPath (path ++ above) = false

theorem KeepsKeys.normalizeEntries_eq {β : Type} {entries : List (Str × β)} (h : KeepsKeys path keys) :
    normalizeEntries path entries = entries := by
  obtain ⟨hmemories, hdomains⟩ := h [] (by simp)
  rw [append_nil] at hmemories hdomains
  rw [normalizeEntries, normalizeKeyAliases_of_ne hmemories, hdomains]
  rfl

theorem KeepsKeys.below {key : Str} (h : KeepsKeys path (key :: keys)) :
    KeepsKeys (path ++ [key]) keys := by
  intro above habove
  have hbelow := h (key :: above) (by simpa using habove)
  rwa [List.append_assoc, singleton_append]

theorem KeepsKeys.value?_normalized (h : KeepsKeys path keys) (hvalue : Tree.value? keys value = none) :
    Tree.value? keys (normalizedWithKeyAliases path value) = none := by
  induction keys generalizing path value with
  | nil => cases hvalue
  | cons key keys ih =>
    cases value with
    | scalar _ | array _ => rfl
    | table entries =>
      have hne : path ≠ [memoriesKey] := by simpa using (h [] (by simp)).1
      rw [normalized_table, normalizeKeyAliases_of_ne hne, Tree.value?_cons_table,
        get?_mapWithKey fun key => normalizedWithKeyAliases (path ++ [key])]
      rw [Tree.value?_cons_table] at hvalue
      cases hkey : get? key entries with
      | none => rfl
      | some child =>
        rw [hkey] at hvalue
        exact ih h.below hvalue

theorem get?_foldl_mergers {overlay base : List (Str × TomlValue)}
    (hnodup : (overlay.map Prod.fst).Nodup) (key : Str) :
    get? key ((mergers overlay).foldl (mergeEntry path) base) =
      match get? key overlay with
      | some value => some (match get? key base with
        | some existing => mergeAtPath value existing (path ++ [key])
        | none => normalizedWithKeyAliases (path ++ [key]) value)
      | none => get? key base := by
  induction overlay generalizing base with
  | nil => rfl
  | cons entry overlay ih =>
    obtain ⟨k, v⟩ := entry
    rw [map_cons, nodup_cons] at hnodup
    rw [mergers, foldl_cons, ih hnodup.2]
    unfold mergeEntry
    by_cases hk : k = key
    · subst hk
      rw [get?_eq_none.2 hnodup.1]
      cases hexisting : get? k base <;> simp [get?]
    · cases hexisting : get? k base <;> simp [get?, hk, Ne.symm hk]

theorem KeepsKeys.value?_mergeAtPath (h : KeepsKeys path keys) (hkeys : overlay.distinctKeys = true)
    (hbase : Tree.value? keys base = none) (hoverlay : Tree.value? keys overlay = none) :
    Tree.value? keys (mergeAtPath overlay base path) = none := by
  induction keys generalizing path base overlay with
  | nil => cases hbase
  | cons key keys ih =>
    cases overlay with
    | scalar _ | array _ => exact h.value?_normalized hoverlay
    | table overlay =>
      cases base with
      | scalar _ | array _ => exact h.value?_normalized hoverlay
      | table base =>
        rw [Tree.distinctKeys_table] at hkeys
        rw [Tree.value?_cons_table] at hbase hoverlay
        simp only [mergeAtPath]
        rw [Tree.value?_cons_table, h.normalizeEntries_eq, h.normalizeEntries_eq, get?_foldl_mergers hkeys.1]
        cases hkey : get? key overlay with
        | none => exact hbase
        | some value =>
          rw [hkey] at hoverlay
          cases hexisting : get? key base with
          | none => exact h.below.value?_normalized hoverlay
          | some existing =>
            rw [hexisting] at hbase
            exact ih h.below (hkeys.2 _ (mem_of_get? hkey)) hbase hoverlay

theorem keepsKeys_denyRead : KeepsKeys [] denyReadPath := by
  unfold KeepsKeys
  decide

/-- No denied reads are left in the merged TOML. -/
theorem value?_mergedToml {layers : List ComposableRequirementsLayer}
    (hlayers : ∀ layer ∈ layers, layer.regularToml.distinctKeys = true ∧
      Tree.value? denyReadPath layer.regularToml = none) :
    Tree.value? denyReadPath (mergedToml layers) = none := by
  have hrun : ∀ base : TomlValue, Tree.value? denyReadPath base = none →
      Tree.value? denyReadPath
        (layers.foldl (fun merged layer => mergeTomlValues merged layer.regularToml) base) = none := by
    induction layers with
    | nil => exact fun base hbase => hbase
    | cons layer layers ih =>
      intro base hbase
      obtain ⟨hkeys, hlayer⟩ := hlayers layer mem_cons_self
      refine ih (fun other hother => hlayers other (mem_cons_of_mem _ hother)) _ ?_
      exact keepsKeys_denyRead.value?_mergeAtPath hkeys hbase hlayer
  exact hrun (.table []) rfl

end Absent

/-! ## The output -/

section Composed

variable {env : Environment} {field : HookDirectoryField}

theorem denyRead_applyTo {state : DenyReadMergeState}
    {target : Option (Sourced PermissionsRequirementsToml)} (hnodup : state.denyRead.Nodup)
    (htarget : (target.bind fun permissions => permissions.value.denyRead) = none) :
    ((state.applyTo target).bind fun permissions => permissions.value.denyRead).getD [] =
      state.denyRead := by
  unfold DenyReadMergeState.applyTo
  split
  · next hempty => rw [htarget, List.isEmpty_iff.1 hempty]; rfl
  · cases target with
    | none => rfl
    | some existing =>
      have hexisting : existing.value.denyRead = none := htarget
      have hpushed : state.denyRead.foldl pushNew [] = state.denyRead :=
        (foldl_pushNew [] state.denyRead).trans (eraseDups_of_nodup hnodup)
      show state.denyRead.foldl pushNew (existing.value.denyRead.getD []) = state.denyRead
      rw [hexisting]
      exact hpushed

/-- Where the output is empty, nothing was to be kept. -/
theorem composed_of_isEmpty {output : ConfigRequirementsWithSources}
    (h : output.intoToml.isEmpty = true) :
    composedPrefixRules (some output) = [] ∧ (∀ event, composedHookGroups (some output) event = []) ∧
      composedDenyRead (some output) = [] := by
  simp only [ConfigRequirementsToml.isEmpty, Bool.and_eq_true] at h
  obtain ⟨⟨⟨⟨⟨⟨-, -⟩, -⟩, hhooks⟩, hrules⟩, hpermissions⟩, -⟩ := h
  refine ⟨?_, fun event => ?_, ?_⟩
  · have hnone : output.rules = none := by simpa [ConfigRequirementsWithSources.intoToml] using hrules
    simp [composedPrefixRules, hnone]
  · cases houtput : output.hooks with
    | none => simp [composedHookGroups, houtput]
    | some hooks =>
      have hempty : hooks.value.isEmpty = true := by
        simpa [ConfigRequirementsWithSources.intoToml, houtput, isNoneOr] using hhooks
      rw [ManagedHooksRequirementsToml.isEmpty, Bool.and_eq_true] at hempty
      simp [composedHookGroups, houtput, groups_of_isEmpty hempty.2]
  · have hnone : output.permissions = none := by
      simpa [ConfigRequirementsWithSources.intoToml] using hpermissions
    simp [composedDenyRead, hnone]

/-- The composed lists are those of the layers, given from the highest down. -/
structure ComposedFrom (layers : List ComposableRequirementsLayer)
    (output : Option ConfigRequirementsWithSources) : Prop where
  rules : composedPrefixRules output = layers.reverse.flatMap fun layer => layer.prefixRules
  groups : ∀ event, composedHookGroups output event =
    layers.reverse.flatMap fun layer => layer.hookGroups event
  denyRead : composedDenyRead output =
    (layers.reverse.flatMap fun layer => layer.denyRead).eraseDups

/-- The derived reader gives no denied reads where the TOML has none. -/
def ReadsAbsent (env : Environment) : Prop :=
  ∀ value requirements, env.readValue none value = .ok requirements →
    Tree.value? denyReadPath value = none →
    (requirements.permissions.bind PermissionsRequirementsToml.denyRead) = none

variable {layers : List ComposableRequirementsLayer} {α β ε : Type}
  {output : Option ConfigRequirementsWithSources}

/-- What the loop has merged is in the output, and an empty output had nothing to keep. -/
theorem composedFrom_output {requirements : ConfigRequirementsToml} {state : DomainMergeState}
    {components : Str → List Str} (h : state.Merged components field layers.reverse)
    (habsent : (requirements.permissions.bind PermissionsRequirementsToml.denyRead) = none) :
    ComposedFrom layers
      (if (composedOutput layers requirements state).intoToml.isEmpty then none
        else some (composedOutput layers requirements state)) := by
  have hsome : ComposedFrom layers (some (composedOutput layers requirements state)) := by
    refine ⟨h.rules, h.groups, ?_⟩
    rw [← h.denyRead]
    apply denyRead_applyTo
    · rw [h.denyRead]
      exact nodup_eraseDups _
    · unfold populateMergedRegularFieldsWithSources
      cases hpermissions : requirements.permissions with
      | none => rfl
      | some permissions =>
        rw [hpermissions] at habsent
        exact habsent
  split
  · next hempty =>
    obtain ⟨hrules, hgroups, hdenyRead⟩ := composed_of_isEmpty hempty
    exact ⟨hrules.symm.trans hsome.rules, fun event => (hgroups event).symm.trans (hsome.groups event),
      hdenyRead.symm.trans hsome.denyRead⟩
  · exact hsome

theorem dirsConflict_reverse {components : Str → List Str} :
    DirsConflict components field layers.reverse ↔ DirsConflict components field layers := by
  simp [DirsConflict]

/-- A composition of layers without denied reads in their TOML. -/
theorem compose_cases (field : HookDirectoryField) (hread : ReadsAbsent env)
    (hlayers : ∀ layer ∈ layers, layer.regularToml.distinctKeys = true ∧
      Tree.value? denyReadPath layer.regularToml = none) :
    (∃ message, env.readValue none (mergedToml layers) = .error message ∧
      compose env field layers = .error (.composedParse message)) ∨
    (∃ requirements err, env.readValue none (mergedToml layers) = .ok requirements ∧
      compose env field layers = .error err ∧ err.isConflict = true ∧
      DirsConflict env.components field layers) ∨
    (∃ requirements output, env.readValue none (mergedToml layers) = .ok requirements ∧
      compose env field layers = .ok output ∧ ¬ DirsConflict env.components field layers ∧
      ComposedFrom layers output) := by
  unfold compose
  cases hrequirements : env.readValue none (mergedToml layers) with
  | error message => exact .inl ⟨message, rfl, rfl⟩
  | ok requirements =>
    refine .inr ?_
    rcases foldlM_merge_cases env.components field layers.reverse with
      ⟨err, herr, hconflict, hdirs⟩ | ⟨state, hstate, hmerged⟩
    · refine .inl ⟨requirements, err, rfl, ?_, hconflict, dirsConflict_reverse.1 hdirs⟩
      simp only [Except.mapError, bind, Except.bind]
      rw [herr]
    · have habsent := hread _ _ hrequirements (value?_mergedToml hlayers)
      refine .inr ⟨requirements, _, rfl, ?_, mt dirsConflict_reverse.2 hmerged.not_conflict,
        composedFrom_output hmerged habsent⟩
      simp only [Except.mapError, bind, Except.bind]
      rw [hstate]
      rfl

theorem mem_of_mapM {f : α → Except ε β} {items : List α} {results : List β}
    (h : items.mapM f = .ok results) : ∀ b ∈ results, ∃ a ∈ items, f a = .ok b := by
  induction items generalizing results with
  | nil =>
    cases h
    simp
  | cons a items ih =>
    rw [mapM_cons] at h
    cases hfirst : f a with
    | error err =>
      rw [hfirst] at h
      cases h
    | ok first =>
      cases hrest : items.mapM f with
      | error err =>
        rw [hfirst, hrest] at h
        cases h
      | ok rest =>
        rw [hfirst, hrest] at h
        cases h
        intro b hb
        rcases mem_cons.1 hb with rfl | hb
        · exact ⟨a, mem_cons_self, hfirst⟩
        · obtain ⟨a', ha', hf⟩ := ih hrest b hb
          exact ⟨a', mem_cons_of_mem _ ha', hf⟩

theorem composeRequirements_of_parsed {entries : List RequirementsLayerEntry}
    (h : entries.mapM (fromEntry env) = .ok layers) :
    composeRequirements env field entries = compose env field layers := by
  rw [composeRequirements, h]
  rfl

theorem stripped_of_parsed {entries : List RequirementsLayerEntry}
    (h : entries.mapM (fromEntry env) = .ok layers) :
    ∀ layer ∈ layers, layer.regularToml.distinctKeys = true ∧
      Tree.value? denyReadPath layer.regularToml = none := by
  intro layer hlayer
  obtain ⟨entry, -, hentry⟩ := mem_of_mapM h layer hlayer
  exact fromEntry_regularToml hentry

/-- A composition that succeeds has the lists of all its layers. -/
theorem composedFrom_of_ok (hread : ReadsAbsent env) {entries : List RequirementsLayerEntry}
    (h : entries.mapM (fromEntry env) = .ok layers)
    (hok : composeRequirements env field entries = .ok output) : ComposedFrom layers output := by
  rw [composeRequirements_of_parsed h] at hok
  rcases compose_cases field hread (stripped_of_parsed h) with
    ⟨_, -, herr⟩ | ⟨_, _, -, herr, -⟩ | ⟨_, output', -, hok', -, hfrom⟩
  · rw [hok] at herr
    cases herr
  · rw [hok] at herr
    cases herr
  · rw [hok] at hok'
    cases hok'
    exact hfrom

/-- No element of one output's lists is missing in the other's. -/
structure KeepsRestrictions (output output' : Option ConfigRequirementsWithSources) : Prop where
  rules : (composedPrefixRules output).Sublist (composedPrefixRules output')
  groups : ∀ event, (composedHookGroups output event).Sublist (composedHookGroups output' event)
  denyRead : composedDenyRead output ⊆ composedDenyRead output'

theorem ComposedFrom.keeps {layers' : List ComposableRequirementsLayer}
    {output' : Option ConfigRequirementsWithSources} (h : ComposedFrom layers output)
    (h' : ComposedFrom layers' output') (hsub : layers.Sublist layers') :
    KeepsRestrictions output output' := by
  have hreverse := hsub.reverse
  refine ⟨?_, fun event => ?_, ?_⟩
  · rw [h.rules, h'.rules]
    exact hreverse.flatMap _
  · rw [h.groups, h'.groups]
    exact hreverse.flatMap _
  · rw [h.denyRead, h'.denyRead]
    intro pattern hpattern
    rw [mem_eraseDups] at hpattern ⊢
    exact (hreverse.flatMap _).subset hpattern

theorem mapM_append_ok {f : α → Except ε β} {lower higher : List α} {results : List β}
    (h : (lower ++ higher).mapM f = .ok results) :
    ∃ below above, lower.mapM f = .ok below ∧ higher.mapM f = .ok above ∧
      results = below ++ above := by
  rw [mapM_append] at h
  cases hlower : lower.mapM f with
  | error err =>
    rw [hlower] at h
    cases h
  | ok below =>
    cases hhigher : higher.mapM f with
    | error err =>
      rw [hlower, hhigher] at h
      cases h
    | ok above =>
      rw [hlower, hhigher] at h
      cases h
      exact ⟨below, above, rfl, rfl, rfl⟩

theorem mapM_insert {f : α → Except ε β} {lower higher : List α} {a : α}
    {results results' : List β} (h : (lower ++ higher).mapM f = .ok results)
    (h' : (lower ++ a :: higher).mapM f = .ok results') : results.Sublist results' := by
  obtain ⟨below, above, hbelow, habove, rfl⟩ := mapM_append_ok h
  obtain ⟨below', rest, hbelow', hrest, rfl⟩ := mapM_append_ok h'
  have hfirst : ([a] ++ higher).mapM f = .ok rest := hrest
  obtain ⟨first, above', -, habove', rfl⟩ := mapM_append_ok hfirst
  rw [hbelow] at hbelow'
  rw [habove] at habove'
  cases hbelow'
  cases habove'
  exact List.Sublist.append_left (sublist_append_right _ _) _

/-- **Composed requirements.** For layers that each parse: the composition fails with a conflict if
and only if the merged TOML can be read and two layers give different directories for the active
field. If it succeeds, no restriction of a layer is lost, and none is lost when a layer is put in
anywhere. -/
theorem composeRequirements_keeps (hread : ReadsAbsent env) {entries : List RequirementsLayerEntry}
    {layers : List ComposableRequirementsLayer}
    (hparsed : entries.mapM (fromEntry env) = .ok layers) :
    ((∃ err, composeRequirements env field entries = .error err ∧ err.isConflict = true) ↔
      (∃ requirements, env.readValue none (mergedToml layers) = .ok requirements) ∧
        DirsConflict env.components field layers) ∧
    (∀ output, composeRequirements env field entries = .ok output → ComposedFrom layers output) ∧
    (∀ lower higher entry output output', entries = lower ++ higher →
      composeRequirements env field entries = .ok output →
      composeRequirements env field (lower ++ entry :: higher) = .ok output' →
      KeepsRestrictions output output') := by
  refine ⟨?_, fun output => composedFrom_of_ok hread hparsed, ?_⟩
  · rw [composeRequirements_of_parsed hparsed]
    rcases compose_cases field hread (stripped_of_parsed hparsed) with
      ⟨message, hmessage, herr⟩ | ⟨requirements, err, hok, herr, hconflict, hdirs⟩ |
      ⟨requirements, output, hok, houtput, hdirs, -⟩
    · rw [herr, hmessage]
      constructor
      · rintro ⟨err, heq, hconflict⟩
        cases heq
        cases hconflict
      · rintro ⟨⟨requirements, heq⟩, -⟩
        cases heq
    · exact ⟨fun _ => ⟨⟨requirements, hok⟩, hdirs⟩, fun _ => ⟨err, herr, hconflict⟩⟩
    · rw [houtput]
      constructor
      · rintro ⟨err, heq, -⟩
        cases heq
      · rintro ⟨-, hconflict⟩
        exact absurd hconflict hdirs
  · rintro lower higher entry output output' rfl hok hok'
    cases hparsed' : (lower ++ entry :: higher).mapM (fromEntry env) with
    | error err =>
      rw [composeRequirements, hparsed'] at hok'
      cases hok'
    | ok layers' =>
      exact (composedFrom_of_ok hread hparsed hok).keeps (composedFrom_of_ok hread hparsed' hok')
        (mapM_insert hparsed hparsed')

end Composed

/-! ## Two layers of an administrator -/

def scalarText : TomlValue → Option Str
  | .scalar text => some text
  | _ => none

def arrayTexts : TomlValue → List Str
  | .array items => items.filterMap scalarText
  | _ => []

/-- A reader of the fields that the layers below use. -/
def readSample : TomlValue → Except Str ConfigRequirementsToml
  | .table entries =>
    match get? "features".toList entries, get? "feature_requirements".toList entries with
    | some _, some _ => .error "duplicate field `features`".toList
    | features, featureRequirements => .ok {
        regular := fun field => if field = .featureRequirements
          then (features.or featureRequirements).map fun _ => ⟨"features".toList, false⟩ else none
        hooks := (get? "hooks".toList entries).map fun hooks =>
          { managedDir := (Tree.value? ["managed_dir".toList] hooks).bind scalarText }
        permissions := (get? "permissions".toList entries).map fun permissions =>
          { filesystem := (Tree.value? ["filesystem".toList] permissions).map fun filesystem =>
            ⟨(Tree.value? ["deny_read".toList] filesystem).map arrayTexts⟩ } }
  | _ => .error "invalid type".toList

def sampleEnvironment : Environment where
  parseToml _ := .error "not a file".toList
  readText _ _ := .error "not a file".toList
  readValue _ := readSample
  hostName := none
  wildMatches _ _ := false
  components path := (path.splitOn '/').filter fun part => part ≠ []

theorem readsAbsent_filesystem {first second : Str} {permissions : TomlValue}
    (h : Tree.value? [first, second] permissions = none) :
    ((Tree.value? [first] permissions).map fun filesystem =>
      FilesystemRequirementsToml.mk ((Tree.value? [second] filesystem).map arrayTexts)).bind
        FilesystemRequirementsToml.denyRead = none := by
  cases permissions with
  | scalar _ | array _ => rfl
  | table profiles =>
    rw [Tree.value?_cons_table] at h ⊢
    cases hfilesystem : get? first profiles with
    | none => rfl
    | some filesystem =>
      rw [hfilesystem] at h
      have hnone : Tree.value? [second] filesystem = none := h
      simp [Tree.value?_nil, hnone]

theorem readsAbsent_sample : ReadsAbsent sampleEnvironment := by
  intro value requirements hread habsent
  cases value with
  | scalar _ | array _ => cases hread
  | table entries =>
    rw [denyReadPath, Tree.value?_cons_table] at habsent
    change readSample (.table entries) = .ok requirements at hread
    unfold readSample at hread
    dsimp only at hread
    split at hread
    · cases hread
    · cases hread
      cases hpermissions : get? "permissions".toList entries with
      | none => rfl
      | some permissions =>
        rw [hpermissions] at habsent
        exact readsAbsent_filesystem habsent

def systemRequirements : RequirementsLayerEntry where
  source := .systemRequirementsToml "/etc/codex/requirements.toml".toList
  toml := .value ⟨.table [("features".toList, .table [("apps".toList, .scalar "true".toList)]),
    ("hooks".toList, .table [("managed_dir".toList, .scalar "/opt/hooks".toList)]),
    ("permissions".toList, .table [("filesystem".toList, .table [("deny_read".toList,
      .array [.scalar "/etc/shadow".toList, .scalar "/root".toList])])])], by decide⟩

/-- A layer that keeps to the directory for hooks, up to how it is written. -/
def cloudRequirements : RequirementsLayerEntry where
  source := .enterpriseManaged "1".toList "cloud".toList
  toml := .value ⟨.table [("hooks".toList, .table [("managed_dir".toList,
      .scalar "/opt//hooks".toList)]),
    ("permissions".toList, .table [("filesystem".toList, .table [("deny_read".toList,
      .array [.scalar "/root".toList, .scalar "/srv".toList])])])], by decide⟩

/-- A layer with another directory for hooks, and the other name of the features. -/
def mdmRequirements : RequirementsLayerEntry where
  source := .mdmManagedPreferences "codex".toList "requirements".toList
  toml := .value ⟨.table [("feature_requirements".toList,
      .table [("apps".toList, .scalar "true".toList)]),
    ("hooks".toList, .table [("managed_dir".toList, .scalar "/usr/hooks".toList)])], by decide⟩

theorem composeRequirements_keeps_cloud :
    ∃ output, composeRequirements sampleEnvironment .managedDir
        [systemRequirements, cloudRequirements] = .ok output ∧
      composedDenyRead output = ["/root".toList, "/srv".toList, "/etc/shadow".toList] := by
  obtain ⟨layers, hparsed, hlists⟩ : ∃ layers, [systemRequirements, cloudRequirements].mapM
      (fromEntry sampleEnvironment) = .ok layers ∧
      (layers.reverse.flatMap fun layer => layer.denyRead).eraseDups =
        ["/root".toList, "/srv".toList, "/etc/shadow".toList] := ⟨_, rfl, by decide +kernel⟩
  obtain ⟨output, houtput⟩ : ∃ output, composeRequirements sampleEnvironment .managedDir
      [systemRequirements, cloudRequirements] = .ok output := ⟨_, rfl⟩
  refine ⟨output, houtput, ?_⟩
  exact ((composeRequirements_keeps readsAbsent_sample hparsed).2.1 output houtput).denyRead.trans
    hlists

/-- The merged TOML cannot be read, which is found before the directories are compared. -/
theorem composeRequirements_unread :
    ∃ layers, [systemRequirements, mdmRequirements].mapM
        (fromEntry sampleEnvironment) = .ok layers ∧
      DirsConflict sampleEnvironment.components .managedDir layers ∧
      ¬ ∃ err, composeRequirements sampleEnvironment .managedDir
        [systemRequirements, mdmRequirements] = .error err ∧ err.isConflict = true := by
  refine ⟨_, rfl, ?_, ?_⟩
  · refine ⟨_, mem_cons_self, _, mem_cons_of_mem _ mem_cons_self,
      "/opt/hooks".toList, "/usr/hooks".toList, rfl, rfl, by decide +kernel⟩
  · rintro ⟨err, herr, hconflict⟩
    have hmerged : composeRequirements sampleEnvironment .managedDir
        [systemRequirements, mdmRequirements] =
        .error (.composedParse "duplicate field `features`".toList) := rfl
    rw [hmerged] at herr
    cases herr
    cases hconflict

end Codex.Config
