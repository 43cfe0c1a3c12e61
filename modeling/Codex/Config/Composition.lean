import Codex.Config.RequirementsLayers

/-!
# What a composition keeps

The loop over the layers keeps every rule, every hook and every denied read
(`DomainMergeState.Merged`), or stops at the first directory for hooks that
differs from one above (`foldlM_merge_cases`).
-/

namespace Codex.Config

open List Codex.Text

/-! ## What layers and results have -/

/-- The directory that hooks give for the field, if they are not empty. -/
def givenDir (field : HookDirectoryField) (hooks : Option ManagedHooksRequirementsToml) :
    Option Str :=
  (hooks.filter fun hooks => !hooks.isEmpty).bind fun hooks => hooks.hookDir field

def givenGroups (event : HookEventName) (hooks : Option ManagedHooksRequirementsToml) :
    List MatcherGroup :=
  (hooks.map fun hooks => hooks.hooks.groups event).getD []

namespace ComposableRequirementsLayer

variable (layer : ComposableRequirementsLayer)

def prefixRules : List Rollout.Carried :=
  (layer.domainFields.rules.map RequirementsExecPolicyToml.prefixRules).getD []

def hookDir (field : HookDirectoryField) : Option Str := givenDir field layer.domainFields.hooks

def hookGroups (event : HookEventName) : List MatcherGroup :=
  givenGroups event layer.domainFields.hooks

def denyRead : List Str :=
  (layer.domainFields.permissions.bind PermissionsRequirementsToml.denyRead).getD []

end ComposableRequirementsLayer

section Output

variable (output : Option ConfigRequirementsWithSources)

def composedPrefixRules : List Rollout.Carried :=
  ((output.bind ConfigRequirementsWithSources.rules).map fun rules => rules.value.prefixRules).getD []

def composedHookGroups (event : HookEventName) : List MatcherGroup :=
  ((output.bind ConfigRequirementsWithSources.hooks).map fun hooks =>
    hooks.value.hooks.groups event).getD []

def composedDenyRead : List Str :=
  ((output.bind ConfigRequirementsWithSources.permissions).bind fun permissions =>
    permissions.value.denyRead).getD []

end Output

/-- Two layers give different directories for the field. -/
def DirsConflict (components : Str → List Str) (field : HookDirectoryField)
    (layers : List ComposableRequirementsLayer) : Prop :=
  ∃ layer ∈ layers, ∃ other ∈ layers, ∃ dir dir', layer.hookDir field = some dir ∧
    other.hookDir field = some dir' ∧ components dir ≠ components dir'

def RequirementsCompositionError.isConflict : RequirementsCompositionError → Bool
  | .conflict .. => true
  | _ => false

/-! ## Hooks -/

section Hooks

variable {components : Str → List Str} {state : HookMergeState}
  {target : Option (Sourced ManagedHooksRequirementsToml)}
  {incoming : Option ManagedHooksRequirementsToml} {source : RequirementSource}

def targetDir (field : HookDirectoryField) (target : Option (Sourced ManagedHooksRequirementsToml)) :
    Option Str :=
  target.bind fun hooks => hooks.value.hookDir field

def targetGroups (event : HookEventName)
    (target : Option (Sourced ManagedHooksRequirementsToml)) : List MatcherGroup :=
  (target.map fun hooks => hooks.value.hooks.groups event).getD []

@[simp] theorem directoryField_trackSingletonSource {field : HookDirectoryField}
    {value : Option Str} :
    (state.trackSingletonSource field value source).directoryField = state.directoryField := by
  unfold HookMergeState.trackSingletonSource
  split <;> rfl

theorem groups_of_isEmpty {hooks : HookEventsToml} (h : hooks.isEmpty = true)
    (event : HookEventName) : hooks.groups event = [] := by
  have hevent := all_eq_true.1 h event (HookEventName.mem_all event)
  exact List.isEmpty_iff.1 hevent

theorem mergeActiveSingleton_cases (components : Str → List Str) (state : HookMergeState)
    (field : HookDirectoryField) (existing incoming : Option Str) (source : RequirementSource) :
    (∃ err, state.mergeActiveSingleton components field existing incoming source = .error err ∧
      err.isConflict = true ∧ ∃ dir dir', existing = some dir ∧ incoming = some dir' ∧
        components dir ≠ components dir') ∨
    (∃ state' changed, state.mergeActiveSingleton components field existing incoming source =
        .ok (state', existing.or incoming, changed) ∧
      state'.directoryField = state.directoryField ∧
      ∀ dir dir', existing = some dir → incoming = some dir' → components dir = components dir') := by
  unfold HookMergeState.mergeActiveSingleton
  cases incoming with
  | none => exact .inr ⟨state, false, by simp, rfl, by simp⟩
  | some dir' =>
    cases existing with
    | none => exact .inr ⟨_, true, rfl, rfl, by simp⟩
    | some dir =>
      by_cases h : components dir = components dir'
      · exact .inr ⟨state, false, by simp [h], rfl, by simpa using h⟩
      · refine .inl ⟨_, if_pos h, rfl, dir, dir', rfl, rfl, h⟩

theorem directoryField_fillSingleton {field : HookDirectoryField} {existing incoming : Option Str} :
    (state.fillSingleton field existing incoming source).1.directoryField = state.directoryField := by
  unfold HookMergeState.fillSingleton
  split <;> rfl

theorem hookDir_setHookDir (hooks : ManagedHooksRequirementsToml) (field : HookDirectoryField)
    (dir dir' : Option Str) :
    ((hooks.setHookDir dir field).setHookDir dir' field.inactive).hookDir field = dir := by
  cases field <;> rfl

theorem givenGroups_of_filter (h : (incoming.filter fun hooks => !hooks.isEmpty) = none)
    (event : HookEventName) : givenGroups event incoming = [] := by
  cases incoming with
  | none => rfl
  | some hooks =>
    have hempty : hooks.isEmpty = true := by simpa using h
    rw [ManagedHooksRequirementsToml.isEmpty, Bool.and_eq_true] at hempty
    exact groups_of_isEmpty hempty.2 event

/-- A merge of hooks is a conflict of directories, or it appends. -/
theorem HookMergeState.merge_cases {field : HookDirectoryField} (hfield : state.directoryField = field) :
    (∃ err, state.merge components target incoming source = .error err ∧ err.isConflict = true ∧
      ∃ dir dir', targetDir field target = some dir ∧ givenDir field incoming = some dir' ∧
        components dir ≠ components dir') ∨
    (∃ state' target', state.merge components target incoming source = .ok (state', target') ∧
      state'.directoryField = field ∧
      targetDir field target' = (targetDir field target).or (givenDir field incoming) ∧
      (∀ event, targetGroups event target' =
        targetGroups event target ++ givenGroups event incoming) ∧
      ∀ dir dir', targetDir field target = some dir → givenDir field incoming = some dir' →
        components dir = components dir') := by
  unfold merge
  cases hincoming : incoming.filter fun hooks => !hooks.isEmpty with
  | none =>
    refine .inr ⟨state, target, rfl, hfield, ?_, fun event => ?_, ?_⟩
    · simp [givenDir, hincoming]
    · rw [givenGroups_of_filter hincoming, append_nil]
    · simp [givenDir, hincoming]
  | some hooks =>
    obtain ⟨rfl, -⟩ := Option.filter_eq_some_iff.1 hincoming
    have hgiven : givenDir field (some hooks) = hooks.hookDir field := by
      rw [givenDir, hincoming, Option.bind_some]
    rw [hgiven]
    cases target with
    | none =>
      refine .inr ⟨_, some ⟨hooks, source⟩, rfl, by simpa using hfield, rfl, fun event => rfl, ?_⟩
      intro dir dir' hdir
      cases hdir
    | some existing =>
      have htarget : targetDir field (some existing) = existing.value.hookDir field := rfl
      rw [htarget]
      dsimp only
      rw [hfield]
      rcases mergeActiveSingleton_cases components state field (existing.value.hookDir field)
        (hooks.hookDir field) source with
        ⟨err, herr, hconflict⟩ | ⟨state', changed, hok, hstate, hagree⟩
      · exact .inl ⟨err, by rw [herr]; rfl, hconflict⟩
      · rw [hok]
        refine .inr ⟨_, _, rfl, ?_, ?_, fun event => ?_, hagree⟩
        · exact directoryField_fillSingleton.trans (hstate.trans hfield)
        · exact hookDir_setHookDir existing.value field _ _
        · rfl

end Hooks

/-! ## The loop over the layers -/

section Loop

variable {components : Str → List Str} {field : HookDirectoryField}
  {layers : List ComposableRequirementsLayer} {layer : ComposableRequirementsLayer}
  {state : DomainMergeState}

theorem prefixRules_mergeRules (target : Option (Sourced RequirementsExecPolicyToml))
    (incoming : Option RequirementsExecPolicyToml) (source : RequirementSource) :
    ((mergeRules target incoming source).map fun rules => rules.value.prefixRules).getD [] =
      (target.map fun rules => rules.value.prefixRules).getD [] ++
        (incoming.map RequirementsExecPolicyToml.prefixRules).getD [] := by
  cases incoming with
  | none => simp [mergeRules]
  | some incoming => cases target <;> rfl

theorem denyRead_push (source : RequirementSource) (state : DenyReadMergeState) (pattern : Str) :
    (state.push source pattern).denyRead = pushNew state.denyRead pattern := by
  unfold DenyReadMergeState.push pushNew
  split <;> rfl

theorem denyRead_foldl_push (source : RequirementSource) (state : DenyReadMergeState)
    (patterns : List Str) :
    (patterns.foldl (DenyReadMergeState.push source) state).denyRead =
      patterns.foldl pushNew state.denyRead := by
  induction patterns generalizing state with
  | nil => rfl
  | cons pattern patterns ih => rw [foldl_cons, ih, denyRead_push, foldl_cons]

theorem denyRead_merge (state : DenyReadMergeState) (incoming : Option PermissionsRequirementsToml)
    (source : RequirementSource) :
    (state.merge incoming source).denyRead =
      ((incoming.bind PermissionsRequirementsToml.denyRead).getD []).foldl pushNew state.denyRead := by
  unfold DenyReadMergeState.merge
  cases incoming.bind PermissionsRequirementsToml.denyRead with
  | none => rfl
  | some patterns =>
    cases patterns with
    | nil => rfl
    | cons pattern patterns => exact denyRead_foldl_push source state (pattern :: patterns)

/-- What the loop has merged from the layers so far, of which the highest came first. -/
structure DomainMergeState.Merged (components : Str → List Str) (field : HookDirectoryField)
    (layers : List ComposableRequirementsLayer) (state : DomainMergeState) : Prop where
  rules : (state.rules.map fun rules => rules.value.prefixRules).getD [] =
    layers.flatMap fun layer => layer.prefixRules
  groups : ∀ event, targetGroups event state.hooksOutput =
    layers.flatMap fun layer => layer.hookGroups event
  denyRead : state.denyRead.denyRead = (layers.flatMap fun layer => layer.denyRead).eraseDups
  directoryField : state.hooks.directoryField = field
  dir : targetDir field state.hooksOutput = (layers.filterMap fun layer => layer.hookDir field).head?
  agree : ∀ dir ∈ layers.filterMap fun layer => layer.hookDir field,
    ∀ dir' ∈ layers.filterMap fun layer => layer.hookDir field, components dir = components dir'

theorem DomainMergeState.merged_nil :
    DomainMergeState.Merged components field [] { hooks := { directoryField := field } } where
  rules := rfl
  groups _ := rfl
  denyRead := rfl
  directoryField := rfl
  dir := rfl
  agree _ h := nomatch h

/-- One layer: its directory conflicts with the one above, or everything of it is merged. -/
theorem DomainMergeState.Merged.step (h : state.Merged components field layers)
    (layer : ComposableRequirementsLayer) :
    (∃ err, state.merge components layer = .error err ∧ err.isConflict = true ∧
      DirsConflict components field (layers ++ [layer])) ∨
    (∃ state', state.merge components layer = .ok state' ∧
      state'.Merged components field (layers ++ [layer])) := by
  rcases HookMergeState.merge_cases h.directoryField with
    ⟨err, herr, hconflict, dir, dir', hdir, hdir', hne⟩ |
    ⟨hooks, hooksOutput, hok, hfield, hdirs, hgroups, hagree⟩
  · refine .inl ⟨err, ?_, hconflict, ?_⟩
    · unfold merge
      rw [herr]
      rfl
    · rw [h.dir] at hdir
      obtain ⟨above, habove, hgiven⟩ := mem_filterMap.1 (mem_of_head? hdir)
      exact ⟨above, by simp [habove], layer, by simp, dir, dir', hgiven, hdir', hne⟩
  · refine .inr ⟨_, by unfold merge; rw [hok]; rfl, ?_⟩
    have hdirs' : (layers ++ [layer]).filterMap (fun layer => layer.hookDir field) =
        (layers.filterMap fun layer => layer.hookDir field) ++ (layer.hookDir field).toList := by
      rw [filterMap_append]
      cases hlayer : layer.hookDir field <;> simp [hlayer]
    refine ⟨?_, fun event => ?_, ?_, hfield, ?_, ?_⟩
    · rw [prefixRules_mergeRules, h.rules, flatMap_append, flatMap_singleton]
      rfl
    · rw [hgroups, h.groups, flatMap_append, flatMap_singleton]
      rfl
    · rw [denyRead_merge, h.denyRead, foldl_pushNew, flatMap_append, flatMap_singleton]
      rfl
    · rw [hdirs, h.dir, hdirs', head?_append]
      congr 1
      show layer.hookDir field = _
      cases layer.hookDir field <;> rfl
    · rw [hdirs']
      -- The directory above is the one all the others agree with.
      have hnew : ∀ dir ∈ layers.filterMap fun layer => layer.hookDir field,
          ∀ dir' ∈ (layer.hookDir field).toList, components dir = components dir' := by
        intro dir hdir dir' hdir'
        obtain ⟨first, hfirst⟩ := Option.ne_none_iff_exists'.1
          (mt head?_eq_none_iff.1 (ne_nil_of_mem hdir))
        rw [h.agree dir hdir first (mem_of_head? hfirst)]
        exact hagree first dir' (h.dir.trans hfirst) (Option.mem_toList.1 hdir')
      intro dir hdir dir' hdir'
      rcases mem_append.1 hdir with hdir | hdir
      · rcases mem_append.1 hdir' with hdir' | hdir'
        · exact h.agree dir hdir dir' hdir'
        · exact hnew dir hdir dir' hdir'
      · rcases mem_append.1 hdir' with hdir' | hdir'
        · exact (hnew dir' hdir' dir hdir).symm
        · have heq := (Option.mem_toList.1 hdir).symm.trans (Option.mem_toList.1 hdir')
          rw [Option.some_inj.1 heq]

theorem DirsConflict.mono {layers' : List ComposableRequirementsLayer}
    (h : DirsConflict components field layers) (hsub : ∀ layer ∈ layers, layer ∈ layers') :
    DirsConflict components field layers' := by
  obtain ⟨layer, hlayer, other, hother, hdirs⟩ := h
  exact ⟨layer, hsub layer hlayer, other, hsub other hother, hdirs⟩

/-- The whole loop: it stops at a conflict, or everything is merged. -/
theorem foldlM_merge_cases (components : Str → List Str) (field : HookDirectoryField)
    (layers : List ComposableRequirementsLayer) :
    (∃ err, layers.foldlM (DomainMergeState.merge components)
        { hooks := { directoryField := field } } = .error err ∧ err.isConflict = true ∧
      DirsConflict components field layers) ∨
    (∃ state, layers.foldlM (DomainMergeState.merge components)
        { hooks := { directoryField := field } } = .ok state ∧
      state.Merged components field layers) := by
  induction layers using List.reverseRecOn with
  | nil => exact .inr ⟨_, rfl, DomainMergeState.merged_nil⟩
  | append_singleton layers layer ih =>
    rw [foldlM_append]
    rcases ih with ⟨err, herr, hconflict, hdirs⟩ | ⟨state, hstate, hmerged⟩
    · refine .inl ⟨err, by rw [herr]; rfl, hconflict, hdirs.mono ?_⟩
      exact fun layer hlayer => mem_append_left _ hlayer
    · rw [hstate]
      have hlast : (Except.ok state >>= fun state =>
          [layer].foldlM (DomainMergeState.merge components) state) =
          state.merge components layer := by
        show [layer].foldlM (DomainMergeState.merge components) state = _
        rw [foldlM_cons]
        exact bind_pure _
      rw [hlast]
      exact hmerged.step layer

theorem DomainMergeState.Merged.not_conflict (h : state.Merged components field layers) :
    ¬ DirsConflict components field layers := by
  rintro ⟨layer, hlayer, other, hother, dir, dir', hdir, hdir', hne⟩
  exact hne (h.agree dir (mem_filterMap.2 ⟨layer, hlayer, hdir⟩) dir'
    (mem_filterMap.2 ⟨other, hother, hdir'⟩))

end Loop

end Codex.Config
