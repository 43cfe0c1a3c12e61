import Codex.Base.FirstSeen
import Codex.Config.Requirements

/-!
# Requirements layers

`compose_requirements` (`config/src/requirements_layers`). Layers come lowest
precedence first. Most fields are merged as TOML like those of config layers;
rules, hooks and `permissions.filesystem.deny_read` are taken out of the TOML and
merged on their own, from the highest layer down.
-/

namespace Codex.Config

open Codex.Text

/-! ## Layers -/

/-- A TOML value in which every table has each of its keys once. -/
structure Document where
  value : TomlValue
  distinctKeys : value.distinctKeys = true

inductive RequirementsLayerToml where
  | string (contents : Str)
  | value (document : Document)

structure RequirementsLayerEntry where
  source : RequirementSource
  toml : RequirementsLayerToml
  baseDir : Option Str := none

inductive RequirementsCompositionError where
  | parse (layerSource : RequirementSource) (message : Str)
  | composedParse (message : Str)
  | conflict (field : Str) (existingSource incomingSource : RequirementSource) (message : Str)

/-- What the composition is given from outside: the TOML parser, the derived readers, which resolve
relative paths against the base directory of the layer, the host and its paths. -/
structure Environment where
  parseToml : Str → Except Str Document
  readText : Option Str → Str → Except Str ConfigRequirementsToml
  readValue : Option Str → TomlValue → Except Str ConfigRequirementsToml
  hostName : Option Str
  wildMatches : Str → Str → Bool
  /-- Paths are equal if their components are. -/
  components : Str → List Str

structure DomainMergedRequirementsFields where
  rules : Option RequirementsExecPolicyToml
  hooks : Option ManagedHooksRequirementsToml
  permissions : Option PermissionsRequirementsToml

structure ComposableRequirementsLayer where
  source : RequirementSource
  regularToml : TomlValue
  domainFields : DomainMergedRequirementsFields

def removeTopLevelField (key : Str) : TomlValue → TomlValue
  | .table entries => .table (Entries.remove key entries)
  | value => value

def removeNestedFieldAndPruneEmpty : List Str → TomlValue → TomlValue
  | [key], .table entries => .table (Entries.remove key entries)
  | key :: remaining, .table entries =>
    let entries : List (Str × TomlValue) := match Entries.get? key entries with
      | some child => Entries.insert key (removeNestedFieldAndPruneEmpty remaining child) entries
      | none => entries
    match Entries.get? key entries with
    | some (.table []) => .table (Entries.remove key entries)
    | _ => .table entries
  | _, value => value

def denyReadPath : List Str := ["permissions".toList, "filesystem".toList, "deny_read".toList]

def stripSpecialFields (layerToml : TomlValue) : TomlValue :=
  let layerToml := removeTopLevelField "rules".toList layerToml
  let layerToml := removeTopLevelField "hooks".toList layerToml
  removeNestedFieldAndPruneEmpty denyReadPath layerToml

def materializeRemoteSandboxConfig (layerToml : TomlValue) (requirements : ConfigRequirementsToml) :
    TomlValue :=
  let layerToml := removeTopLevelField "remote_sandbox_config".toList layerToml
  match requirements.allowedSandboxModes, layerToml with
  | some modes, .table entries =>
    .table (Entries.insert "allowed_sandbox_modes".toList
      (.array (modes.map fun mode => .scalar mode.text)) entries)
  | _, layerToml => layerToml

def parseLayerToml (env : Environment) (toml : RequirementsLayerToml) (source : RequirementSource) :
    Except RequirementsCompositionError Document :=
  match toml with
  | .string contents => (env.parseToml contents).mapError (.parse source)
  | .value document => .ok document

def parseLayerRequirements (env : Environment) (baseDir : Option Str) (toml : RequirementsLayerToml)
    (source : RequirementSource) : Except RequirementsCompositionError ConfigRequirementsToml :=
  match toml with
  | .string contents => (env.readText baseDir contents).mapError (.parse source)
  | .value document => (env.readValue baseDir document.value).mapError (.parse source)

def ComposableRequirementsLayer.fromEntry (env : Environment) (layer : RequirementsLayerEntry) :
    Except RequirementsCompositionError ComposableRequirementsLayer := do
  let regularToml ← parseLayerToml env layer.toml layer.source
  let requirements ← parseLayerRequirements env layer.baseDir layer.toml layer.source
  -- The host name is only asked for when the layer selects by it.
  let hostname := requirements.remoteSandboxConfig.bind fun _ => env.hostName
  let requirements := requirements.applyRemoteSandboxConfig env.wildMatches hostname
  return {
    source := layer.source
    regularToml := stripSpecialFields (materializeRemoteSandboxConfig regularToml.value requirements)
    domainFields := ⟨requirements.rules, requirements.hooks, requirements.permissions⟩ }

/-! ## Rules -/

def mergeRules (target : Option (Sourced RequirementsExecPolicyToml))
    (incoming : Option RequirementsExecPolicyToml) (source : RequirementSource) :
    Option (Sourced RequirementsExecPolicyToml) :=
  match incoming, target with
  | none, target => target
  | some incoming, none => some ⟨incoming, source⟩
  | some incoming, some existing =>
    some ⟨⟨existing.value.prefixRules ++ incoming.prefixRules⟩,
      mergeOutputSource existing.source source⟩

/-! ## Hooks -/

structure HookMergeState where
  directoryField : HookDirectoryField
  dirSources : HookDirectoryField → Option RequirementSource := fun _ => none

namespace HookMergeState

/-- `entry(field).or_insert_with(source)`. -/
def orInsertSource (state : HookMergeState) (field : HookDirectoryField)
    (source : RequirementSource) : HookMergeState :=
  { state with dirSources := fun f =>
      if f = field then (state.dirSources f).or (some source) else state.dirSources f }

def trackSingletonSource (state : HookMergeState) (field : HookDirectoryField) (value : Option Str)
    (source : RequirementSource) : HookMergeState :=
  if value.isSome then state.orInsertSource field source else state

/-- The directory after the merge, and whether it has changed. -/
def mergeActiveSingleton (components : Str → List Str) (state : HookMergeState)
    (field : HookDirectoryField) (existing incoming : Option Str)
    (incomingSource : RequirementSource) :
    Except RequirementsCompositionError (HookMergeState × Option Str × Bool) :=
  match incoming, existing with
  | none, existing => .ok (state, existing, false)
  | some incoming, some existing =>
    if components existing ≠ components incoming then
      .error (.conflict field.fieldName ((state.dirSources field).getD incomingSource)
        incomingSource ("`".toList ++ existing ++ "` conflicts with `".toList ++ incoming ++
          "`".toList))
    else .ok (state, some existing, false)
  | some incoming, none => .ok (state.orInsertSource field incomingSource, some incoming, true)

def fillSingleton (state : HookMergeState) (field : HookDirectoryField)
    (existing incoming : Option Str) (incomingSource : RequirementSource) :
    HookMergeState × Option Str × Bool :=
  match existing, incoming with
  | none, some incoming => (state.orInsertSource field incomingSource, some incoming, true)
  | existing, _ => (state, existing, false)

end HookMergeState

def appendHookEvents (existing incoming : HookEventsToml) : HookEventsToml × Bool :=
  (⟨fun event => existing.groups event ++ incoming.groups event⟩,
    HookEventName.all.any fun event => !(incoming.groups event).isEmpty)

def HookMergeState.merge (components : Str → List Str) (state : HookMergeState)
    (target : Option (Sourced ManagedHooksRequirementsToml))
    (incoming : Option ManagedHooksRequirementsToml) (source : RequirementSource) :
    Except RequirementsCompositionError
      (HookMergeState × Option (Sourced ManagedHooksRequirementsToml)) :=
  match incoming.filter fun value => !value.isEmpty, target with
  | none, target => .ok (state, target)
  | some incoming, none =>
    let state := state.trackSingletonSource .managedDir incoming.managedDir source
    let state := state.trackSingletonSource .windowsManagedDir incoming.windowsManagedDir source
    .ok (state, some ⟨incoming, source⟩)
  | some incoming, some existing => do
    let active := state.directoryField
    let inactive := active.inactive
    let (state, activeDir, activeChanged) ← state.mergeActiveSingleton components active
      (existing.value.hookDir active) (incoming.hookDir active) source
    let (state, inactiveDir, inactiveChanged) := state.fillSingleton inactive
      (existing.value.hookDir inactive) (incoming.hookDir inactive) source
    let (hooks, eventsChanged) := appendHookEvents existing.value.hooks incoming.hooks
    let value := { (existing.value.setHookDir activeDir active).setHookDir inactiveDir inactive with
      hooks := hooks }
    let source := if activeChanged || inactiveChanged || eventsChanged
      then mergeOutputSource existing.source source else existing.source
    return (state, some ⟨value, source⟩)

/-! ## Denied reads -/

structure DenyReadMergeState where
  denyRead : List Str := []
  source : Option RequirementSource := none

namespace DenyReadMergeState

def mergeSource (state : DenyReadMergeState) (source : RequirementSource) : DenyReadMergeState :=
  { state with source := some (match state.source with
      | some existing => mergeOutputSource existing source
      | none => source) }

def push (source : RequirementSource) (state : DenyReadMergeState) (pattern : Str) :
    DenyReadMergeState :=
  if state.denyRead.contains pattern then state
  else { state with denyRead := state.denyRead ++ [pattern] }.mergeSource source

def merge (state : DenyReadMergeState) (incoming : Option PermissionsRequirementsToml)
    (source : RequirementSource) : DenyReadMergeState :=
  match (incoming.bind PermissionsRequirementsToml.denyRead).filter fun denyRead =>
      !denyRead.isEmpty with
  | some denyRead => denyRead.foldl (push source) state
  | none => state

def applyTo (state : DenyReadMergeState) (target : Option (Sourced PermissionsRequirementsToml)) :
    Option (Sourced PermissionsRequirementsToml) :=
  if state.denyRead.isEmpty then target
  else
    let source := state.source.getD .unknown
    match target with
    | none => some ⟨{ filesystem := some ⟨some state.denyRead⟩ }, source⟩
    | some existing =>
      let denyRead := state.denyRead.foldl pushNew (existing.value.denyRead.getD [])
      some ⟨{ existing.value with filesystem := some ⟨some denyRead⟩ },
        if existing.source != source then .ofSources [existing.source, source]
        else existing.source⟩

end DenyReadMergeState

/-! ## The regular fields -/

def topLevelValueForKeys (keys : List Str) : TomlValue → Option TomlValue
  | .table entries => keys.findSome? fun key => Entries.get? key entries
  | _ => none

def isTable : TomlValue → Bool
  | .table _ => true
  | _ => false

def sourceForTopLevelKeys (layers : List ComposableRequirementsLayer) (keys : List Str) :
    RequirementSource :=
  let matching := layers.filterMap fun layer =>
    (topLevelValueForKeys keys layer.regularToml).map fun value => (layer.source, value)
  match matching.getLast? with
  | none => .unknown
  | some (winningSource, winningValue) =>
    if isTable winningValue then
      let tableSources := matching.reverse.filterMap fun (source, value) =>
        if isTable value then some source else none
      if 1 < tableSources.length then .ofSources tableSources else winningSource
    else winningSource

def populateMergedRegularFieldsWithSources (requirements : ConfigRequirementsToml)
    (layers : List ComposableRequirementsLayer) : ConfigRequirementsWithSources where
  regular field := (requirements.regular field).map fun value =>
    ⟨value, sourceForTopLevelKeys layers field.keys⟩
  allowedSandboxModes := requirements.allowedSandboxModes.map fun value =>
    ⟨value, sourceForTopLevelKeys layers ["allowed_sandbox_modes".toList]⟩
  permissions := requirements.permissions.map fun value =>
    ⟨value, sourceForTopLevelKeys layers ["permissions".toList]⟩
  guardianPolicyConfig :=
    (requirements.guardianPolicyConfig.filter fun value => !(trim value).isEmpty).map fun value =>
      ⟨value, sourceForTopLevelKeys layers ["guardian_policy_config".toList]⟩

/-! ## Composition -/

/-- What the loop over the layers has merged, apart from the regular fields. -/
structure DomainMergeState where
  rules : Option (Sourced RequirementsExecPolicyToml) := none
  hooks : HookMergeState
  hooksOutput : Option (Sourced ManagedHooksRequirementsToml) := none
  denyRead : DenyReadMergeState := {}

def DomainMergeState.merge (components : Str → List Str) (state : DomainMergeState)
    (layer : ComposableRequirementsLayer) : Except RequirementsCompositionError DomainMergeState := do
  let rules := mergeRules state.rules layer.domainFields.rules layer.source
  let (hooks, hooksOutput) ← state.hooks.merge components state.hooksOutput layer.domainFields.hooks
    layer.source
  let denyRead := state.denyRead.merge layer.domainFields.permissions layer.source
  return ⟨rules, hooks, hooksOutput, denyRead⟩

def mergedToml (layers : List ComposableRequirementsLayer) : TomlValue :=
  layers.foldl (fun merged layer => mergeTomlValues merged layer.regularToml) (.table [])

/-- The regular fields with what the loop has merged put back. -/
def composedOutput (layers : List ComposableRequirementsLayer) (requirements : ConfigRequirementsToml)
    (state : DomainMergeState) : ConfigRequirementsWithSources :=
  let output := populateMergedRegularFieldsWithSources requirements layers
  { output with
    rules := state.rules
    hooks := state.hooksOutput
    permissions := state.denyRead.applyTo output.permissions }

/-- `RequirementsLayerStack::compose`. -/
def compose (env : Environment) (hookDirectoryField : HookDirectoryField)
    (layers : List ComposableRequirementsLayer) :
    Except RequirementsCompositionError (Option ConfigRequirementsWithSources) := do
  let requirements ← (env.readValue none (mergedToml layers)).mapError .composedParse
  let state ← layers.reverse.foldlM (DomainMergeState.merge env.components)
    { hooks := { directoryField := hookDirectoryField } }
  let output := composedOutput layers requirements state
  return if output.intoToml.isEmpty then none else some output

def composeRequirements (env : Environment) (hookDirectoryField : HookDirectoryField)
    (layers : List RequirementsLayerEntry) :
    Except RequirementsCompositionError (Option ConfigRequirementsWithSources) := do
  compose env hookDirectoryField (← layers.mapM (ComposableRequirementsLayer.fromEntry env))

end Codex.Config
