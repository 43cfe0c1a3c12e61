import Codex.Config.Merge

/-!
# Requirements

The requirements an administrator sets (`config/src/config_requirements.rs`,
`config/src/hook_config.rs`), with the source each of them is from. Fields that
are only carried along from the merged TOML into the output are the
`RegularField`s.
-/

namespace Codex.Config

open Codex.Text

/-! ## Sources -/

inductive RequirementSource where
  | unknown
  | mdmManagedPreferences (domain key : Str)
  | composite (sources : List RequirementSource)
  | enterpriseManaged (id name : Str)
  | systemRequirementsToml (file : Str)
  | legacyManagedConfigTomlFromFile (file : Str)
  | legacyManagedConfigTomlFromMdm

namespace RequirementSource

mutual

def beq : RequirementSource → RequirementSource → Bool
  | .unknown, .unknown => true
  | .mdmManagedPreferences domain key, .mdmManagedPreferences domain' key' =>
    domain = domain' && key = key'
  | .composite sources, .composite sources' => beqAll sources sources'
  | .enterpriseManaged id name, .enterpriseManaged id' name' => id = id' && name = name'
  | .systemRequirementsToml file, .systemRequirementsToml file' => file = file'
  | .legacyManagedConfigTomlFromFile file, .legacyManagedConfigTomlFromFile file' => file = file'
  | .legacyManagedConfigTomlFromMdm, .legacyManagedConfigTomlFromMdm => true
  | _, _ => false

def beqAll : List RequirementSource → List RequirementSource → Bool
  | [], [] => true
  | source :: rest, source' :: rest' => beq source source' && beqAll rest rest'
  | _, _ => false

end

instance : BEq RequirementSource := ⟨beq⟩

mutual

def appendToComposite (flattened : List RequirementSource) :
    RequirementSource → List RequirementSource
  | .composite sources => appendAllToComposite flattened sources
  | source => if flattened.contains source then flattened else flattened ++ [source]

def appendAllToComposite (flattened : List RequirementSource) :
    List RequirementSource → List RequirementSource
  | [] => flattened
  | source :: rest => appendAllToComposite (appendToComposite flattened source) rest

end

/-- `RequirementSource::composite`, which flattens composite sources. -/
def ofSources (sources : List RequirementSource) : RequirementSource :=
  match appendAllToComposite [] sources with
  | [] => .unknown
  | [source] => source
  | flattened => .composite flattened

end RequirementSource

structure Sourced (α : Type) where
  value : α
  source : RequirementSource

/-- `merge_output_source`. -/
def mergeOutputSource (existing incoming : RequirementSource) : RequirementSource :=
  if existing != incoming then .ofSources [existing, incoming] else existing

/-! ## Hooks -/

inductive HookEventName where
  | preToolUse
  | permissionRequest
  | postToolUse
  | preCompact
  | postCompact
  | sessionStart
  | userPromptSubmit
  | subagentStart
  | subagentStop
  | stop
  deriving DecidableEq

namespace HookEventName

def all : List HookEventName :=
  [preToolUse, permissionRequest, postToolUse, preCompact, postCompact, sessionStart,
    userPromptSubmit, subagentStart, subagentStop, stop]

theorem mem_all (event : HookEventName) : event ∈ all := by
  cases event <;> decide

end HookEventName

/-- A matcher with its handlers, carried along. -/
abbrev MatcherGroup := Rollout.Carried

/-- The groups of each event. -/
structure HookEventsToml where
  groups : HookEventName → List MatcherGroup

def HookEventsToml.isEmpty (hooks : HookEventsToml) : Bool :=
  HookEventName.all.all fun event => (hooks.groups event).isEmpty

inductive HookDirectoryField where
  | managedDir
  | windowsManagedDir
  deriving DecidableEq

namespace HookDirectoryField

def fieldName : HookDirectoryField → Str
  | .managedDir => "hooks.managed_dir".toList
  | .windowsManagedDir => "hooks.windows_managed_dir".toList

def inactive : HookDirectoryField → HookDirectoryField
  | .managedDir => .windowsManagedDir
  | .windowsManagedDir => .managedDir

end HookDirectoryField

structure ManagedHooksRequirementsToml where
  managedDir : Option Str := none
  windowsManagedDir : Option Str := none
  hooks : HookEventsToml := ⟨fun _ => []⟩

namespace ManagedHooksRequirementsToml

def isEmpty (hooks : ManagedHooksRequirementsToml) : Bool :=
  hooks.managedDir.isNone && hooks.windowsManagedDir.isNone && hooks.hooks.isEmpty

def hookDir (hooks : ManagedHooksRequirementsToml) : HookDirectoryField → Option Str
  | .managedDir => hooks.managedDir
  | .windowsManagedDir => hooks.windowsManagedDir

def setHookDir (hooks : ManagedHooksRequirementsToml) (dir : Option Str) :
    HookDirectoryField → ManagedHooksRequirementsToml
  | .managedDir => { hooks with managedDir := dir }
  | .windowsManagedDir => { hooks with windowsManagedDir := dir }

end ManagedHooksRequirementsToml

/-! ## Rules and permissions -/

structure RequirementsExecPolicyToml where
  prefixRules : List Rollout.Carried

structure FilesystemRequirementsToml where
  denyRead : Option (List Str) := none

structure PermissionsRequirementsToml where
  filesystem : Option FilesystemRequirementsToml := none
  profiles : Rollout.Carried := []

def PermissionsRequirementsToml.denyRead (permissions : PermissionsRequirementsToml) :
    Option (List Str) :=
  permissions.filesystem.bind FilesystemRequirementsToml.denyRead

/-! ## Fields that are carried along -/

inductive RegularField where
  | allowedApprovalPolicies
  | allowedApprovalsReviewers
  | allowedPermissionProfiles
  | defaultPermissions
  | allowedWebSearchModes
  | allowManagedHooksOnly
  | allowAppshots
  | allowRemoteControl
  | computerUse
  | windows
  | featureRequirements
  | mcpServers
  | plugins
  | marketplaces
  | apps
  | enforceResidency
  | network
  | models
  deriving DecidableEq

namespace RegularField

def all : List RegularField :=
  [allowedApprovalPolicies, allowedApprovalsReviewers, allowedPermissionProfiles,
    defaultPermissions, allowedWebSearchModes, allowManagedHooksOnly, allowAppshots,
    allowRemoteControl, computerUse, windows, featureRequirements, mcpServers, plugins,
    marketplaces, apps, enforceResidency, network, models]

/-- The top-level keys of the field. -/
def keys : RegularField → List Str
  | allowedApprovalPolicies => ["allowed_approval_policies".toList]
  | allowedApprovalsReviewers => ["allowed_approvals_reviewers".toList]
  | allowedPermissionProfiles => ["allowed_permission_profiles".toList]
  | defaultPermissions => ["default_permissions".toList]
  | allowedWebSearchModes => ["allowed_web_search_modes".toList]
  | allowManagedHooksOnly => ["allow_managed_hooks_only".toList]
  | allowAppshots => ["allow_appshots".toList]
  | allowRemoteControl => ["allow_remote_control".toList]
  | computerUse => ["computer_use".toList]
  | windows => ["windows".toList]
  | featureRequirements => ["features".toList, "feature_requirements".toList]
  | mcpServers => ["mcp_servers".toList]
  | plugins => ["plugins".toList]
  | marketplaces => ["marketplaces".toList]
  | apps => ["apps".toList]
  | enforceResidency => ["enforce_residency".toList]
  | network => ["experimental_network".toList]
  | models => ["models".toList]

/-- A value of the field may be empty, which counts as no requirement. -/
def mayBeEmpty : RegularField → Bool
  | computerUse | windows | featureRequirements | plugins | marketplaces | apps | models => true
  | _ => false

end RegularField

/-- A value with what its own `is_empty` says. -/
structure FieldValue where
  text : Rollout.Carried
  isEmpty : Bool := false
  deriving DecidableEq

inductive SandboxModeRequirement where
  | readOnly
  | workspaceWrite
  | dangerFullAccess
  | externalSandbox
  deriving DecidableEq

def SandboxModeRequirement.text : SandboxModeRequirement → Str
  | .readOnly => "read-only".toList
  | .workspaceWrite => "workspace-write".toList
  | .dangerFullAccess => "danger-full-access".toList
  | .externalSandbox => "external-sandbox".toList

structure RemoteSandboxConfigToml where
  hostnamePatterns : List Str
  allowedSandboxModes : List SandboxModeRequirement

structure ConfigRequirementsToml where
  regular : RegularField → Option FieldValue := fun _ => none
  allowedSandboxModes : Option (List SandboxModeRequirement) := none
  remoteSandboxConfig : Option (List RemoteSandboxConfigToml) := none
  hooks : Option ManagedHooksRequirementsToml := none
  rules : Option RequirementsExecPolicyToml := none
  permissions : Option PermissionsRequirementsToml := none
  guardianPolicyConfig : Option Str := none

structure ConfigRequirementsWithSources where
  regular : RegularField → Option (Sourced FieldValue) := fun _ => none
  allowedSandboxModes : Option (Sourced (List SandboxModeRequirement)) := none
  hooks : Option (Sourced ManagedHooksRequirementsToml) := none
  rules : Option (Sourced RequirementsExecPolicyToml) := none
  permissions : Option (Sourced PermissionsRequirementsToml) := none
  guardianPolicyConfig : Option (Sourced Str) := none

def ConfigRequirementsWithSources.intoToml (requirements : ConfigRequirementsWithSources) :
    ConfigRequirementsToml where
  regular field := (requirements.regular field).map Sourced.value
  allowedSandboxModes := requirements.allowedSandboxModes.map Sourced.value
  hooks := requirements.hooks.map Sourced.value
  rules := requirements.rules.map Sourced.value
  permissions := requirements.permissions.map Sourced.value
  guardianPolicyConfig := requirements.guardianPolicyConfig.map Sourced.value

/-- `Option::is_none_or`. -/
def isNoneOr {α : Type} (test : α → Bool) : Option α → Bool
  | none => true
  | some a => test a

namespace ConfigRequirementsToml

def isEmpty (requirements : ConfigRequirementsToml) : Bool :=
  (RegularField.all.all fun field =>
    isNoneOr (fun value => field.mayBeEmpty && value.isEmpty) (requirements.regular field)) &&
  requirements.allowedSandboxModes.isNone &&
  requirements.remoteSandboxConfig.isNone &&
  isNoneOr ManagedHooksRequirementsToml.isEmpty requirements.hooks &&
  requirements.rules.isNone &&
  requirements.permissions.isNone &&
  isNoneOr (fun text => (trim text).isEmpty) requirements.guardianPolicyConfig

end ConfigRequirementsToml

def normalizeHostname (hostname : Str) : Option Str :=
  let hostname := trimEndDots (trim hostname)
  if hostname.isEmpty then none else some (toAsciiLowercase hostname)

section Hostname

-- `WildMatchPattern::new_case_insensitive(pattern).matches(hostname)`.
variable (wildMatches : Str → Str → Bool)

def hostnameMatchesAnyPattern (hostname : Str) (patterns : List Str) : Bool :=
  patterns.any fun pattern => (normalizeHostname pattern).any fun pattern =>
    wildMatches pattern hostname

def ConfigRequirementsToml.applyRemoteSandboxConfig (requirements : ConfigRequirementsToml)
    (hostname : Option Str) : ConfigRequirementsToml :=
  match requirements.remoteSandboxConfig, hostname.bind normalizeHostname with
  | some configs, some hostname =>
    match configs.find? fun config =>
        hostnameMatchesAnyPattern wildMatches hostname config.hostnamePatterns with
    | some config => { requirements with allowedSandboxModes := some config.allowedSandboxModes }
    | none => requirements
  | _, _ => requirements

end Hostname

end Codex.Config
