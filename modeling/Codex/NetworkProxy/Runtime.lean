import Codex.Base.Interleaving
import Codex.NetworkProxy.Constraints

/-!
# The running proxy

`network-proxy/src/runtime.rs`. The state of the proxy is a `ConfigState` behind
a lock, and the operations on it are tasks: one step per acquisition of the lock
and per question to the reloader, with what the operation carries from one step
to the next in its `Task`. The lock of the observer and the logs are left out.
-/

namespace Codex.NetworkProxy

open Codex.Text

def maxBlockedEvents : Nat := 200

def u64Max : Nat := 2 ^ 64 - 1

structure BlockedRequest where
  host : Str
  reason : Str
  client : Option Str
  method : Option Str
  mode : Option NetworkMode
  protocol : Str
  executionId : Option Str
  decision : Option Str
  source : Option Str
  port : Option Nat
  timestamp : Int
  deriving DecidableEq

structure ConfigState (Hook Mitm MitmHooks : Type) where
  config : NetworkProxyConfig Hook
  allowSet : GlobSet
  denySet : GlobSet
  mitm : Option Mitm
  mitmHooks : MitmHooks
  constraints : NetworkProxyConstraints
  blocked : List BlockedRequest
  blockedTotal : Nat

variable {Hook Mitm MitmHooks : Type}

/-! ## Building a state -/

/-- An `anyhow::Error`. `notAbsolute path` is `expected an absolute path, got {path:?}`. -/
inductive Error where
  | message (text : Str)
  | notAbsolute (path : Str)
  | constraint (error : NetworkProxyConstraintError)
  | context (text : Str) (cause : Error)
  deriving DecidableEq

/-- The socket paths are absolute (`validate_unix_socket_allowlist_paths`, on Unix). -/
def validateUnixSocketAllowlistPaths : Nat → List Str → Except Error Unit
  | _, [] => .ok ()
  | index, path :: paths =>
    if path.head? = some '/' then validateUnixSocketAllowlistPaths (index + 1) paths
    else .error (.context
      ("invalid network.allow_unix_sockets[".toList ++ (toString index).toList ++ "]".toList)
      (.notAbsolute path))

def credentialBrokerRequiresMitm : Str :=
  "network.credential_broker requires network.mitm = true".toList

def buildMitm (ext : Externals Hook Mitm MitmHooks) (config : NetworkProxyConfig Hook) :
    Except Error (Option Mitm) :=
  if config.mitm then
    ((ext.newMitmState config.allowUpstreamProxy config.allowLocalBinding).mapError
      .message).map some
  else .ok none

def buildConfigState (ext : Externals Hook Mitm MitmHooks) (config : NetworkProxyConfig Hook)
    (constraints : NetworkProxyConstraints) : Except Error (ConfigState Hook Mitm MitmHooks) := do
  validateUnixSocketAllowlistPaths 0 config.allowUnixSockets
  if config.credentialBroker && !config.mitm then .error (.message credentialBrokerRequiresMitm)
  let allowedDomains := config.allowedDomains.getD []
  let deniedDomains := config.deniedDomains.getD []
  (validateNonGlobalWildcardDomainPatterns "network.denied_domains" deniedDomains).mapError
    .constraint
  let denySet ← (compileDenylistGlobset ext.buildsGlob deniedDomains).mapError
    (.message ∘ GlobError.message)
  let allowSet ← (compileAllowlistGlobset ext.buildsGlob allowedDomains).mapError
    (.message ∘ GlobError.message)
  let mitmHooks ← (ext.compileMitmHooks config).mapError .message
  let mitm ← buildMitm ext config
  return ⟨config, allowSet, denySet, mitm, mitmHooks, constraints, [], 0⟩

/-- A built state holds the config and the constraints, and nothing was blocked yet. -/
theorem buildConfigState_eq_ok {ext : Externals Hook Mitm MitmHooks}
    {config : NetworkProxyConfig Hook} {constraints : NetworkProxyConstraints}
    {state : ConfigState Hook Mitm MitmHooks}
    (h : buildConfigState ext config constraints = .ok state) :
    state.config = config ∧ state.constraints = constraints ∧ state.blocked = [] ∧
      state.blockedTotal = 0 := by
  simp only [buildConfigState, bind_eq_ok] at h
  obtain ⟨_, -, h⟩ := h
  split at h
  · simp only [error_bind] at h
    cases h
  · simp only [bind_eq_ok] at h
    obtain ⟨_, -, _, -, _, -, _, -, _, -, h⟩ := h
    cases h
    exact ⟨rfl, rfl, rfl, rfl⟩

/-! ## Domain updates -/

inductive DomainListKind where
  | allow
  | deny
  deriving DecidableEq

namespace DomainListKind

def listName : DomainListKind → Str
  | .allow => "allowlist".toList
  | .deny => "denylist".toList

def constraintField : DomainListKind → Str
  | .allow => "network.allowed_domains".toList
  | .deny => "network.denied_domains".toList

def permission : DomainListKind → NetworkDomainPermission
  | .allow => .allow
  | .deny => .deny

def entries (target : DomainListKind) (domains : Option NetworkDomainPermissions) : List Str :=
  (domainEntriesOf domains target.permission).getD []

def opposite : DomainListKind → DomainListKind
  | .allow => .deny
  | .deny => .allow

end DomainListKind

/-- The host is in the list of the update and not in the opposite one. -/
def settled (domains : Option NetworkDomainPermissions) (normalizedHost : Str)
    (target : DomainListKind) : Bool :=
  (target.entries domains).any (normalizeHost · = normalizedHost) &&
    !(target.opposite.entries domains).any (normalizeHost · = normalizedHost)

/-! ## Calls, operations and tasks -/

/-- The calls of the public interface; `query` is any call that only reads the state. -/
inductive Call (Hook Mitm MitmHooks : Type) where
  | recordBlocked (executionId : Option Str) (entry : BlockedRequest)
  | drainBlocked
  | addAllowedDomain (host : Str)
  | addDeniedDomain (host : Str)
  | setNetworkMode (mode : NetworkMode)
  | replaceConfigState (newState : ConfigState Hook Mitm MitmHooks)
  | forceReload
  | query

/-- What runs after `reload_if_needed` has returned. -/
inductive Op (Hook Mitm MitmHooks : Type) where
  | recordBlocked (entry : BlockedRequest)
  | drainBlocked
  | updateDomainList (normalizedHost : Str) (target : DomainListKind)
  | setNetworkMode (mode : NetworkMode)
  | replaceConfigState (newState : ConfigState Hook Mitm MitmHooks)
  | query

inductive Reply where
  | unit
  | entries (blocked : List BlockedRequest)
  deriving DecidableEq

/-- The point a task has reached, named by what its next step does. -/
inductive Task (Hook Mitm MitmHooks : Type) where
  /-- `reloader.maybe_reload()`, at the head of an operation or of its loop. -/
  | maybeReload (op : Op Hook Mitm MitmHooks)
  /-- The read lock of `reload_if_needed`. -/
  | reloadRead (op : Op Hook Mitm MitmHooks) (newState : ConfigState Hook Mitm MitmHooks)
  /-- The write lock of `reload_if_needed`. -/
  | reloadWrite (op : Op Hook Mitm MitmHooks) (newState : ConfigState Hook Mitm MitmHooks)
  /-- The first lock after `reload_if_needed`. -/
  | body (op : Op Hook Mitm MitmHooks)
  /-- The write lock of `set_network_mode`. -/
  | modeWrite (mode : NetworkMode) (constraints : NetworkProxyConstraints)
  /-- The write lock of `update_domain_list`. -/
  | domainWrite (normalizedHost : Str) (target : DomainListKind)
      (previousCfg : NetworkProxyConfig Hook) (constraints : NetworkProxyConstraints)
      (newState : ConfigState Hook Mitm MitmHooks)
  /-- The read lock of `force_reload`. -/
  | forceRead
  /-- `reloader.reload_now()`. -/
  | reloadNow
  /-- The write lock of `force_reload`. -/
  | forceWrite (newState : ConfigState Hook Mitm MitmHooks)
  | done (result : Except Error Reply)

/-- What the reloader answers if it is asked in a step. -/
structure Reloader (Hook Mitm MitmHooks : Type) where
  maybeReload : Except Str (Option (ConfigState Hook Mitm MitmHooks))
  reloadNow : Except Str (ConfigState Hook Mitm MitmHooks)

/-- What a step commits to the shared state. -/
inductive Event where
  | recorded (entry : BlockedRequest)
  | drained
  | updated (normalizedHost : Str) (target : DomainListKind)
  | loaded (domains : Option NetworkDomainPermissions)
  deriving DecidableEq

/-! ## Steps -/

abbrev StepResult (Hook Mitm MitmHooks : Type) :=
  Task Hook Mitm MitmHooks × ConfigState Hook Mitm MitmHooks × Option Event

section

variable [DecidableEq Hook] (ext : Externals Hook Mitm MitmHooks) (brokerEnabled : Bool)

def credentialBrokerChanged : Str :=
  "network.credential_broker cannot change while the proxy is running".toList

def ensureCredentialBrokerEnablementUnchanged (newState : ConfigState Hook Mitm MitmHooks) :
    Except Error Unit :=
  if brokerEnabled = newState.config.credentialBroker then .ok ()
  else .error (.message credentialBrokerChanged)

def maybeReload (reloader : Reloader Hook Mitm MitmHooks) (op : Op Hook Mitm MitmHooks) :
    Task Hook Mitm MitmHooks :=
  match reloader.maybeReload with
  | .error err => .done (.error (.message err))
  | .ok none => .body op
  | .ok (some newState) =>
    match ensureCredentialBrokerEnablementUnchanged brokerEnabled newState with
    | .error err => .done (.error err)
    | .ok () => .reloadRead op newState

/-- A new state with the blocked requests of the guard. -/
def ConfigState.keepBlocked (newState guard : ConfigState Hook Mitm MitmHooks) :
    ConfigState Hook Mitm MitmHooks :=
  { newState with blocked := guard.blocked, blockedTotal := guard.blockedTotal }

/-- `while blocked.len() > MAX_BLOCKED_EVENTS { blocked.pop_front(); }` -/
def popFrontWhileOver {α : Type} (max : Nat) : List α → List α
  | [] => []
  | entry :: rest =>
    if max < (entry :: rest).length then popFrontWhileOver max rest else entry :: rest

def ConfigState.pushBlocked (guard : ConfigState Hook Mitm MitmHooks) (entry : BlockedRequest) :
    ConfigState Hook Mitm MitmHooks :=
  { guard with
    blocked := popFrontWhileOver maxBlockedEvents (guard.blocked ++ [entry])
    blockedTotal := min (guard.blockedTotal + 1) u64Max }

def modeConstrained : Str := "network.mode constrained by managed config".toList

/-- The read lock of `set_network_mode` and the check that follows. -/
def modeRead (mode : NetworkMode) (guard : ConfigState Hook Mitm MitmHooks) :
    Task Hook Mitm MitmHooks :=
  match validatePolicyAgainstConstraints ext { guard.config with mode } guard.constraints with
  | .error err => .done (.error (.context modeConstrained (.constraint err)))
  | .ok () => .modeWrite mode guard.constraints

def modeWrite (mode : NetworkMode) (constraints : NetworkProxyConstraints)
    (guard : ConfigState Hook Mitm MitmHooks) : StepResult Hook Mitm MitmHooks :=
  if guard.constraints = constraints then
    (.done (.ok .unit), { guard with config := { guard.config with mode } }, none)
  else (.maybeReload (.setNetworkMode mode), guard, none)

/-- The read lock of `update_domain_list`, and what is computed outside the lock. An update that
changes nothing is committed here. -/
def domainRead (normalizedHost : Str) (target : DomainListKind)
    (guard : ConfigState Hook Mitm MitmHooks) : StepResult Hook Mitm MitmHooks :=
  if settled guard.config.domains normalizedHost target then
    (.done (.ok .unit), guard, some (.updated normalizedHost target))
  else
    let candidate :=
      guard.config.upsertDomainPermission normalizedHost target.permission normalizeHost
    match validatePolicyAgainstConstraints ext candidate guard.constraints with
    | .error err =>
      (.done (.error (.context
        (target.constraintField ++ " constrained by managed config".toList)
        (.constraint err))), guard, none)
    | .ok () =>
      match buildConfigState ext candidate guard.constraints with
      | .error err =>
        (.done (.error (.context
          ("failed to compile updated network ".toList ++ target.listName) err)), guard, none)
      | .ok newState =>
        (.domainWrite normalizedHost target guard.config guard.constraints
          (newState.keepBlocked guard), guard, none)

def domainWrite (normalizedHost : Str) (target : DomainListKind)
    (previousCfg : NetworkProxyConfig Hook) (constraints : NetworkProxyConstraints)
    (newState guard : ConfigState Hook Mitm MitmHooks) : StepResult Hook Mitm MitmHooks :=
  if guard.constraints = constraints ∧ guard.config = previousCfg then
    (.done (.ok .unit), newState, some (.updated normalizedHost target))
  else (.maybeReload (.updateDomainList normalizedHost target), guard, none)

def replaceWrite (newState guard : ConfigState Hook Mitm MitmHooks) :
    StepResult Hook Mitm MitmHooks :=
  match ensureCredentialBrokerEnablementUnchanged brokerEnabled newState with
  | .error err => (.done (.error err), guard, none)
  | .ok () =>
    (.done (.ok .unit), newState.keepBlocked guard, some (.loaded newState.config.domains))

def body (guard : ConfigState Hook Mitm MitmHooks) :
    Op Hook Mitm MitmHooks → StepResult Hook Mitm MitmHooks
  | .recordBlocked entry => (.done (.ok .unit), guard.pushBlocked entry, some (.recorded entry))
  | .drainBlocked =>
    (.done (.ok (.entries guard.blocked)), { guard with blocked := [] }, some .drained)
  | .updateDomainList normalizedHost target => domainRead ext normalizedHost target guard
  | .setNetworkMode mode => (modeRead ext mode guard, guard, none)
  | .replaceConfigState newState => replaceWrite brokerEnabled newState guard
  | .query => (.done (.ok .unit), guard, none)

/-- `reload_now` and the check that follows. -/
def reloadNow (reloader : Reloader Hook Mitm MitmHooks) : Task Hook Mitm MitmHooks :=
  match reloader.reloadNow with
  | .error err => .done (.error (.message err))
  | .ok newState =>
    match ensureCredentialBrokerEnablementUnchanged brokerEnabled newState with
    | .error err => .done (.error err)
    | .ok () => .forceWrite newState

/-- The write lock of `force_reload` keeps the buffer of the guard, and not its total. -/
def ConfigState.forceReloaded (newState guard : ConfigState Hook Mitm MitmHooks) :
    ConfigState Hook Mitm MitmHooks :=
  { newState with blocked := guard.blocked }

def next (reloader : Reloader Hook Mitm MitmHooks) (task : Task Hook Mitm MitmHooks)
    (guard : ConfigState Hook Mitm MitmHooks) : StepResult Hook Mitm MitmHooks :=
  match task with
  | .maybeReload op => (maybeReload brokerEnabled reloader op, guard, none)
  | .reloadRead op newState => (.reloadWrite op (newState.keepBlocked guard), guard, none)
  | .reloadWrite op newState => (.body op, newState, some (.loaded newState.config.domains))
  | .body op => body ext brokerEnabled guard op
  | .modeWrite mode constraints => modeWrite mode constraints guard
  | .domainWrite normalizedHost target previousCfg constraints newState =>
    domainWrite normalizedHost target previousCfg constraints newState guard
  | .forceRead => (.reloadNow, guard, none)
  | .reloadNow => (reloadNow brokerEnabled reloader, guard, none)
  | .forceWrite newState =>
    (.done (.ok .unit), newState.forceReloaded guard, some (.loaded newState.config.domains))
  | .done result => (.done result, guard, none)

def startUpdate (host : Str) (target : DomainListKind) : Task Hook Mitm MitmHooks :=
  match Host.parse host with
  | none => .done (.error (.context "invalid network host".toList
      (.message "host is empty".toList)))
  | some normalizedHost => .maybeReload (.updateDomainList normalizedHost target)

def start : Call Hook Mitm MitmHooks → Task Hook Mitm MitmHooks
  | .recordBlocked executionId entry =>
    .maybeReload (.recordBlocked { entry with executionId := executionId })
  | .drainBlocked => .maybeReload .drainBlocked
  | .addAllowedDomain host => startUpdate host .allow
  | .addDeniedDomain host => startUpdate host .deny
  | .setNetworkMode mode => .maybeReload (.setNetworkMode mode)
  | .replaceConfigState newState => .maybeReload (.replaceConfigState newState)
  | .forceReload => .forceRead
  | .query => .maybeReload .query

/-- The proxy, with the enablement of the credential broker it was started with. -/
def proxy : System (Call Hook Mitm MitmHooks) (Reloader Hook Mitm MitmHooks)
    (ConfigState Hook Mitm MitmHooks) (Task Hook Mitm MitmHooks) Event where
  start := start
  next := next ext brokerEnabled

end

end Codex.NetworkProxy
