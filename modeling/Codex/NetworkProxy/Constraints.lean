import Codex.Base.Except
import Codex.NetworkProxy.Config

/-!
# Managed constraints

`network-proxy/src/state.rs`: the constraints a managed config puts on the
settings of the proxy, the check of a config against them, and the state built
from a config. In an error, a value printed with `{:?}` is kept as a value; the
entries printed from a hash set stand in the order of the managed list.
-/

namespace Codex.NetworkProxy

open Codex.Text

/-- What the proxy calls and this model does not look into: `url::Host::parse`, the glob
compiler, the checks of a single MITM hook, and the MITM state. -/
structure Externals (Hook Mitm MitmHooks : Type) where
  hostParse : Str → Option Str
  buildsGlob : Str → Bool
  validateHook : Nat → Hook → Except Str Unit
  compileMitmHooks : NetworkProxyConfig Hook → Except Str MitmHooks
  newMitmState : Bool → Bool → Except Str Mitm

structure NetworkProxyConstraints where
  enabled : Option Bool
  mode : Option NetworkMode
  allowUpstreamProxy : Option Bool
  dangerouslyAllowNonLoopbackProxy : Option Bool
  dangerouslyAllowAllUnixSockets : Option Bool
  allowedDomains : Option (List Str)
  allowlistExpansionEnabled : Option Bool
  deniedDomains : Option (List Str)
  denylistExpansionEnabled : Option Bool
  allowUnixSockets : Option (List Str)
  allowLocalBinding : Option Bool
  deriving DecidableEq

/-- `NetworkProxyConstraints::default`. -/
def NetworkProxyConstraints.defaults : NetworkProxyConstraints :=
  ⟨none, none, none, none, none, none, none, none, none, none, none⟩

/-- A value in an error. -/
inductive Shown where
  | text (s : String)
  | raw (s : Str)
  | entries (l : List Str)
  | mode (m : NetworkMode)
  | orMoreRestrictive (m : NetworkMode)
  deriving DecidableEq

inductive NetworkProxyConstraintError where
  | invalidValue (fieldName : String) (candidate allowed : Shown)
  deriving DecidableEq

variable {Hook Mitm MitmHooks : Type}

abbrev Checked := Except NetworkProxyConstraintError Unit

/-! ## The checks of single settings -/

def scopedPatterns : String :=
  "exact hosts or scoped wildcards like *.example.com or **.example.com"

def validateNonGlobalWildcardDomainPatterns (fieldName : String) (patterns : List Str) : Checked :=
  match patterns.find? fun pattern => isGlobalWildcardDomainPattern pattern with
  | some pattern => .error (.invalidValue fieldName (.raw (trim pattern)) (.text scopedPatterns))
  | none => .ok ()

def mitmHooksRequireMitm : String := "network.mitm_hooks requires network.mitm = true"

/-- Each hook with its index. -/
def validateHooks (ext : Externals Hook Mitm MitmHooks) : Nat → List Hook → Except Str Unit
  | _, [] => .ok ()
  | index, hook :: hooks => do
    ext.validateHook index hook
    validateHooks ext (index + 1) hooks

def validateMitmHookConfig (ext : Externals Hook Mitm MitmHooks)
    (config : NetworkProxyConfig Hook) : Except Str Unit :=
  if config.mitmHooks.isEmpty then .ok ()
  else if !config.mitm then .error mitmHooksRequireMitm.toList
  else validateHooks ext 0 config.mitmHooks

def invalidMitmHookConfiguration (err : Str) : NetworkProxyConstraintError :=
  .invalidValue "network.mitm_hooks" (.raw err) (.text "valid MITM hook configuration")

/-- A flag that the managed config can switch off. -/
def validateFlag (fieldName : String) (candidate allowed : Bool) : Checked :=
  if candidate && !allowed then
    .error (.invalidValue fieldName (.text "true") (.text "false (disabled by managed config)"))
  else .ok ()

def networkModeRank : NetworkMode → Nat
  | .limited => 0
  | .full => 1

def validateMode (mode : NetworkMode) : Option NetworkMode → Checked
  | none => .ok ()
  | some maxMode =>
    if networkModeRank maxMode < networkModeRank mode then
      .error (.invalidValue "network.mode" (.mode mode) (.orMoreRestrictive maxMode))
    else .ok ()

/-! ## The checks of lists -/

def lowercased (entries : List Str) : List Str := entries.map toAsciiLowercase

/-- Equality of the sets of two lists. -/
def sameSet (a b : List Str) : Bool := a.all (· ∈ b) && b.all (· ∈ a)

/-- The entries of the config that no managed pattern allows. -/
def invalidEntries (hostParse : Str → Option Str) (managed candidate : List Str) : List Str :=
  let managedPatterns := managed.map (DomainPattern.parseForConstraints hostParse)
  candidate.filter fun entry =>
    !managedPatterns.any (·.allows (DomainPattern.parseForConstraints hostParse entry))

def validateAllowedDomains (hostParse : Str → Option Str) (expansion : Option Bool)
    (managed candidate denied : List Str) : Checked :=
  let required := lowercased managed
  let overrides := lowercased denied
  match expansion with
  | some true =>
    let missing := required.filter fun entry => entry ∉ lowercased candidate ∧ entry ∉ overrides
    if missing.isEmpty then .ok ()
    else .error (.invalidValue "network.allowed_domains"
      (.text "missing managed allowed_domains entries") (.entries missing))
  | some false =>
    let expected := required.filter (· ∉ overrides)
    if sameSet (lowercased candidate) expected then .ok ()
    else .error (.invalidValue "network.allowed_domains" (.entries candidate)
      (.text "must match managed allowed_domains"))
  | none =>
    let invalid := invalidEntries hostParse managed candidate
    if invalid.isEmpty then .ok ()
    else .error (.invalidValue "network.allowed_domains" (.entries invalid)
      (.text "subset of managed allowed_domains"))

def validateDeniedDomains (expansion : Option Bool) (managed candidate : List Str) : Checked :=
  let required := lowercased managed
  match expansion with
  | some false =>
    if sameSet (lowercased candidate) required then .ok ()
    else .error (.invalidValue "network.denied_domains" (.entries candidate)
      (.text "must match managed denied_domains"))
  | _ =>
    let missing := required.filter (· ∉ lowercased candidate)
    if missing.isEmpty then .ok ()
    else .error (.invalidValue "network.denied_domains"
      (.text "missing managed denied_domains entries") (.entries missing))

def validateUnixSockets (managed candidate : List Str) : Checked :=
  let invalid := candidate.filter fun entry => toAsciiLowercase entry ∉ lowercased managed
  if invalid.isEmpty then .ok ()
  else .error (.invalidValue "network.allow_unix_sockets" (.entries invalid)
    (.text "subset of managed allow_unix_sockets"))

/-- `if let Some(value) = constraint { check(value)? }`. -/
def whenGiven {α : Type} (constraint : Option α) (check : α → Checked) : Checked :=
  match constraint with
  | some value => check value
  | none => .ok ()

def validatePolicyAgainstConstraints (ext : Externals Hook Mitm MitmHooks)
    (config : NetworkProxyConfig Hook) (constraints : NetworkProxyConstraints) : Checked := do
  let allowedDomains := config.allowedDomains.getD []
  let deniedDomains := config.deniedDomains.getD []
  (validateMitmHookConfig ext config).mapError invalidMitmHookConfiguration
  validateNonGlobalWildcardDomainPatterns "network.denied_domains" deniedDomains
  validateFlag "network.enabled" config.enabled (constraints.enabled.getD true)
  validateMode config.mode constraints.mode
  validateFlag "network.allow_upstream_proxy" config.allowUpstreamProxy
    (constraints.allowUpstreamProxy.getD true)
  validateFlag "network.dangerously_allow_non_loopback_proxy"
    config.dangerouslyAllowNonLoopbackProxy
    (constraints.dangerouslyAllowNonLoopbackProxy.getD true)
  validateFlag "network.dangerously_allow_all_unix_sockets" config.dangerouslyAllowAllUnixSockets
    (constraints.dangerouslyAllowAllUnixSockets.getD constraints.allowUnixSockets.isNone)
  validateFlag "network.allow_local_binding" config.allowLocalBinding
    (constraints.allowLocalBinding.getD true)
  whenGiven constraints.allowedDomains fun managed => do
    validateNonGlobalWildcardDomainPatterns "network.allowed_domains" managed
    validateAllowedDomains ext.hostParse constraints.allowlistExpansionEnabled managed
      allowedDomains deniedDomains
  whenGiven constraints.deniedDomains fun managed => do
    validateNonGlobalWildcardDomainPatterns "network.denied_domains" managed
    validateDeniedDomains constraints.denylistExpansionEnabled managed deniedDomains
  whenGiven constraints.allowUnixSockets fun managed =>
    validateUnixSockets managed config.allowUnixSockets

/-- What an accepted config says about its allowed domains. -/
theorem allowedDomains_validated {ext : Externals Hook Mitm MitmHooks}
    {config : NetworkProxyConfig Hook} {constraints : NetworkProxyConstraints} {managed : List Str}
    (h : validatePolicyAgainstConstraints ext config constraints = .ok ())
    (hmanaged : constraints.allowedDomains = some managed) :
    validateAllowedDomains ext.hostParse constraints.allowlistExpansionEnabled managed
      (config.allowedDomains.getD []) (config.deniedDomains.getD []) = .ok () := by
  simp only [validatePolicyAgainstConstraints, bind_eq_ok] at h
  obtain ⟨_, -, _, -, _, -, _, -, _, -, _, -, _, -, _, -, _, hallowed, -⟩ := h
  rw [hmanaged, whenGiven, bind_eq_ok] at hallowed
  obtain ⟨_, -, hallowed⟩ := hallowed
  exact hallowed

/-! ## Externals for closed runs -/

/-- `url::Host::parse` on ASCII domains: delimiters are refused, letters are lowered. -/
def asciiHostParse (host : Str) : Option Str :=
  if host.any (fun c => c = ':' || c = '[' || c = ']' || c = '/' || c = ' ') then none
  else some (toAsciiLowercase host)

def plainExternals : Externals Unit Unit Unit where
  hostParse := asciiHostParse
  buildsGlob := fun _ => true
  validateHook := fun _ _ => .ok ()
  compileMitmHooks := fun _ => .ok ()
  newMitmState := fun _ _ => .ok ()

end Codex.NetworkProxy
