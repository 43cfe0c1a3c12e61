import Codex.NetworkProxy.Policy

/-!
# The configuration of the proxy

`network-proxy/src/config.rs`: the settings, and the domain permissions with the
lists of allowed and denied patterns read from them. `Hook` is the type of the
configured MITM hooks.
-/

namespace Codex.NetworkProxy

open Codex.Text

inductive NetworkDomainPermission where
  | none
  | allow
  | deny
  deriving DecidableEq

/-- The order of the variants: a denial wins over a permission. -/
def NetworkDomainPermission.rank : NetworkDomainPermission → Nat
  | .none => 0
  | .allow => 1
  | .deny => 2

structure NetworkDomainPermissionEntry where
  pattern : Str
  permission : NetworkDomainPermission
  deriving DecidableEq

structure NetworkDomainPermissions where
  entries : List NetworkDomainPermissionEntry
  deriving DecidableEq

/-- One entry of the loop of `effective_entries`. The list holds `order` and
`effective_permissions` together, in the order of first occurrence. -/
def addEffective (effective : List NetworkDomainPermissionEntry)
    (entry : NetworkDomainPermissionEntry) : List NetworkDomainPermissionEntry :=
  if effective.any (·.pattern = entry.pattern) then
    effective.map fun e =>
      if e.pattern = entry.pattern && e.permission.rank < entry.permission.rank then entry else e
  else effective ++ [entry]

def NetworkDomainPermissions.effectiveEntries (domains : NetworkDomainPermissions) :
    List NetworkDomainPermissionEntry :=
  domains.entries.foldl addEffective []

/-- The patterns with a permission, `None` if there are none. -/
def domainEntriesOf (domains : Option NetworkDomainPermissions)
    (permission : NetworkDomainPermission) : Option (List Str) :=
  (domains.map fun domains =>
    (domains.effectiveEntries.filter (·.permission = permission)).map (·.pattern)).filter
    (!·.isEmpty)

/-- The permissions after the entries of a host were replaced by one. -/
def upsertDomain (domains : Option NetworkDomainPermissions) (host : Str)
    (permission : NetworkDomainPermission) (normalize : Str → Str) :
    Option NetworkDomainPermissions :=
  let entries := (domains.getD ⟨[]⟩).entries
  let retained := entries.filter fun entry => normalize entry.pattern ≠ normalize host
  let domains : NetworkDomainPermissions := ⟨retained ++ [⟨host, permission⟩]⟩
  if domains.entries.isEmpty then none else some domains

inductive NetworkUnixSocketPermission where
  | allow
  | deny
  deriving DecidableEq

inductive NetworkMode where
  | limited
  | full
  deriving DecidableEq

structure NetworkProxyConfig (Hook : Type) where
  enabled : Bool
  proxyUrl : Str
  enableSocks5 : Bool
  socksUrl : Str
  enableSocks5Udp : Bool
  allowUpstreamProxy : Bool
  dangerouslyAllowNonLoopbackProxy : Bool
  dangerouslyAllowAllUnixSockets : Bool
  mode : NetworkMode
  domains : Option NetworkDomainPermissions
  /-- The entries of the map, in the order of the paths. -/
  unixSockets : Option (List (Str × NetworkUnixSocketPermission))
  allowLocalBinding : Bool
  mitm : Bool
  credentialBroker : Bool
  dangerouslyAllowPlaintextCredentialInjection : Bool
  mitmHooks : List Hook
  deriving DecidableEq

namespace NetworkProxyConfig

variable {Hook : Type}

/-- `NetworkProxyConfig::default`. -/
def defaults : NetworkProxyConfig Hook where
  enabled := false
  proxyUrl := "http://127.0.0.1:3128".toList
  enableSocks5 := true
  socksUrl := "http://127.0.0.1:8081".toList
  enableSocks5Udp := true
  allowUpstreamProxy := true
  dangerouslyAllowNonLoopbackProxy := false
  dangerouslyAllowAllUnixSockets := false
  mode := .full
  domains := none
  unixSockets := none
  allowLocalBinding := false
  mitm := false
  credentialBroker := false
  dangerouslyAllowPlaintextCredentialInjection := false
  mitmHooks := []

def domainEntries (config : NetworkProxyConfig Hook) (permission : NetworkDomainPermission) :
    Option (List Str) :=
  domainEntriesOf config.domains permission

def allowedDomains (config : NetworkProxyConfig Hook) : Option (List Str) :=
  config.domainEntries .allow

def deniedDomains (config : NetworkProxyConfig Hook) : Option (List Str) :=
  config.domainEntries .deny

def allowUnixSockets (config : NetworkProxyConfig Hook) : List Str :=
  ((config.unixSockets.getD []).filter (·.2 = .allow)).map (·.1)

def upsertDomainPermission (config : NetworkProxyConfig Hook) (host : Str)
    (permission : NetworkDomainPermission) (normalize : Str → Str) : NetworkProxyConfig Hook :=
  { config with domains := upsertDomain config.domains host permission normalize }

end NetworkProxyConfig

end Codex.NetworkProxy
