import Codex.NetworkProxy.PolicySpec
import Codex.NetworkProxy.Runtime

/-!
# What the proxy decides for a host

`host_blocked` (`network-proxy/src/runtime.rs`), and the updates of the domain lists as calls
that nothing comes between. `glob` stands for `globset`: whether a glob matches a text. The
checks of local addresses come after the denials and are parameters.
-/

namespace Codex.NetworkProxy

open Codex.Text

inductive HostBlockReason where
  | denied
  | notAllowed
  | notAllowedLocal
  deriving DecidableEq

inductive HostBlockDecision where
  | allowed
  | blocked (reason : HostBlockReason)
  deriving DecidableEq

/-- Whether a host is a literal of a local address, and whether its name resolves to one. -/
structure LocalChecks where
  isLocalLiteral : Str → Bool
  resolvesToNonPublicIp : Str → ℕ → Bool

def unscopedIpLiteral (host : Str) : Option Str :=
  match splitOnce '%' host with
  | some (ip, _) => if isIpAddr ip then some ip else none
  | none => none

section

variable (glob : Str → Str → Bool)

/-- `GlobSet::is_match`. -/
def globsetMatches (set : GlobSet) (host : Str) : Bool := set.any fun pattern => glob pattern host

def globsetMatchesHostOrUnscoped (set : GlobSet) (host : Str) : Bool :=
  globsetMatches glob set host || (unscopedIpLiteral host).any fun ip => globsetMatches glob set ip

def isExplicitLocalAllowlisted (allowedDomains : List Str) (host : Str) : Bool :=
  let unscopedHost := unscopedIpLiteral host
  allowedDomains.any fun pattern =>
    let pattern := trim pattern
    if pattern = ['*'] || subdomainPrefix.isPrefixOf pattern || apexPrefix.isPrefixOf pattern then
      false
    else if pattern.contains '*' || pattern.contains '?' then false
    else
      let normalizedPattern := normalizeHost pattern
      normalizedPattern = host || unscopedHost.any fun ip => normalizedPattern = ip

variable {Hook Mitm MitmHooks : Type} (checks : LocalChecks)

/-- `host_blocked`, with nothing to reload. -/
def hostBlocked (state : ConfigState Hook Mitm MitmHooks) (host : Str) (port : ℕ) :
    HostBlockDecision :=
  match Host.parse host with
  | none => .blocked .notAllowed
  | some host =>
    let allowedDomains := state.config.allowedDomains
    if globsetMatchesHostOrUnscoped glob state.denySet host then .blocked .denied
    else
      let isAllowlisted := globsetMatchesHostOrUnscoped glob state.allowSet host
      let isLocal :=
        if checks.isLocalLiteral host then
          !isExplicitLocalAllowlisted (allowedDomains.getD []) host
        else checks.resolvesToNonPublicIp host port
      if !state.config.allowLocalBinding && isLocal then .blocked .notAllowedLocal
      else if allowedDomains.isNone || !isAllowlisted then .blocked .notAllowed
      else .allowed

end

/-! ## Calls that nothing comes between -/

section

variable {Hook Mitm MitmHooks : Type} [DecidableEq Hook] (ext : Externals Hook Mitm MitmHooks)
  (brokerEnabled : Bool) (reloader : Reloader Hook Mitm MitmHooks)

/-- The first steps of a task, one after the other. -/
def runAlone : ℕ → Task Hook Mitm MitmHooks → ConfigState Hook Mitm MitmHooks →
    Task Hook Mitm MitmHooks × ConfigState Hook Mitm MitmHooks
  | 0, task, state => (task, state)
  | steps + 1, task, state =>
    let (task, state, _) := next ext brokerEnabled reloader task state
    runAlone steps task state

/-- `add_allowed_domain` or `add_denied_domain`: three steps are all there are. -/
def updateAlone (state : ConfigState Hook Mitm MitmHooks) (host : Str) (target : DomainListKind) :
    Task Hook Mitm MitmHooks × ConfigState Hook Mitm MitmHooks :=
  runAlone ext brokerEnabled reloader 3 (startUpdate host target) state

/-- A sequence of updates. -/
def updateAll (state : ConfigState Hook Mitm MitmHooks) (updates : List (Str × DomainListKind)) :
    ConfigState Hook Mitm MitmHooks :=
  updates.foldl (fun state update =>
    (updateAlone ext brokerEnabled reloader state update.1 update.2).2) state

/-- The sets of a state are compiled from the lists of its config. -/
structure Compiled (state : ConfigState Hook Mitm MitmHooks) : Prop where
  deny : compileDenylistGlobset ext.buildsGlob (state.config.deniedDomains.getD []) =
    .ok state.denySet
  allow : compileAllowlistGlobset ext.buildsGlob (state.config.allowedDomains.getD []) =
    .ok state.allowSet

variable {ext brokerEnabled reloader} {state : ConfigState Hook Mitm MitmHooks}

theorem ok_of_mapError {ε ε' α : Type} {f : ε → ε'} {x : Except ε α} {a : α}
    (h : x.mapError f = .ok a) : x = .ok a := by
  cases x with
  | error e => cases h
  | ok b =>
    cases h
    rfl

omit [DecidableEq Hook] in
theorem compiled_of_build {config : NetworkProxyConfig Hook}
    {constraints : NetworkProxyConstraints} (h : buildConfigState ext config constraints = .ok state) :
    Compiled ext state := by
  simp only [buildConfigState, bind_eq_ok] at h
  obtain ⟨_, -, h⟩ := h
  split at h
  · rw [error_bind] at h
    cases h
  · simp only [bind_eq_ok] at h
    obtain ⟨_, -, denySet, hdeny, allowSet, hallow, _, -, _, -, h⟩ := h
    cases h
    exact ⟨ok_of_mapError hdeny, ok_of_mapError hallow⟩

omit [DecidableEq Hook] in
theorem domainRead_cases (normalizedHost : Str) (target : DomainListKind)
    (guard : ConfigState Hook Mitm MitmHooks) :
    (∃ error, domainRead ext normalizedHost target guard = (.done (.error error), guard, none)) ∨
    (settled guard.config.domains normalizedHost target = true ∧
      domainRead ext normalizedHost target guard =
        (.done (.ok .unit), guard, some (.updated normalizedHost target))) ∨
    ∃ newState, buildConfigState ext (guard.config.upsertDomainPermission normalizedHost
        target.permission normalizeHost) guard.constraints = .ok newState ∧
      domainRead ext normalizedHost target guard = (.domainWrite normalizedHost target guard.config
        guard.constraints (newState.keepBlocked guard), guard, none) := by
  unfold domainRead
  dsimp only
  split
  · next hsettled => exact Or.inr (Or.inl ⟨hsettled, rfl⟩)
  · split
    · exact Or.inl ⟨_, rfl⟩
    · split
      · exact Or.inl ⟨_, rfl⟩
      · next newState hbuild => exact Or.inr (Or.inr ⟨newState, hbuild, rfl⟩)

variable (ext brokerEnabled) in
/-- **An update ends in an error, finds nothing to change, or builds the state of its config.** -/
theorem updateAlone_cases (hquiet : reloader.maybeReload = .ok none)
    (state : ConfigState Hook Mitm MitmHooks) (host : Str) (target : DomainListKind) :
    (∃ error, updateAlone ext brokerEnabled reloader state host target =
      (.done (.error error), state)) ∨
    (settled state.config.domains (normalizeHost host) target = true ∧
      updateAlone ext brokerEnabled reloader state host target = (.done (.ok .unit), state)) ∨
    ∃ newState, buildConfigState ext (state.config.upsertDomainPermission (normalizeHost host)
        target.permission normalizeHost) state.constraints = .ok newState ∧
      updateAlone ext brokerEnabled reloader state host target =
        (.done (.ok .unit), newState.keepBlocked state) := by
  unfold updateAlone startUpdate Host.parse
  dsimp only
  by_cases hempty : (normalizeHost host).isEmpty = true
  · rw [if_pos hempty]
    exact Or.inl ⟨_, rfl⟩
  rw [if_neg hempty]
  have hreload : next ext brokerEnabled reloader
      (.maybeReload (.updateDomainList (normalizeHost host) target)) state =
        (.body (.updateDomainList (normalizeHost host) target), state, none) := by
    unfold next maybeReload
    rw [hquiet]
  have hbody : next ext brokerEnabled reloader
      (.body (.updateDomainList (normalizeHost host) target)) state =
        domainRead ext (normalizeHost host) target state := rfl
  simp only [runAlone, hreload, hbody]
  rcases domainRead_cases (normalizeHost host) target state with
    ⟨error, hread⟩ | ⟨hsettled, hread⟩ | ⟨newState, hbuild, hread⟩
  · rw [hread]
    exact Or.inl ⟨error, rfl⟩
  · rw [hread]
    exact Or.inr (Or.inl ⟨hsettled, rfl⟩)
  · rw [hread]
    refine Or.inr (Or.inr ⟨newState, hbuild, ?_⟩)
    unfold next domainWrite
    dsimp only
    rw [if_pos ⟨rfl, rfl⟩]

end

end Codex.NetworkProxy
