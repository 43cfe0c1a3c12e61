import Codex.NetworkProxy.Runtime

/-!
# The books of the running proxy

What the calls on a proxy have committed is kept in a `Ledger`: how many blocked
requests were recorded, which ones since the last drain, and the domain
permissions after the successful updates since the last load. The state of the
proxy should agree with the ledger after every step of every interleaving. Three
operations write back what they read in an earlier step, and `force_reload`
drops the total; `Undisturbed` is what these steps need.
-/

namespace Codex.NetworkProxy

open List Codex.Text

/-! ## The ledger -/

structure Ledger where
  recorded : Nat
  pending : List BlockedRequest
  domains : Option NetworkDomainPermissions

/-- A domain update, run alone. -/
def applyUpdate (domains : Option NetworkDomainPermissions) (normalizedHost : Str)
    (target : DomainListKind) : Option NetworkDomainPermissions :=
  if settled domains normalizedHost target then domains
  else upsertDomain domains normalizedHost target.permission normalizeHost

def Ledger.commit (l : Ledger) : Event → Ledger
  | .recorded entry => { l with recorded := l.recorded + 1, pending := l.pending ++ [entry] }
  | .drained => { l with pending := [] }
  | .updated normalizedHost target =>
    { l with domains := applyUpdate l.domains normalizedHost target }
  | .loaded domains => { l with domains }

/-- The ledger of a proxy that was started with these permissions. -/
def ledger (domains : Option NetworkDomainPermissions) (history : List Event) : Ledger :=
  history.foldl Ledger.commit ⟨0, [], domains⟩

/-- The ledger after a step that may have committed an event. -/
def Ledger.advance (l : Ledger) : Option Event → Ledger
  | some event => l.commit event
  | none => l

theorem ledger_append (domains : Option NetworkDomainPermissions) (history : List Event)
    (event : Option Event) :
    ledger domains (history ++ event.toList) = (ledger domains history).advance event := by
  cases event with
  | none => simp [Ledger.advance]
  | some event => simp [ledger, Ledger.advance]

/-! ## The buffer -/

theorem popFrontWhileOver_eq_rtake {α : Type} (max : Nat) (l : List α) :
    popFrontWhileOver max l = l.rtake max := by
  induction l with
  | nil => simp [popFrontWhileOver, List.rtake]
  | cons entry rest ih =>
    unfold popFrontWhileOver
    split
    · next h =>
      rw [ih, List.rtake, List.rtake]
      rw [length_cons] at h ⊢
      rw [show rest.length + 1 - max = (rest.length - max) + 1 by omega, drop_succ_cons]
    · next h =>
      rw [List.rtake, show (entry :: rest).length - max = 0 by omega, drop_zero]

/-- Trimming after every push keeps the most recent entries. -/
theorem rtake_rtake_append {α : Type} (n : Nat) (l : List α) (entry : α) :
    (l.rtake n ++ [entry]).rtake n = (l ++ [entry]).rtake n := by
  simp only [List.rtake, length_append, length_drop, length_singleton]
  by_cases h : l.length ≤ n
  · rw [show l.length - n = 0 by omega]
    simp
  · rw [show l.length - (l.length - n) + 1 - n = 1 by omega,
      show l.length + 1 - n = (l.length - n) + 1 by omega,
      ← drop_append_of_le_length (by omega), drop_drop]

/-! ## Agreement -/

variable {Hook Mitm MitmHooks : Type}

structure Agrees (guard : ConfigState Hook Mitm MitmHooks) (l : Ledger) : Prop where
  total : guard.blockedTotal = l.recorded
  buffer : guard.blocked = l.pending.rtake maxBlockedEvents
  domains : guard.config.domains = l.domains

/-- The state before a step lets it keep the books: what is written back over the blocked requests
is what the guard holds, and the total is not at its maximum. -/
def Undisturbed (guard : ConfigState Hook Mitm MitmHooks) : Task Hook Mitm MitmHooks → Prop
  | .reloadWrite _ newState =>
    newState.blocked = guard.blocked ∧ newState.blockedTotal = guard.blockedTotal
  | .domainWrite _ _ previousCfg constraints newState =>
    guard.constraints = constraints ∧ guard.config = previousCfg →
      newState.blocked = guard.blocked ∧ newState.blockedTotal = guard.blockedTotal
  | .forceWrite newState => newState.blockedTotal = guard.blockedTotal
  | .body (.recordBlocked _) => guard.blockedTotal < u64Max
  | _ => True

/-- What an update carries to its write lock is the updated config it read. -/
def Prepared : Task Hook Mitm MitmHooks → Prop
  | .domainWrite normalizedHost target previousCfg _ newState =>
    settled previousCfg.domains normalizedHost target = false ∧
      newState.config =
        previousCfg.upsertDomainPermission normalizedHost target.permission normalizeHost
  | _ => True

/-! ## Prepared updates -/

section

variable {ext : Externals Hook Mitm MitmHooks} {brokerEnabled : Bool}

theorem prepared_startUpdate (host : Str) (target : DomainListKind) :
    Prepared (startUpdate host target : Task Hook Mitm MitmHooks) := by
  unfold startUpdate
  split
  · trivial
  · trivial

theorem prepared_start (call : Call Hook Mitm MitmHooks) : Prepared (start call) := by
  cases call with
  | addAllowedDomain host => exact prepared_startUpdate host .allow
  | addDeniedDomain host => exact prepared_startUpdate host .deny
  | _ => trivial

theorem prepared_maybeReload (reloader : Reloader Hook Mitm MitmHooks)
    (op : Op Hook Mitm MitmHooks) : Prepared (maybeReload brokerEnabled reloader op) := by
  unfold maybeReload
  split
  · trivial
  · trivial
  · split
    · trivial
    · trivial

theorem prepared_reloadNow (reloader : Reloader Hook Mitm MitmHooks) :
    Prepared (reloadNow brokerEnabled reloader) := by
  unfold reloadNow
  split
  · trivial
  · split
    · trivial
    · trivial

theorem prepared_modeRead (mode : NetworkMode) (guard : ConfigState Hook Mitm MitmHooks) :
    Prepared (modeRead ext mode guard) := by
  unfold modeRead
  split
  · trivial
  · trivial

theorem prepared_replaceWrite (newState guard : ConfigState Hook Mitm MitmHooks) :
    Prepared (replaceWrite brokerEnabled newState guard).1 := by
  unfold replaceWrite
  split
  · trivial
  · trivial

/-- The candidate that is carried to the write lock was built from the config that was read. -/
theorem prepared_domainRead (normalizedHost : Str) (target : DomainListKind)
    (guard : ConfigState Hook Mitm MitmHooks) :
    Prepared (domainRead ext normalizedHost target guard).1 := by
  unfold domainRead
  split
  · trivial
  · next hsettled =>
    simp only
    split
    · trivial
    · split
      · trivial
      · next newState hbuild =>
        exact ⟨by simpa using hsettled, (buildConfigState_eq_ok hbuild).1⟩

theorem prepared_next [DecidableEq Hook] (reloader : Reloader Hook Mitm MitmHooks)
    (task : Task Hook Mitm MitmHooks) (guard : ConfigState Hook Mitm MitmHooks) :
    Prepared (next ext brokerEnabled reloader task guard).1 := by
  cases task with
  | maybeReload op => exact prepared_maybeReload reloader op
  | reloadRead op newState | reloadWrite op newState | forceRead | forceWrite newState
  | done result => trivial
  | body op =>
    cases op with
    | updateDomainList normalizedHost target => exact prepared_domainRead normalizedHost target guard
    | setNetworkMode mode => exact prepared_modeRead mode guard
    | replaceConfigState newState => exact prepared_replaceWrite newState guard
    | _ => trivial
  | modeWrite mode constraints =>
    simp only [next, modeWrite]
    split
    · trivial
    · trivial
  | domainWrite normalizedHost target previousCfg constraints newState =>
    simp only [next, domainWrite]
    split
    · trivial
    · trivial
  | reloadNow => exact prepared_reloadNow reloader

end

/-! ## One step -/

section

variable {ext : Externals Hook Mitm MitmHooks} {brokerEnabled : Bool}
  {guard newState : ConfigState Hook Mitm MitmHooks} {l : Ledger}

/-- A state that is loaded over the guard keeps the books if it has its blocked requests. -/
theorem agrees_loaded_iff (h : Agrees guard l) (newState : ConfigState Hook Mitm MitmHooks) :
    Agrees newState (l.commit (.loaded newState.config.domains)) ↔
      newState.blocked = guard.blocked ∧ newState.blockedTotal = guard.blockedTotal := by
  rw [h.buffer, h.total]
  exact ⟨fun h' => ⟨h'.buffer, h'.total⟩, fun h' => ⟨h'.2, h'.1, rfl⟩⟩

theorem agrees_recorded_iff (h : Agrees guard l) (entry : BlockedRequest) :
    Agrees (guard.pushBlocked entry) (l.commit (.recorded entry)) ↔
      guard.blockedTotal < u64Max := by
  have htotal := h.total
  constructor
  · intro h'
    have hnew : min (guard.blockedTotal + 1) u64Max = l.recorded + 1 := h'.total
    omega
  · intro hlt
    refine ⟨?_, ?_, h.domains⟩
    · show min (guard.blockedTotal + 1) u64Max = l.recorded + 1
      omega
    · show popFrontWhileOver maxBlockedEvents (guard.blocked ++ [entry]) = _
      rw [popFrontWhileOver_eq_rtake, h.buffer, rtake_rtake_append]
      rfl

/-- An update writes the result of the update alone, over the config that it read. -/
theorem agrees_updated_iff (h : Agrees guard l) {normalizedHost : Str} {target : DomainListKind}
    (hsettled : settled guard.config.domains normalizedHost target = false)
    (hconfig : newState.config = guard.config.upsertDomainPermission normalizedHost
      target.permission normalizeHost) :
    Agrees newState (l.commit (.updated normalizedHost target)) ↔
      newState.blocked = guard.blocked ∧ newState.blockedTotal = guard.blockedTotal := by
  rw [h.buffer, h.total]
  refine ⟨fun h' => ⟨h'.buffer, h'.total⟩, fun h' => ⟨h'.2, h'.1, ?_⟩⟩
  show newState.config.domains = applyUpdate l.domains normalizedHost target
  rw [hconfig, applyUpdate, ← h.domains, hsettled, if_neg (by simp)]
  rfl

/-- An update that changes nothing is committed when it is read. -/
theorem agrees_domainRead (h : Agrees guard l) (normalizedHost : Str) (target : DomainListKind) :
    Agrees (domainRead ext normalizedHost target guard).2.1
      (l.advance (domainRead ext normalizedHost target guard).2.2) := by
  unfold domainRead
  split
  · next hsettled =>
    refine ⟨h.total, h.buffer, ?_⟩
    show guard.config.domains = applyUpdate l.domains normalizedHost target
    rw [applyUpdate, ← h.domains, if_pos hsettled]
  · simp only
    split
    · exact h
    · split
      · exact h
      · exact h

theorem agrees_replaceWrite (h : Agrees guard l) :
    Agrees (replaceWrite brokerEnabled newState guard).2.1
      (l.advance (replaceWrite brokerEnabled newState guard).2.2) := by
  unfold replaceWrite
  split
  · exact h
  · exact (agrees_loaded_iff h (newState.keepBlocked guard)).2 ⟨rfl, rfl⟩

/-- **The step lemma.** From a state that agrees with the ledger, a step leads to one that agrees
exactly when it is undisturbed. -/
theorem agrees_next_iff [DecidableEq Hook] (reloader : Reloader Hook Mitm MitmHooks)
    {task : Task Hook Mitm MitmHooks} (hprepared : Prepared task) (h : Agrees guard l) :
    Agrees (next ext brokerEnabled reloader task guard).2.1
      (l.advance (next ext brokerEnabled reloader task guard).2.2) ↔ Undisturbed guard task := by
  cases task with
  | maybeReload op | reloadRead op newState | forceRead | reloadNow | done result =>
    exact iff_of_true h trivial
  | reloadWrite op newState => exact agrees_loaded_iff h newState
  | body op =>
    cases op with
    | recordBlocked entry => exact agrees_recorded_iff h entry
    | drainBlocked =>
      exact iff_of_true ⟨h.total, (rtake_nil maxBlockedEvents).symm, h.domains⟩ trivial
    | updateDomainList normalizedHost target =>
      exact iff_of_true (agrees_domainRead h normalizedHost target) trivial
    | setNetworkMode mode | query => exact iff_of_true h trivial
    | replaceConfigState newState => exact iff_of_true (agrees_replaceWrite h) trivial
  | modeWrite mode constraints =>
    refine iff_of_true ?_ trivial
    simp only [next, modeWrite]
    split
    · exact ⟨h.total, h.buffer, h.domains⟩
    · exact h
  | domainWrite normalizedHost target previousCfg constraints newState =>
    simp only [next, domainWrite, Undisturbed]
    split
    · next hsame =>
      obtain ⟨rfl, rfl⟩ := hsame
      rw [forall_prop_of_true ⟨rfl, rfl⟩]
      exact agrees_updated_iff h hprepared.1 hprepared.2
    · next hchanged => exact iff_of_true h fun hsame => absurd hsame hchanged
  | forceWrite newState =>
    refine (agrees_loaded_iff h (newState.forceReloaded guard)).trans ?_
    exact and_iff_right rfl

end

/-! ## Runs -/

/-- **The books of every interleaving.** All states of a run agree with the ledger exactly when
all its steps are undisturbed. -/
theorem books_agree_iff_undisturbed [DecidableEq Hook] (ext : Externals Hook Mitm MitmHooks)
    {config : NetworkProxyConfig Hook} {constraints : NetworkProxyConstraints}
    {initial : ConfigState Hook Mitm MitmHooks}
    (hbuild : buildConfigState ext config constraints = .ok initial)
    (moves : List (Move (Call Hook Mitm MitmHooks) (Reloader Hook Mitm MitmHooks))) :
    (∀ pre, pre <+: moves →
      Agrees ((Pool.initial initial).run (proxy ext config.credentialBroker) pre).shared
        (ledger config.domains
          ((Pool.initial initial).run (proxy ext config.credentialBroker) pre).history)) ↔
      (Pool.initial initial).AllMeet (proxy ext config.credentialBroker) Undisturbed moves := by
  obtain ⟨hconfig, -, hblocked, htotal⟩ := buildConfigState_eq_ok hbuild
  refine Pool.agrees_run_iff (T := Prepared)
    (fun guard history => Agrees guard (ledger config.domains history)) ?_
    prepared_start (fun reloader task guard _ => prepared_next reloader task guard) ?_ ?_ moves
  · intro reloader task guard history hprepared hagrees
    rw [ledger_append]
    exact agrees_next_iff reloader hprepared hagrees
  · exact fun task htask => absurd htask not_mem_nil
  · refine ⟨htotal, ?_, congrArg NetworkProxyConfig.domains hconfig⟩
    exact hblocked.trans (rtake_nil maxBlockedEvents).symm

/-! ## Closed runs -/

def freshState : ConfigState Unit Unit Unit :=
  ⟨NetworkProxyConfig.defaults, [], [], none, (), NetworkProxyConstraints.defaults, [], 0⟩

theorem buildConfigState_defaults :
    buildConfigState plainExternals NetworkProxyConfig.defaults NetworkProxyConstraints.defaults =
      .ok freshState := rfl

def blockedExample : BlockedRequest :=
  ⟨"example.com".toList, "not_allowed".toList, none, none, none, "http".toList, none, none, none,
    none, 0⟩

/-- The config did not change; a forced reload builds the same state again. -/
def unchanged : Reloader Unit Unit Unit := ⟨.ok none, .ok freshState⟩

/-- The file was touched: a reload on demand builds the same state again. -/
def touched : Reloader Unit Unit Unit := ⟨.ok (some freshState), .ok freshState⟩

abbrev Moves := List (Move (Call Unit Unit Unit) (Reloader Unit Unit Unit))

/-- One request is recorded. -/
def recordMoves : Moves :=
  [.spawn (.recordBlocked none blockedExample), .run 0 unchanged, .run 0 unchanged]

theorem books_agree_recordMoves :
    Agrees ((Pool.initial freshState).run (proxy plainExternals false) recordMoves).shared
      (ledger none
        ((Pool.initial freshState).run (proxy plainExternals false) recordMoves).history) := by
  refine (books_agree_iff_undisturbed plainExternals buildConfigState_defaults recordMoves).2 ?_
    recordMoves prefix_rfl
  refine ⟨trivial, ?_, ?_, trivial⟩
  · rintro task ⟨⟩
    trivial
  · rintro task ⟨⟩
    show 0 < u64Max
    decide

/-- One request is recorded, and then the config is reloaded by force. -/
def forceMoves : Moves :=
  recordMoves ++ [Move.spawn .forceReload, Move.run 1 unchanged, Move.run 1 unchanged,
    Move.run 1 unchanged]

/-- A request is recorded between the read and the write of a reload on demand. -/
def raceMoves : Moves :=
  [.spawn .query, .run 0 touched, .run 0 touched, .spawn (.recordBlocked none blockedExample),
    .run 1 unchanged, .run 1 unchanged, .run 0 touched]

/-- A forced reload forgets the total, and a reload on demand writes back a buffer and a total from
before the request. -/
theorem recorded_request_lost :
    ((Pool.initial freshState).run (proxy plainExternals false) forceMoves).shared.blockedTotal
        = 0 ∧
      (ledger none ((Pool.initial freshState).run (proxy plainExternals false)
        forceMoves).history).recorded = 1 ∧
      ((Pool.initial freshState).run (proxy plainExternals false) raceMoves).shared.blocked = [] ∧
      (ledger none ((Pool.initial freshState).run (proxy plainExternals false)
        raceMoves).history).pending = [blockedExample] := by
  exact ⟨rfl, rfl, rfl, rfl⟩

end Codex.NetworkProxy
