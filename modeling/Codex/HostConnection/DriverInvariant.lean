import Codex.Base.Log
import Codex.Base.Recent
import Codex.HostConnection.Driver

/-!
# What the driver keeps

Three accounts of a driver. Every sender is in one place: it has been used, it is with a
pending request or a deferred wait, or a handler has it in hand (`Accounts`). Every
admitted cell is live, closed, or in the hand of a handler that is closing it (`Cells`).
Every active call of a delegate was started, and has since been neither answered nor
cancelled, nor has its cell been closed (`Calls`).
-/

namespace Codex.HostConnection

open List Codex.Log Codex.Recent Codex.Text Entries

/-! ## Effects -/

namespace Effect

/-- The caller whose sender is gone with the effect. -/
def settles : Effect → Option Caller
  | .answered caller _ | .unanswered caller | .unhandled caller => some caller
  | _ => none

def admits : Effect → Option CellOwner
  | .admitted owner => some owner
  | _ => none

def closes : Effect → Option CellOwner
  | .cellClosed owner => some owner
  | _ => none

def starts : Effect → Option DelegateRequestId
  | .delegateStarted id _ => some id
  | _ => none

def Starts (id : DelegateRequestId) (cell : CellKey) (effect : Effect) : Prop :=
  effect = .delegateStarted id cell

/-- The call is answered or cancelled, or its cell is closed. -/
def Retires (id : DelegateRequestId) (cell : CellKey) : Effect → Prop
  | .sent (.delegateResponse id' _) => id' = id
  | .delegateCancelled id' => id' = id
  | .cellClosed owner => owner.key = cell
  | _ => False

/-- An answer to the host is due to a call that was started, and that has since been neither
answered nor cancelled, nor has its cell been closed. -/
def Due (before : List Effect) : Effect → Prop
  | .sent (.delegateResponse id _) => ∃ cell, Since (Starts id cell) (Retires id cell) before
  | _ => True

/-- An effect that none of the accounts sees. -/
structure Neutral (effect : Effect) : Prop where
  settles : effect.settles = none
  admits : effect.admits = none
  closes : effect.closes = none
  starts : effect.starts = none
  retires : ∀ id cell, ¬ effect.Retires id cell

theorem Neutral.due {effect : Effect} (h : effect.Neutral) (before : List Effect) :
    effect.Due before := by
  unfold Due
  split
  · next id _ => exact (h.retires id ⟨[], []⟩ rfl).elim
  · trivial

theorem neutral_request (id : RequestId) (request : HostRequest) :
    (sent (.request id request)).Neutral := ⟨rfl, rfl, rfl, rfl, nofun⟩

theorem neutral_cancelRequest (id : RequestId) : (sent (.cancelRequest id)).Neutral :=
  ⟨rfl, rfl, rfl, rfl, nofun⟩

theorem neutral_initialAnswered (id : RequestId) (response : Except Str RuntimeResponse) :
    (initialAnswered id response).Neutral := ⟨rfl, rfl, rfl, rfl, nofun⟩

theorem neutral_cleanedUp (cleanup : SessionCleanup) : (cleanedUp cleanup).Neutral :=
  ⟨rfl, rfl, rfl, rfl, nofun⟩

end Effect

/-! ## The accounts -/

/-- What the accounts see of a pending request. -/
def PendingRequest.identity (entry : RequestId × PendingRequest) :
    RequestId × Caller × Option SessionId :=
  (entry.1, entry.2.responseTx, entry.2.opens)

def liveCells (sessions : SessionRegistry) : List CellOwner :=
  sessions.flatMap fun (sessionId, record) => record.owners sessionId

namespace ConnectionDriver

def settled (s : ConnectionDriver) : List Caller := s.effects.filterMap Effect.settles

def senders (s : ConnectionDriver) : List Caller :=
  s.requests.pending.map (·.2.responseTx) ++ s.requests.deferredWaits.map (·.responseTx)

/-- The sessions that are open or being opened. -/
def opening (s : ConnectionDriver) : List SessionId :=
  s.requests.pending.filterMap (·.2.opens) ++ s.sessions.map Prod.fst

def started (s : ConnectionDriver) : List DelegateRequestId := s.effects.filterMap Effect.starts

structure Accounts (hand : List Caller) (s : ConnectionDriver) : Prop where
  perm : (s.settled ++ s.senders ++ hand).Perm (List.range s.nextCaller)
  excused : ∀ caller, .unanswered caller ∈ s.effects → caller ∈ s.cancelled ∨ caller ∈ s.dropped
  keys_nodup : (s.requests.pending.map Prod.fst).Nodup
  keys_lt : ∀ id ∈ s.requests.pending.map Prod.fst, id < s.requests.nextRequestId
  taken_lt : ∀ caller ∈ s.taken, caller < s.nextCaller

structure Cells (owners : List CellOwner) (s : ConnectionDriver) : Prop where
  perm : (s.effects.filterMap Effect.closes ++ liveCells s.sessions ++ owners).Perm
    (s.effects.filterMap Effect.admits)
  opening_nodup : s.opening.Nodup
  cells_nodup : ∀ entry ∈ s.sessions, (entry.2.cells.map Prod.fst).Nodup

structure Calls (owners : List CellOwner) (s : ConnectionDriver) : Prop where
  keys_nodup : (s.delegates.calls.map Prod.fst).Nodup
  active : ∀ call ∈ s.delegates.calls,
    Since (Effect.Starts call.1 call.2) (Effect.Retires call.1 call.2) s.effects
  revoked : ∀ owner ∈ owners, ∀ call ∈ s.delegates.calls, call.2 ≠ owner.key
  due : Justified Effect.Due s.effects
  order_eq : s.delegates.requestOrder = s.started.rtake maxRecentDelegateRequestIds
  order_nodup : s.delegates.requestOrder.Nodup
  seen_iff : ∀ id, id ∈ s.delegates.seenRequests ↔ id ∈ s.delegates.requestOrder
  spaced : Spaced maxRecentDelegateRequestIds s.started

/-- The accounts of a driver whose handler has the senders `hand` and the cells `owners` in hand. -/
structure Kept (hand : List Caller) (owners : List CellOwner) (s : ConnectionDriver) : Prop where
  accounts : s.Accounts hand
  cells : s.Cells owners
  calls : s.Calls owners

structure Drained (s : ConnectionDriver) : Prop where
  pending : s.requests.pending = []
  deferredWaits : s.requests.deferredWaits = []
  sessions : s.sessions = []

/-- A driver that has failed has nothing left. -/
structure Sound (hand : List Caller) (s : ConnectionDriver) : Prop extends s.Kept hand [] where
  drained : s.failed = true → s.Drained

structure Live (hand : List Caller) (s : ConnectionDriver) : Prop extends s.Kept hand [] where
  notFailed : s.failed = false

variable {s t : ConnectionDriver} {hand : List Caller} {owners : List CellOwner} {caller : Caller}
  {effect : Effect}

theorem Live.sound (h : s.Live hand) : s.Sound hand where
  toKept := h.toKept
  drained hfailed := by
    rw [h.notFailed] at hfailed
    cases hfailed

theorem perm_of_hand {α : Type} {used kept hand : List α} {a : α} :
    (used ++ [a] ++ kept ++ hand).Perm (used ++ kept ++ a :: hand) := by
  rw [List.append_assoc, List.append_assoc, List.append_assoc]
  refine List.Perm.append_left used ?_
  rw [singleton_append]
  exact perm_middle.symm

theorem perm_right_comm {α : Type} (l₁ l₂ l₃ : List α) : (l₁ ++ l₂ ++ l₃).Perm (l₁ ++ l₃ ++ l₂) := by
  rw [List.append_assoc, List.append_assoc]
  exact List.Perm.append_left l₁ perm_append_comm

/-! ## Changes around the driver -/

/-- From `s` to `t` only the surroundings change, and no caller comes back. -/
structure Around (s t : ConnectionDriver) : Prop where
  requests : t.requests = s.requests
  sessions : t.sessions = s.sessions
  delegates : t.delegates = s.delegates
  failed : t.failed = s.failed
  nextCaller : t.nextCaller = s.nextCaller
  taken : t.taken = s.taken
  effects : t.effects = s.effects
  cancelled : s.cancelled ⊆ t.cancelled
  dropped : s.dropped ⊆ t.dropped

theorem Around.refl (s : ConnectionDriver) : s.Around s :=
  ⟨rfl, rfl, rfl, rfl, rfl, rfl, rfl, fun _ h => h, fun _ h => h⟩

theorem Around.trans {u : ConnectionDriver} (h : s.Around t) (h' : t.Around u) : s.Around u :=
  ⟨h'.requests.trans h.requests, h'.sessions.trans h.sessions, h'.delegates.trans h.delegates,
    h'.failed.trans h.failed, h'.nextCaller.trans h.nextCaller, h'.taken.trans h.taken,
    h'.effects.trans h.effects, fun _ hmem => h'.cancelled (h.cancelled hmem),
    fun _ hmem => h'.dropped (h.dropped hmem)⟩

theorem around_move (s : ConnectionDriver) (move : CallerMove) : s.Around (s.move move) := by
  cases move with
  | cancel caller =>
    exact ⟨rfl, rfl, rfl, rfl, rfl, rfl, rfl, subset_cons_self _ _, fun _ h => h⟩
  | dropReceiver caller =>
    exact ⟨rfl, rfl, rfl, rfl, rfl, rfl, rfl, fun _ h => h, subset_cons_self _ _⟩
  | markDead reason => exact ⟨rfl, rfl, rfl, rfl, rfl, rfl, rfl, fun _ h => h, fun _ h => h⟩

theorem around_moves (s : ConnectionDriver) (moves : List CallerMove) :
    s.Around (moves.foldl ConnectionDriver.move s) := by
  induction moves generalizing s with
  | nil => exact Around.refl s
  | cons move moves ih => exact (around_move s move).trans (ih _)

theorem around_look (s : ConnectionDriver) : s.Around s.look := by
  have h := around_moves s (s.world.moves.head?.getD [])
  exact ⟨h.requests, h.sessions, h.delegates, h.failed, h.nextCaller, h.taken, h.effects,
    h.cancelled, h.dropped⟩

theorem Accounts.around (h : s.Accounts hand) (hst : s.Around t) : t.Accounts hand := by
  constructor
  · unfold settled senders
    rw [hst.effects, hst.requests, hst.nextCaller]
    exact h.perm
  · intro caller hmem
    rw [hst.effects] at hmem
    exact (h.excused caller hmem).imp (fun h => hst.cancelled h) fun h => hst.dropped h
  · rw [hst.requests]
    exact h.keys_nodup
  · rw [hst.requests]
    exact h.keys_lt
  · rw [hst.taken, hst.nextCaller]
    exact h.taken_lt

theorem Cells.around (h : s.Cells owners) (hst : s.Around t) : t.Cells owners := by
  constructor
  · rw [hst.effects, hst.sessions]
    exact h.perm
  · unfold opening
    rw [hst.requests, hst.sessions]
    exact h.opening_nodup
  · rw [hst.sessions]
    exact h.cells_nodup

theorem Calls.around (h : s.Calls owners) (hst : s.Around t) : t.Calls owners := by
  constructor
  · rw [hst.delegates]
    exact h.keys_nodup
  · rw [hst.delegates, hst.effects]
    exact h.active
  · rw [hst.delegates]
    exact h.revoked
  · rw [hst.effects]
    exact h.due
  · unfold started
    rw [hst.delegates, hst.effects]
    exact h.order_eq
  · rw [hst.delegates]
    exact h.order_nodup
  · rw [hst.delegates]
    exact h.seen_iff
  · unfold started
    rw [hst.effects]
    exact h.spaced

theorem Kept.around (h : s.Kept hand owners) (hst : s.Around t) : t.Kept hand owners :=
  ⟨h.accounts.around hst, h.cells.around hst, h.calls.around hst⟩

theorem Live.around (h : s.Live hand) (hst : s.Around t) : t.Live hand :=
  ⟨h.toKept.around hst, hst.failed.trans h.notFailed⟩

/-! ## Logging -/

theorem Accounts.log (h : s.Accounts hand) (heffect : effect.settles = none) :
    (s.log effect).Accounts hand := by
  constructor
  · have hsettled : (s.log effect).settled = s.settled := by
      unfold settled ConnectionDriver.log
      simp [heffect]
    rw [hsettled]
    exact h.perm
  · intro caller hmem
    rcases mem_append.1 hmem with hmem | hmem
    · exact h.excused caller hmem
    · rw [← mem_singleton.1 hmem] at heffect
      cases heffect
  · exact h.keys_nodup
  · exact h.keys_lt
  · exact h.taken_lt

/-- A sender in hand is used. -/
theorem Accounts.settle (h : s.Accounts (caller :: hand)) (heffect : effect.settles = some caller)
    (hexcused : effect = .unanswered caller → caller ∈ s.cancelled ∨ caller ∈ s.dropped) :
    (s.log effect).Accounts hand := by
  constructor
  · have hsettled : (s.log effect).settled = s.settled ++ [caller] := by
      unfold settled ConnectionDriver.log
      simp [heffect]
    rw [hsettled]
    exact perm_of_hand.trans h.perm
  · intro caller' hmem
    rcases mem_append.1 hmem with hmem | hmem
    · exact h.excused caller' hmem
    · rw [← mem_singleton.1 hmem] at heffect hexcused
      cases heffect
      exact hexcused rfl
  · exact h.keys_nodup
  · exact h.keys_lt
  · exact h.taken_lt

theorem Cells.log (h : s.Cells owners) (hadmits : effect.admits = none)
    (hcloses : effect.closes = none) : (s.log effect).Cells owners := by
  refine ⟨?_, h.opening_nodup, h.cells_nodup⟩
  unfold ConnectionDriver.log
  simp only [filterMap_append, filterMap_cons, hadmits, hcloses, filterMap_nil,
    append_nil]
  exact h.perm

theorem Calls.log (h : s.Calls owners) (hstarts : effect.starts = none)
    (hretires : ∀ call ∈ s.delegates.calls, ¬ effect.Retires call.1 call.2)
    (hdue : effect.Due s.effects) : (s.log effect).Calls owners := by
  have hstarted : (s.log effect).started = s.started := by
    unfold started ConnectionDriver.log
    simp [hstarts]
  refine ⟨h.keys_nodup, fun call hcall => (h.active call hcall).concat (hretires call hcall),
    h.revoked, h.due.concat hdue, ?_, h.order_nodup, h.seen_iff, ?_⟩
  · rw [hstarted]
    exact h.order_eq
  · rw [hstarted]
    exact h.spaced

theorem Kept.log (h : s.Kept hand owners) (heffect : effect.Neutral) :
    (s.log effect).Kept hand owners :=
  ⟨h.accounts.log heffect.settles, h.cells.log heffect.admits heffect.closes,
    h.calls.log heffect.starts (fun call _ => heffect.retires call.1 call.2) (heffect.due _)⟩

theorem Kept.answered (h : s.Kept (caller :: hand) owners) (answer : Answer) :
    (s.log (.answered caller answer)).Kept hand owners :=
  ⟨h.accounts.settle rfl nofun, h.cells.log rfl rfl, h.calls.log rfl (fun _ _ => id) trivial⟩

theorem Kept.unanswered (h : s.Kept (caller :: hand) owners)
    (hexcused : caller ∈ s.cancelled ∨ caller ∈ s.dropped) :
    (s.log (.unanswered caller)).Kept hand owners :=
  ⟨h.accounts.settle rfl fun _ => hexcused, h.cells.log rfl rfl,
    h.calls.log rfl (fun _ _ => id) trivial⟩

theorem Kept.unhandled (h : s.Kept (caller :: hand) owners) :
    (s.log (.unhandled caller)).Kept hand owners :=
  ⟨h.accounts.settle rfl nofun, h.cells.log rfl rfl, h.calls.log rfl (fun _ _ => id) trivial⟩

variable {owner : CellOwner} {pending pending' : List (RequestId × PendingRequest)}
  {sessions : SessionRegistry} {sessionId : SessionId} {record : SessionRecord}
  {cellId : WireCellId} {id : DelegateRequestId}

/-- The delegate of a cell in hand is told that it is closed. -/
theorem Kept.closed (h : s.Kept hand (owner :: owners)) :
    (s.log (.cellClosed owner)).Kept hand owners := by
  refine ⟨h.accounts.log rfl, ⟨?_, h.cells.opening_nodup, h.cells.cells_nodup⟩, ?_⟩
  · unfold ConnectionDriver.log
    simp only [filterMap_append, filterMap_cons, Effect.closes, Effect.admits,
      filterMap_nil, append_nil]
    exact perm_of_hand.trans h.cells.perm
  · have hcalls : s.Calls owners :=
      { h.calls with revoked := fun owner' hmem => h.calls.revoked owner' (.tail _ hmem) }
    refine hcalls.log rfl (fun call hcall hretires => ?_) trivial
    exact h.calls.revoked owner mem_cons_self call hcall hretires.symm

/-! ## Requests -/

theorem keys_eq_of_identity
    (h : pending'.map PendingRequest.identity = pending.map PendingRequest.identity) :
    pending'.map Prod.fst = pending.map Prod.fst := by
  have hmap := congrArg (List.map Prod.fst) h
  rw [map_map, map_map] at hmap
  exact hmap

theorem senders_eq_of_identity
    (h : pending'.map PendingRequest.identity = pending.map PendingRequest.identity) :
    pending'.map (·.2.responseTx) = pending.map (·.2.responseTx) := by
  have hmap := congrArg (List.map fun entry => entry.2.1) h
  rw [map_map, map_map] at hmap
  exact hmap

theorem opens_eq_of_identity
    (h : pending'.map PendingRequest.identity = pending.map PendingRequest.identity) :
    pending'.filterMap (·.2.opens) = pending.filterMap (·.2.opens) := by
  have hmap := congrArg (List.filterMap fun entry => entry.2.2) h
  rw [filterMap_map, filterMap_map] at hmap
  exact hmap

/-- A change of the requests moves senders between them and the hand. -/
theorem Kept.withRequests {requests : RequestTracker} {hand' : List Caller} (h : s.Kept hand owners)
    (hsenders : (senders { s with requests } ++ hand').Perm (s.senders ++ hand))
    (hkeys : (requests.pending.map Prod.fst).Nodup)
    (hlt : ∀ id ∈ requests.pending.map Prod.fst, id < requests.nextRequestId)
    (hopening : (opening { s with requests }).Nodup) : Kept hand' owners { s with requests } := by
  refine ⟨⟨?_, h.accounts.excused, hkeys, hlt, h.accounts.taken_lt⟩,
    ⟨h.cells.perm, hopening, h.cells.cells_nodup⟩, { h.calls with }⟩
  have hperm := h.accounts.perm
  rw [List.append_assoc] at hperm ⊢
  exact (hsenders.append_left s.settled).trans hperm

/-- A change of the requests that leaves the senders where they are. -/
theorem Kept.setRequests {requests : RequestTracker} (h : s.Kept hand owners)
    (hpending : requests.pending.map PendingRequest.identity =
      s.requests.pending.map PendingRequest.identity)
    (hdeferred : requests.deferredWaits = s.requests.deferredWaits)
    (hnext : s.requests.nextRequestId ≤ requests.nextRequestId) :
    Kept hand owners { s with requests } := by
  have hkeys := keys_eq_of_identity hpending
  refine h.withRequests (List.Perm.of_eq ?_) (hkeys ▸ h.accounts.keys_nodup) ?_ ?_
  · unfold senders
    rw [senders_eq_of_identity hpending, hdeferred]
  · exact fun id hid => Int.lt_of_lt_of_le (h.accounts.keys_lt id (hkeys ▸ hid)) hnext
  · unfold opening
    rw [opens_eq_of_identity hpending]
    exact h.cells.opening_nodup

/-- The session that the request opens is neither open nor being opened. -/
def Opens (s : ConnectionDriver) (pending : PendingRequest) : Prop :=
  ∀ sessionId, pending.opens = some sessionId → sessionId ∉ s.opening

theorem Kept.insertPending {id : RequestId} {pending : PendingRequest}
    (h : s.Kept (pending.responseTx :: hand) owners) (hid : id ∉ s.requests.pending.map Prod.fst)
    (hlt : id < s.requests.nextRequestId) (hopens : s.Opens pending) :
    Kept hand owners { s with requests :=
      { s.requests with pending := Entries.insert id pending s.requests.pending } } := by
  have hinsert : Entries.insert id pending s.requests.pending =
      s.requests.pending ++ [(id, pending)] := insert_of_notMem hid
  rw [hinsert]
  refine h.withRequests ?_ ?_ ?_ ?_
  · unfold senders
    rw [map_append]
    exact perm_of_hand
  · rw [map_append]
    exact List.Nodup.append h.accounts.keys_nodup (nodup_singleton id)
      (disjoint_singleton.2 hid)
  · intro id' hid'
    rw [map_append, mem_append] at hid'
    rcases hid' with hid' | hid'
    · exact h.accounts.keys_lt id' hid'
    · rw [mem_singleton.1 hid']
      exact hlt
  · show ((s.requests.pending ++ [(id, pending)]).filterMap (·.2.opens) ++
      s.sessions.map Prod.fst).Nodup
    rw [filterMap_append]
    cases hopen : pending.opens with
    | none =>
      rw [filterMap_cons, hopen, filterMap_nil, append_nil]
      exact h.cells.opening_nodup
    | some sessionId =>
      rw [filterMap_cons, hopen, filterMap_nil, List.append_assoc, singleton_append]
      exact nodup_middle.2 (nodup_cons.2 ⟨hopens sessionId hopen, h.cells.opening_nodup⟩)

/-- The handler takes a pending request out. -/
theorem Kept.removePending {id : RequestId} {pending : PendingRequest} (h : s.Kept hand owners)
    (hget : get? id s.requests.pending = some pending) :
    Kept (pending.responseTx :: hand) owners { s with requests :=
      { s.requests with pending := Entries.remove id s.requests.pending } } ∧
    Opens { s with requests :=
      { s.requests with pending := Entries.remove id s.requests.pending } } pending := by
  have hperm := perm_of_get? h.accounts.keys_nodup hget
  have hopening : s.opening.Perm (pending.opens.toList ++
      opening { s with requests :=
        { s.requests with pending := Entries.remove id s.requests.pending } }) := by
    refine ((hperm.filterMap _).append_right _).trans (List.Perm.of_eq ?_)
    unfold opening
    rw [← List.append_assoc]
    cases hopens : pending.opens <;> simp [hopens]
  have hnodup := hopening.nodup_iff.1 h.cells.opening_nodup
  refine ⟨h.withRequests ?_ ?_ ?_ hnodup.of_append_right, ?_⟩
  · have hsenders : s.senders.Perm (pending.responseTx ::
        senders { s with requests :=
          { s.requests with pending := Entries.remove id s.requests.pending } }) :=
      (hperm.map _).append_right _
    exact perm_middle.trans (hsenders.symm.append_right hand)
  · exact keys_remove_nodup h.accounts.keys_nodup
  · intro id' hid'
    obtain ⟨entry, hentry, rfl⟩ := mem_map.1 hid'
    exact h.accounts.keys_lt _ (mem_map_of_mem (mem_remove hentry))
  · intro sessionId hopens hmem
    rw [hopens] at hnodup
    exact (nodup_cons.1 hnodup).1 hmem

/-- The handler takes all senders of the tracker. -/
theorem Kept.takeRequests {requests : RequestTracker} (h : s.Kept hand owners)
    (hpending : requests.pending = []) (hdeferred : requests.deferredWaits = []) :
    Kept (s.senders ++ hand) owners { s with requests } := by
  refine h.withRequests (List.Perm.of_eq ?_) ?_ ?_ ?_
  · unfold senders
    rw [hpending, hdeferred]
    rfl
  · rw [hpending]
    exact nodup_nil
  · rw [hpending]
    rintro id ⟨⟩
  · unfold opening
    rw [hpending]
    exact h.cells.opening_nodup.of_append_right

theorem Kept.takeDeferred (h : s.Kept hand owners) :
    Kept (s.requests.deferredWaits.map (·.responseTx) ++ hand) owners
      { s with requests := { s.requests with deferredWaits := [] } } := by
  refine h.withRequests (List.Perm.of_eq ?_) h.accounts.keys_nodup h.accounts.keys_lt
    h.cells.opening_nodup
  unfold senders
  simp only [map_nil, append_nil, List.append_assoc]

theorem Kept.pushDeferred {wait : DeferredWait} (h : s.Kept (wait.responseTx :: hand) owners) :
    Kept hand owners { s with requests :=
      { s.requests with deferredWaits := s.requests.deferredWaits ++ [wait] } } := by
  refine h.withRequests (List.Perm.of_eq ?_) h.accounts.keys_nodup h.accounts.keys_lt
    h.cells.opening_nodup
  unfold senders
  simp only [map_append, map_cons, map_nil, List.append_assoc, singleton_append]

/-- A new sender comes into the hand. -/
theorem Kept.newCaller {taken dropped : List Caller} (h : s.Kept hand owners)
    (htaken : ∀ caller ∈ taken, caller ∈ s.taken ∨ caller = s.nextCaller)
    (hdropped : s.dropped ⊆ dropped) :
    Kept (s.nextCaller :: hand) owners
      { s with nextCaller := s.nextCaller + 1, taken, dropped } := by
  refine ⟨⟨?_, fun caller hmem => (h.accounts.excused caller hmem).imp_right fun h => hdropped h,
    h.accounts.keys_nodup, h.accounts.keys_lt, ?_⟩,
    ⟨h.cells.perm, h.cells.opening_nodup, h.cells.cells_nodup⟩, { h.calls with }⟩
  · show (s.settled ++ s.senders ++ s.nextCaller :: hand).Perm (List.range (s.nextCaller + 1))
    rw [range_succ]
    refine perm_middle.trans ((List.Perm.cons _ h.accounts.perm).trans ?_)
    exact (perm_append_singleton _ _).symm
  · intro caller hmem
    show caller < s.nextCaller + 1
    rcases htaken caller hmem with hmem | rfl
    · exact Nat.lt_succ_of_lt (h.accounts.taken_lt caller hmem)
    · exact Nat.lt_succ_self _

/-! ## Sessions -/

theorem perm_liveCells (hnodup : (sessions.map Prod.fst).Nodup)
    (hget : get? sessionId sessions = some record) : (liveCells sessions).Perm
      (record.owners sessionId ++ liveCells (Entries.remove sessionId sessions)) :=
  (perm_of_get? hnodup hget).flatMap_right _

theorem perm_liveCells_insert (hnodup : (sessions.map Prod.fst).Nodup) (sessionId : SessionId)
    (record : SessionRecord) : (liveCells (Entries.insert sessionId record sessions)).Perm
      (record.owners sessionId ++ liveCells (Entries.remove sessionId sessions)) :=
  (perm_insert hnodup).flatMap_right _

theorem Cells.sessions_nodup (h : s.Cells owners) : (s.sessions.map Prod.fst).Nodup :=
  h.opening_nodup.of_append_right

/-- A record gets other cells, which come from the hand or go into it. -/
theorem Cells.setRecord {record' : SessionRecord} {owners' : List CellOwner} (h : s.Cells owners)
    (hget : get? sessionId s.sessions = some record)
    (howners : (record'.owners sessionId ++ owners').Perm (record.owners sessionId ++ owners))
    (hcells : (record'.cells.map Prod.fst).Nodup) :
    Cells owners' { s with sessions := Entries.insert sessionId record' s.sessions } := by
  refine ⟨?_, ?_, ?_⟩
  · refine List.Perm.trans ?_ h.perm
    rw [List.append_assoc, List.append_assoc]
    refine List.Perm.append_left _ ?_
    have hnew := (perm_liveCells_insert h.sessions_nodup sessionId record').append_right owners'
    have hold := (perm_liveCells h.sessions_nodup hget).append_right owners
    refine hnew.trans (List.Perm.trans ?_ hold.symm)
    refine (perm_right_comm _ _ _).trans (List.Perm.trans ?_ (perm_right_comm _ _ _))
    exact List.Perm.append_right _ howners
  · show (s.requests.pending.filterMap (·.2.opens) ++
      (Entries.insert sessionId record' s.sessions).map Prod.fst).Nodup
    rw [keys_insert_of_some hget]
    exact h.opening_nodup
  · intro entry hentry
    rcases mem_insert hentry with rfl | hentry
    · exact hcells
    · exact h.cells_nodup entry hentry

theorem Kept.setClosing (h : s.Kept hand owners)
    (hget : get? sessionId s.sessions = some record) : Kept hand owners
      { s with sessions := SessionRegistry.setClosing s.sessions sessionId record } :=
  ⟨{ h.accounts with }, h.cells.setRecord hget (List.Perm.refl _)
    (h.cells.cells_nodup _ (mem_of_get? hget)), { h.calls with }⟩

theorem Kept.insertReady {session : RemoteSession} (h : s.Kept hand owners)
    (hsession : session.id ∉ s.opening) (hrecord : record.cells = []) :
    Kept hand owners { s with sessions := Entries.insert session.id record s.sessions } := by
  have hmem : session.id ∉ s.sessions.map Prod.fst :=
    fun hmem => hsession (mem_append_right _ hmem)
  rw [insert_of_notMem hmem]
  refine ⟨⟨h.accounts.perm, h.accounts.excused, h.accounts.keys_nodup, h.accounts.keys_lt,
    h.accounts.taken_lt⟩, ⟨?_, ?_, ?_⟩, { h.calls with }⟩
  · have hlive : liveCells (s.sessions ++ [(session.id, record)]) = liveCells s.sessions := by
      unfold liveCells SessionRecord.owners
      simp [hrecord]
    show (_ ++ liveCells (s.sessions ++ [(session.id, record)]) ++ owners).Perm _
    rw [hlive]
    exact h.cells.perm
  · show (s.requests.pending.filterMap (·.2.opens) ++
      (s.sessions ++ [(session.id, record)]).map Prod.fst).Nodup
    rw [map_append, ← List.append_assoc]
    exact List.Nodup.append h.cells.opening_nodup (nodup_singleton _)
      (disjoint_singleton.2 hsession)
  · intro entry hentry
    rcases mem_append.1 hentry with hentry | hentry
    · exact h.cells.cells_nodup entry hentry
    · rw [mem_singleton.1 hentry, hrecord]
      exact nodup_nil

theorem owners_concat {publicId : CellId} (hnone : get? cellId record.cells = none) :
    SessionRecord.owners sessionId
      { record with cells := Entries.insert cellId publicId record.cells } =
      record.owners sessionId ++ [⟨sessionId, publicId, record.delegate⟩] := by
  unfold SessionRecord.owners
  rw [insert_of_notMem (get?_eq_none.1 hnone), map_append]
  rfl

/-- A cell is admitted: it is in hand until its record has it. -/
theorem Kept.admitted {session : RemoteSession} (h : s.Kept hand owners)
    (hadmitted : SessionRegistry.admitCell s.sessions session cellId = .ok (owner, sessions)) :
    Kept hand owners (ConnectionDriver.log { s with sessions } (.admitted owner)) := by
  unfold SessionRegistry.admitCell at hadmitted
  split at hadmitted
  · cases hadmitted
  · next record hget =>
    split at hadmitted
    · cases hadmitted
    · next hnone =>
      cases hadmitted
      rw [Bool.not_eq_true, Option.isSome_eq_false_iff, Option.isNone_iff_eq_none] at hnone
      have hlogged : (s.log (.admitted ⟨session.id, publicCellId session.generation cellId,
          record.delegate⟩)).Cells
          (⟨session.id, publicCellId session.generation cellId, record.delegate⟩ :: owners) := by
        refine ⟨?_, h.cells.opening_nodup, h.cells.cells_nodup⟩
        unfold ConnectionDriver.log
        simp only [filterMap_append, filterMap_cons, Effect.closes, Effect.admits,
          filterMap_nil, append_nil]
        exact perm_middle.trans
          ((h.cells.perm.cons _).trans (perm_append_singleton _ _).symm)
      have haccounts : (s.log (.admitted ⟨session.id, publicCellId session.generation cellId,
          record.delegate⟩)).Accounts hand := h.accounts.log rfl
      have hcalls : (s.log (.admitted ⟨session.id, publicCellId session.generation cellId,
          record.delegate⟩)).Calls owners := h.calls.log rfl (fun _ _ => id) trivial
      refine ⟨{ haccounts with }, hlogged.setRecord hget ?_ ?_, { hcalls with }⟩
      · rw [owners_concat hnone, List.append_assoc]
        rfl
      · exact keys_insert_nodup (h.cells.cells_nodup _ (mem_of_get? hget))

theorem owners_remove {publicId : CellId} (sessionId : SessionId)
    (hnodup : (record.cells.map Prod.fst).Nodup)
    (hget : get? cellId record.cells = some publicId) :
    (record.owners sessionId).Perm (⟨sessionId, publicId, record.delegate⟩ ::
      SessionRecord.owners sessionId
        { record with cells := Entries.remove cellId record.cells }) :=
  (perm_of_get? hnodup hget).map _

/-- Calls are revoked, among them those of the cells that come into the hand. -/
theorem Calls.revoke {calls : List (DelegateRequestId × CellKey)} {owners' : List CellOwner}
    (h : s.Calls owners) (hcalls : calls.Sublist s.delegates.calls)
    (hrevoked : ∀ owner ∈ owners', ∀ call ∈ calls, call.2 ≠ owner.key) :
    Calls owners' { s with delegates := { s.delegates with calls } } where
  keys_nodup := h.keys_nodup.sublist (hcalls.map Prod.fst)
  active call hcall := h.active call (hcalls.subset hcall)
  revoked := hrevoked
  due := h.due
  order_eq := h.order_eq
  order_nodup := h.order_nodup
  seen_iff := h.seen_iff
  spaced := h.spaced

theorem Calls.closeCells (h : s.Calls owners) (owners' : List CellOwner) :
    Calls owners' { s with delegates := owners'.foldl DelegateRuntime.closeCell s.delegates } := by
  have hfold : ∀ (l : List CellOwner) (delegates : DelegateRuntime),
      ∃ calls, l.foldl DelegateRuntime.closeCell delegates = { delegates with calls } ∧
        calls.Sublist delegates.calls ∧ ∀ owner ∈ l, ∀ call ∈ calls, call.2 ≠ owner.key := by
    intro l
    induction l with
    | nil => exact fun delegates => ⟨delegates.calls, rfl, List.Sublist.refl _, nofun⟩
    | cons owner l ih =>
      intro delegates
      obtain ⟨calls, heq, hsub, hrevoked⟩ := ih (delegates.closeCell owner)
      refine ⟨calls, heq, hsub.trans filter_sublist, ?_⟩
      intro owner' howner call hcall
      rcases mem_cons.1 howner with rfl | howner
      · have hmem := (mem_filter.1 (hsub.subset hcall)).2
        exact of_decide_eq_true hmem
      · exact hrevoked owner' howner call hcall
  obtain ⟨calls, heq, hsub, hrevoked⟩ := hfold owners' s.delegates
  rw [heq]
  exact h.revoke hsub hrevoked

/-- A cell is taken out of its record, and its calls are revoked. -/
theorem Kept.removeCell (h : s.Kept hand [])
    (hremove : SessionRegistry.removeCell s.sessions sessionId cellId = .ok (owner, sessions)) :
    Kept hand [owner] { s with sessions, delegates := s.delegates.closeCell owner } := by
  unfold SessionRegistry.removeCell at hremove
  split at hremove
  · cases hremove
  · next record hget =>
    split at hremove
    · cases hremove
    · next publicId hcell =>
      cases hremove
      have hnodup := h.cells.cells_nodup _ (mem_of_get? hget)
      have howners := (owners_remove sessionId hnodup hcell).trans
        (perm_append_singleton _ _).symm
      have hcells := h.cells.setRecord hget
        (howners.symm.trans (List.Perm.of_eq (append_nil _).symm))
        (keys_remove_nodup hnodup)
      exact ⟨{ h.accounts with }, { hcells with }, { h.calls.closeCells [_] with }⟩

/-- A session is removed, and the calls of its cells are revoked. -/
theorem Kept.removeSession (h : s.Kept hand []) (sessionId : SessionId) :
    Kept hand (SessionRegistry.removeSession s.sessions sessionId).1
      { s with
        sessions := (SessionRegistry.removeSession s.sessions sessionId).2
        delegates := (SessionRegistry.removeSession s.sessions sessionId).1.foldl
          DelegateRuntime.closeCell s.delegates } := by
  unfold SessionRegistry.removeSession
  split
  · exact h
  · next record hget =>
    refine ⟨{ h.accounts with }, ⟨?_, ?_, ?_⟩, { h.calls.closeCells _ with }⟩
    · refine List.Perm.trans ?_ h.cells.perm
      rw [append_nil, List.append_assoc]
      refine List.Perm.append_left _ ?_
      exact perm_append_comm.trans (perm_liveCells h.cells.sessions_nodup hget).symm
    · refine h.cells.opening_nodup.sublist (List.Sublist.append_left ?_ _)
      exact (remove_sublist).map Prod.fst
    · exact fun entry hentry => h.cells.cells_nodup entry (mem_remove hentry)

/-- All sessions are drained, and all calls are revoked. -/
theorem Kept.drain (h : s.Kept hand []) :
    Kept hand (liveCells s.sessions)
      { s with sessions := [], delegates := { s.delegates with calls := [] } } := by
  refine ⟨{ h.accounts with }, ⟨?_, ?_, nofun⟩,
    { h.calls.revoke (nil_sublist _) (fun _ _ => nofun) with }⟩
  · refine List.Perm.trans (List.Perm.of_eq ?_) h.cells.perm
    show _ ++ [] ++ liveCells s.sessions = _
    rw [append_nil, append_nil]
  · exact h.cells.opening_nodup.sublist (List.Sublist.append_left (nil_sublist _) _)

/-! ## Delegate calls -/

theorem Kept.removeCall (h : s.Kept hand owners) (id : DelegateRequestId) :
    Kept hand owners { s with delegates := s.delegates.remove id } :=
  ⟨{ h.accounts with }, { h.cells with },
    h.calls.revoke remove_sublist fun owner howner call hcall =>
      h.calls.revoked owner howner call (mem_remove hcall)⟩

/-- The calls without `id`, and its answer is sent. -/
theorem Kept.delegateAnswered {result : Except Str DelegateResponse} (h : s.Kept hand owners)
    (hcalls : ∀ call ∈ s.delegates.calls, call.1 ≠ id)
    (hdue : (Effect.sent (.delegateResponse id result)).Due s.effects) :
    (s.log (.sent (.delegateResponse id result))).Kept hand owners :=
  ⟨h.accounts.log rfl, h.cells.log rfl rfl,
    h.calls.log rfl (fun call hcall hid => hcalls call hcall hid.symm) hdue⟩

theorem Kept.delegateCancelled (h : s.Kept hand owners)
    (hcalls : ∀ call ∈ s.delegates.calls, call.1 ≠ id) :
    (s.log (.delegateCancelled id)).Kept hand owners :=
  ⟨h.accounts.log rfl, h.cells.log rfl rfl,
    h.calls.log rfl (fun call hcall hid => hcalls call hcall hid.symm) trivial⟩

theorem expire_of_le {seen order : List DelegateRequestId}
    (h : order.length ≤ maxRecentDelegateRequestIds) :
    DelegateRuntime.expire seen order = (seen, order) := by
  cases order with
  | nil => rfl
  | cons expired order => exact if_neg (Nat.not_lt_of_le h)

theorem expire_cons {seen order : List DelegateRequestId} {expired : DelegateRequestId}
    (h : order.length = maxRecentDelegateRequestIds) :
    DelegateRuntime.expire seen (expired :: order) = (seen.filter (· ≠ expired), order) := by
  rw [DelegateRuntime.expire, if_pos (by omega), expire_of_le (Nat.le_of_eq h)]

/-- The requests that are remembered are the last ones. -/
theorem rememberRequest_order {delegates : DelegateRuntime} {log : List DelegateRequestId}
    (horder : delegates.requestOrder = log.rtake maxRecentDelegateRequestIds)
    (hnodup : delegates.requestOrder.Nodup)
    (hseen : ∀ id, id ∈ delegates.seenRequests ↔ id ∈ delegates.requestOrder)
    (hid : id ∉ delegates.seenRequests) : (delegates.rememberRequest id).requestOrder =
      (log ++ [id]).rtake maxRecentDelegateRequestIds ∧
    (delegates.rememberRequest id).requestOrder.Nodup ∧
    ∀ id', id' ∈ (delegates.rememberRequest id).seenRequests ↔
      id' ∈ (delegates.rememberRequest id).requestOrder := by
  have hid' : id ∉ delegates.requestOrder := fun hmem => hid ((hseen id).2 hmem)
  have hnodup' : (delegates.requestOrder ++ [id]).Nodup :=
    List.Nodup.append hnodup (nodup_singleton id) (disjoint_singleton.2 hid')
  have hseen' : ∀ id', id' ∈ delegates.seenRequests ++ [id] ↔ id' ∈ delegates.requestOrder ++ [id] := by
    intro id'
    rw [mem_append, mem_append, hseen id']
  have hlength := congrArg List.length horder
  rw [length_rtake] at hlength
  by_cases hshort : log.length < maxRecentDelegateRequestIds
  · have hle : (delegates.requestOrder ++ [id]).length ≤ maxRecentDelegateRequestIds := by
      rw [length_append, length_singleton]
      omega
    unfold DelegateRuntime.rememberRequest
    rw [expire_of_le hle, rtake_concat_of_lt hshort, ← horder]
    exact ⟨rfl, hnodup', hseen'⟩
  · have hpos : 0 < maxRecentDelegateRequestIds := by decide
    -- the oldest request is forgotten
    cases horder' : delegates.requestOrder with
    | nil =>
      rw [horder', length_nil] at hlength
      omega
    | cons expired order =>
      rw [horder'] at hnodup' hseen' hlength
      have hfull : (order ++ [id]).length = maxRecentDelegateRequestIds := by
        rw [length_append, length_singleton]
        rw [length_cons] at hlength
        omega
      unfold DelegateRuntime.rememberRequest
      rw [horder', cons_append, expire_cons hfull, rtake_concat_of_le hpos (Nat.le_of_not_lt hshort),
        ← horder, horder']
      rw [cons_append, nodup_cons] at hnodup'
      refine ⟨rfl, hnodup'.2, fun id' => ?_⟩
      rw [mem_filter, hseen', cons_append, mem_cons, decide_eq_true_eq]
      constructor
      · rintro ⟨hmem, hne⟩
        exact hmem.resolve_left hne
      · intro hmem
        exact ⟨.inr hmem, fun heq => hnodup'.1 (heq ▸ hmem)⟩

/-- A call is started. -/
theorem Kept.start {target : CellOwner} {delegates : DelegateRuntime} (h : s.Kept hand [])
    (hstart : s.delegates.start id target = .ok delegates) :
    Kept hand [] (ConnectionDriver.log { s with delegates } (.delegateStarted id target.key)) := by
  unfold DelegateRuntime.start at hstart
  split at hstart
  · cases hstart
  · next hfresh =>
    cases hstart
    rw [not_or, Bool.not_eq_true, Option.isSome_eq_false_iff, Option.isNone_iff_eq_none] at hfresh
    obtain ⟨hcall, hseen⟩ := hfresh
    obtain ⟨horder, hnodup, hseen'⟩ :=
      rememberRequest_order h.calls.order_eq h.calls.order_nodup h.calls.seen_iff hseen
    have hstarted : (ConnectionDriver.log s (.delegateStarted id target.key)).started =
        s.started ++ [id] := by
      unfold started ConnectionDriver.log
      rw [filterMap_append]
      rfl
    have hnotMem := get?_eq_none.1 hcall
    refine ⟨{ h.accounts.log rfl with }, { h.cells.log rfl rfl with }, ?_⟩
    constructor
    · exact keys_insert_nodup h.calls.keys_nodup
    · intro call hmem
      rcases mem_insert hmem with rfl | hmem
      · exact since_concat rfl
      · exact (h.calls.active call hmem).concat fun hretires => hretires
    · intro call hmem
      cases hmem
    · exact h.calls.due.concat trivial
    · show (s.delegates.rememberRequest id).requestOrder =
        (ConnectionDriver.log s (.delegateStarted id target.key)).started.rtake _
      rw [hstarted]
      exact horder
    · exact hnodup
    · exact hseen'
    · show Spaced _ (ConnectionDriver.log s (.delegateStarted id target.key)).started
      rw [hstarted]
      refine spaced_concat h.calls.spaced ?_ ?_
      · rw [← h.calls.order_eq]
        exact h.calls.order_nodup
      · rw [← h.calls.order_eq]
        exact fun hmem => hseen ((h.calls.seen_iff id).2 hmem)

end ConnectionDriver

end Codex.HostConnection
