import Codex.HostConnection.DriverInvariant

/-!
# The handlers keep the accounts

One lemma for each function of the driver. A handler that is given senders uses them,
hands them to the tracker or leaves them in the hand of its caller, whether it returns
or stops (`Handles`).
-/

namespace Codex.HostConnection

open List Codex.Text ConnectionDriver

variable {α : Type} {s : ConnectionDriver} {hand : List Caller} {owners : List CellOwner}
  {caller : Caller}

/-- What a computation leaves alone that only talks to the callers. -/
structure Beside (s t : ConnectionDriver) : Prop where
  requests : t.requests = s.requests
  sessions : t.sessions = s.sessions
  delegates : t.delegates = s.delegates
  failed : t.failed = s.failed

theorem Beside.refl (s : ConnectionDriver) : Beside s s := ⟨rfl, rfl, rfl, rfl⟩

variable {t : ConnectionDriver} {pending : PendingRequest}

theorem Beside.trans {u : ConnectionDriver} (h : Beside s t) (h' : Beside t u) : Beside s u :=
  ⟨h'.requests.trans h.requests, h'.sessions.trans h.sessions, h'.delegates.trans h.delegates,
    h'.failed.trans h.failed⟩

theorem beside_of_around (h : s.Around t) : Beside s t :=
  ⟨h.requests, h.sessions, h.delegates, h.failed⟩

/-- The handler returns with a live driver or stops, and has used the senders it was given. -/
def Handles (x : DriverM Unit) (s : ConnectionDriver) (hand : List Caller) : Prop :=
  Ends x s (fun _ t => t.Live hand) (fun t => t.Sound hand)

/-- A computation that does not stop. -/
def Returning (x : DriverM α) (s : ConnectionDriver) (ok : α → ConnectionDriver → Prop) : Prop :=
  Ends x s ok fun _ => False

theorem Returning.bind {β : Type} {x : DriverM α} {f : α → DriverM β}
    {ok : α → ConnectionDriver → Prop} {ok' : β → ConnectionDriver → Prop}
    {failed : ConnectionDriver → Prop} (hx : Returning x s ok)
    (hf : ∀ a t, ok a t → Ends (f a) t ok' failed) : Ends (x >>= f) s ok' failed :=
  Ends.bind hx hf fun _ h => h.elim

theorem Handles.bind {x : DriverM Unit} {f : Unit → DriverM Unit} {hand' : List Caller}
    (hx : Handles x s hand) (hf : ∀ t : ConnectionDriver, t.Live hand → Handles (f ()) t hand')
    (hstop : ∀ t : ConnectionDriver, t.Sound hand → t.Sound hand') : Handles (x >>= f) s hand' :=
  Ends.bind hx (fun _ t ht => hf t ht) hstop

/-! ## The surroundings -/

theorem isCancelled_returns (s : ConnectionDriver) (caller : Caller) :
    Returning (isCancelled caller) s fun cancelled t =>
      s.Around t ∧ (cancelled = true → caller ∈ t.cancelled) :=
  ⟨around_look s, of_decide_eq_true⟩

theorem isClosed_returns (s : ConnectionDriver) (caller : Caller) :
    Returning (isClosed caller) s fun closed t =>
      s.Around t ∧ (closed = true → caller ∈ t.dropped) :=
  ⟨around_look s, of_decide_eq_true⟩

theorem encode_returns (s : ConnectionDriver) (message : ClientToHost) :
    Returning (encode message) s fun _ t => s.Around t :=
  ⟨rfl, rfl, rfl, rfl, rfl, rfl, rfl, fun _ h => h, fun _ h => h⟩

theorem send_returns (h : s.Kept (caller :: hand) owners) (answer : Answer) :
    Returning (send caller answer) s fun _ t => t.Kept hand owners ∧ Beside s t := by
  refine (isClosed_returns s caller).bind fun closed t ⟨hst, hclosed⟩ => ?_
  have ht := h.around hst
  have hbeside := beside_of_around hst
  cases closed with
  | true => exact ⟨ht.unanswered (.inr (hclosed rfl)), ⟨hbeside.1, hbeside.2, hbeside.3, hbeside.4⟩⟩
  | false => exact ⟨ht.answered answer, ⟨hbeside.1, hbeside.2, hbeside.3, hbeside.4⟩⟩

theorem respond_returns (h : s.Kept (caller :: hand) owners) (answer : Answer) :
    Returning (respond caller answer) s fun _ t => t.Kept hand owners ∧ Beside s t :=
  (send_returns h answer).bind fun _ _ ht => ht

theorem respond_handles (h : s.Live (caller :: hand)) (answer : Answer) :
    Handles (respond caller answer) s hand :=
  (respond_returns h.toKept answer).mono
    (fun _ _ ⟨hkept, hbeside⟩ => ⟨hkept, hbeside.failed.trans h.notFailed⟩) fun _ h => h.elim

theorem abandonedChannel_returns (h : s.Live hand) :
    Returning abandonedChannel s fun caller t => t.Live (caller :: hand) ∧ s.opening = t.opening :=
  ⟨⟨h.newCaller (fun _ h => .inl h) (subset_cons_self _ _), h.notFailed⟩, rfl⟩

/-! ## Failing -/

theorem failPending_returns (reason : Str) (pending : List (RequestId × PendingRequest))
    (h : s.Kept (pending.map (·.2.responseTx) ++ hand) owners) :
    Returning (failPending reason pending) s fun _ t => t.Kept hand owners ∧ Beside s t := by
  induction pending generalizing s with
  | nil => exact ⟨h, Beside.refl s⟩
  | cons entry pending ih =>
    refine (respond_returns h _).bind fun _ t ⟨ht, hst⟩ => ?_
    exact (ih ht).mono (fun _ u ⟨hu, htu⟩ => ⟨hu, hst.trans htu⟩) fun _ h => h.elim

theorem failDeferred_returns (reason : Str) (deferred : List DeferredWait)
    (h : s.Kept (deferred.map (·.responseTx) ++ hand) owners) :
    Returning (failDeferred reason deferred) s fun _ t => t.Kept hand owners ∧ Beside s t := by
  induction deferred generalizing s with
  | nil => exact ⟨h, Beside.refl s⟩
  | cons wait deferred ih =>
    refine (respond_returns h _).bind fun _ t ⟨ht, hst⟩ => ?_
    exact (ih ht).mono (fun _ u ⟨hu, htu⟩ => ⟨hu, hst.trans htu⟩) fun _ h => h.elim

theorem failInitial_returns (reason : Str) (initial : List (RequestId × InitialResponse))
    (h : s.Kept hand owners) :
    Returning (failInitial reason initial) s fun _ t => t.Kept hand owners ∧ Beside s t := by
  induction initial generalizing s with
  | nil => exact ⟨h, Beside.refl s⟩
  | cons entry initial ih =>
    have hlog := h.log (Effect.neutral_initialAnswered entry.1 (.error reason))
    exact (ih hlog).mono (fun _ u ⟨hu, htu⟩ => ⟨hu, ⟨htu.1, htu.2, htu.3, htu.4⟩⟩) fun _ h => h.elim

theorem notifyCellsClosed_returns (closed : List CellOwner) (h : s.Kept hand (closed ++ owners)) :
    Returning (notifyCellsClosed closed) s fun _ t => t.Kept hand owners ∧ Beside s t := by
  induction closed generalizing s with
  | nil => exact ⟨h, Beside.refl s⟩
  | cons owner closed ih =>
    exact (ih h.closed).mono (fun _ u ⟨hu, htu⟩ => ⟨hu, ⟨htu.1, htu.2, htu.3, htu.4⟩⟩)
      fun _ h => h.elim

theorem notifyAllClosed_returns (closed : List CellOwner) (h : s.Kept hand closed) :
    Returning (notifyCellsClosed closed) s fun _ t => t.Kept hand [] ∧ Beside s t := by
  rw [← append_nil closed] at h
  exact notifyCellsClosed_returns closed h

theorem failSessions_returns (sessions : SessionRegistry)
    (h : s.Kept hand (liveCells sessions ++ owners)) :
    Returning (failSessions sessions) s fun _ t => t.Kept hand owners ∧ Beside s t := by
  induction sessions generalizing s with
  | nil => exact ⟨h, Beside.refl s⟩
  | cons entry sessions ih =>
    obtain ⟨sessionId, record⟩ := entry
    have hsplit : liveCells ((sessionId, record) :: sessions) ++ owners =
        record.owners sessionId ++ (liveCells sessions ++ owners) := by
      unfold liveCells
      rw [flatMap_cons, List.append_assoc]
    rw [hsplit] at h
    refine (notifyCellsClosed_returns _ h).bind fun _ t ⟨ht, hst⟩ => ?_
    have hlog := ht.log (Effect.neutral_cleanedUp record.cleanup)
    refine (ih hlog).mono (fun _ u ⟨hu, htu⟩ => ⟨hu, hst.trans ?_⟩) fun _ h => h.elim
    exact ⟨htu.1, htu.2, htu.3, htu.4⟩

theorem failRequests_returns (h : s.Kept hand owners) (reason : Str) :
    Returning (failRequests reason) s fun _ t => t.Kept hand owners ∧
      t.requests.pending = [] ∧ t.requests.deferredWaits = [] ∧ t.sessions = s.sessions ∧
      t.delegates = s.delegates ∧ t.failed = s.failed := by
  have htake : Kept (s.senders ++ hand) owners
      { s with requests := { nextRequestId := s.requests.nextRequestId } } :=
    h.takeRequests rfl rfl
  rw [senders, List.append_assoc] at htake
  refine (failPending_returns reason _ htake).bind fun _ t ⟨ht, hst⟩ => ?_
  refine (failInitial_returns reason _ ht).bind fun _ u ⟨hu, htu⟩ => ?_
  refine (failDeferred_returns reason _ hu).mono (fun _ v ⟨hv, huv⟩ => ?_) fun _ h => h.elim
  have hsv := (hst.trans htu).trans huv
  refine ⟨hv, ?_, ?_, hsv.sessions, hsv.delegates, hsv.failed⟩
  · rw [hsv.requests]
  · rw [hsv.requests]

theorem fail_returns (h : s.Sound hand) (reason : Str) :
    Returning (fail reason) s fun _ t => t.Sound hand ∧ t.failed = true := by
  show Ends (if s.failed then _ else _) s _ _
  by_cases hfailed : s.failed = true
  · rw [if_pos hfailed]
    exact ⟨h, hfailed⟩
  · rw [if_neg hfailed]
    have hmarked : Kept hand []
        { s with failed := true, failure := some (s.failure.getD reason) } :=
      ⟨{ h.accounts with }, { h.cells with }, { h.calls with }⟩
    refine (failRequests_returns hmarked _).bind
      fun _ t ⟨ht, hpending, hdeferred, hsessions, hdelegates, hfailed'⟩ => ?_
    have hdrain := ht.drain
    rw [← append_nil (liveCells t.sessions), hsessions] at hdrain
    refine (failSessions_returns _ hdrain).mono (fun _ u ⟨hu, htu⟩ => ?_) fun _ h => h.elim
    refine ⟨⟨hu, fun _ => ⟨?_, ?_, htu.sessions⟩⟩, htu.failed.trans hfailed'⟩
    · rw [htu.requests]
      exact hpending
    · rw [htu.requests]
      exact hdeferred

theorem failWith_ends (h : s.Sound hand) (reason : Str) (ok : α → ConnectionDriver → Prop) :
    Ends (failWith reason : DriverM α) s ok fun t => t.Sound hand :=
  (fail_returns h reason).bind fun _ _ ht => ht.1

theorem failWith_handles (h : s.Sound hand) (reason : Str) : Handles (failWith reason) s hand :=
  failWith_ends h reason _

theorem rejectWith_handles (h : s.Live (caller :: hand)) (reason : Str) :
    Handles (rejectWith caller reason) s hand :=
  (respond_handles h _).bind (fun _ ht => failWith_handles ht.sound reason) fun _ ht => ht

theorem trySend_returns (s : ConnectionDriver) (message : ClientToHost) :
    Returning (trySend message) s fun err t =>
      (err = none ∧ ∃ u, s.Around u ∧ t = u.log (.sent message)) ∨ (err ≠ none ∧ s.Around t) := by
  have haround : s.Around { s with world := { s.world with queue := s.world.queue.tail } } :=
    ⟨rfl, rfl, rfl, rfl, rfl, rfl, rfl, fun _ h => h, fun _ h => h⟩
  unfold trySend
  refine ends_bind (ends_get (ends_bind (ends_modify ?_)))
  split
  · exact .inl ⟨rfl, _, haround, rfl⟩
  · exact .inr ⟨Option.some_ne_none _, haround⟩

/-- The frame is queued, or the connection fails. -/
theorem queueFrame_handles {message : ClientToHost} (h : s.Live hand)
    (hlog : ∀ t, s.Around t → (t.log (.sent message)).Kept hand []) :
    Handles (queueFrame message) s hand := by
  refine (trySend_returns s message).bind fun err t ht => ?_
  rcases ht with ⟨rfl, u, hsu, rfl⟩ | ⟨herr, hst⟩
  · exact ⟨hlog u hsu, hsu.failed.trans h.notFailed⟩
  · have hsound := (h.around hst).sound
    cases err with
    | none => exact (herr rfl).elim
    | some err =>
      cases err with
      | full | closed => exact failWith_handles hsound _

theorem queueNeutral_handles {message : ClientToHost} (h : s.Live hand)
    (hneutral : (Effect.sent message).Neutral) : Handles (queueFrame message) s hand :=
  queueFrame_handles h fun _ hst => (h.toKept.around hst).log hneutral

/-! ## Requests -/

theorem allocateId_returns (h : s.Live hand) :
    Returning allocateId s fun result t => t.Live hand ∧ t.opening = s.opening ∧
      ∀ id, result = .ok id →
        id ∉ t.requests.pending.map Prod.fst ∧ id < t.requests.nextRequestId := by
  unfold HostConnection.allocateId RequestTracker.allocateId
  refine ends_bind (ends_get ?_)
  split
  · refine ⟨h, rfl, fun id hid => ?_⟩
    cases hid
  · next id requests hallocate =>
    split at hallocate
    · cases hallocate
    · cases hallocate
      have hlt : s.requests.nextRequestId < s.requests.nextRequestId + 1 := Int.lt_succ _
      refine ⟨⟨h.setRequests rfl rfl (Int.le_of_lt hlt), h.notFailed⟩, rfl, fun id hid => ?_⟩
      cases hid
      exact ⟨fun hmem => absurd (h.accounts.keys_lt _ hmem) (Int.lt_irrefl _), hlt⟩

theorem opens_around (h : s.Opens pending) (hst : s.Around t) : t.Opens pending := by
  unfold Opens opening
  rw [hst.requests, hst.sessions]
  exact h

theorem submit_handles {id : RequestId} (h : s.Live (pending.responseTx :: hand))
    (hid : id ∉ s.requests.pending.map Prod.fst) (hlt : id < s.requests.nextRequestId)
    (hopens : s.Opens pending) (refused : Str) (request : HostRequest) :
    Handles (submit refused id request pending) s hand := by
  refine (encode_returns s _).bind fun err t hst => ?_
  have ht := h.around hst
  cases err with
  | some err => exact respond_handles ht _
  | none =>
    rw [← hst.requests] at hid hlt
    refine queueNeutral_handles ⟨?_, ht.notFailed⟩ (Effect.neutral_request id request)
    exact ht.insertPending hid hlt (opens_around hopens hst)

theorem sendRequestAs_handles (refused : Str) (request : HostRequest) (pending : PendingRequest)
    (h : s.Live (pending.responseTx :: hand)) (hopens : s.Opens pending) :
    Handles (sendRequestAs refused request pending) s hand := by
  refine (allocateId_returns h).bind fun result t ⟨ht, hopening, hid⟩ => ?_
  cases result with
  | error err =>
    refine (respond_returns ht.toKept _).bind fun _ u ⟨hu, htu⟩ => ?_
    exact Live.sound ⟨hu, htu.failed.trans ht.notFailed⟩
  | ok id =>
    obtain ⟨hfresh, hlt⟩ := hid id rfl
    have hopens' : t.Opens pending := by
      unfold Opens
      rw [hopening]
      exact hopens
    exact submit_handles ht hfresh hlt hopens' refused request

theorem opens_of_none (h : pending.opens = none) : s.Opens pending := by
  intro sessionId hopens
  rw [h] at hopens
  cases hopens

theorem sendRequest_handles (request : HostRequest) (pending : PendingRequest)
    (h : s.Live (pending.responseTx :: hand)) (hopens : pending.opens = none) :
    Handles (sendRequest request pending) s hand :=
  sendRequestAs_handles _ request pending h (opens_of_none hopens)

theorem anyCancelledWait_returns (session : RemoteSession) (cellId : WireCellId)
    (pending : List (RequestId × PendingRequest)) (s : ConnectionDriver) :
    Returning (anyCancelledWait session cellId pending) s fun _ t => s.Around t := by
  induction pending generalizing s with
  | nil => exact Around.refl s
  | cons entry pending ih =>
    obtain ⟨id, request⟩ := entry
    cases request with
    | wait session' cellId' reported caller =>
      show Ends (if session' = session ∧ cellId' = cellId then _ else _) s _ _
      split
      · refine (isCancelled_returns s caller).bind fun cancelled t ⟨hst, _⟩ => ?_
        cases cancelled with
        | true => exact hst
        | false => exact (ih t).mono (fun _ u htu => hst.trans htu) fun _ h => h.elim
      · exact ih s
    | openSession session' delegate cleanup reported caller | execute session' reported caller
    | terminate session' cellId' caller | shutdownSession session' caller => exact ih s

theorem hasCancelledWait_returns (session : RemoteSession) (cellId : WireCellId)
    (s : ConnectionDriver) :
    Returning (hasCancelledWait session cellId) s fun _ t => s.Around t :=
  anyCancelledWait_returns session cellId _ s

/-! ## Commands -/

theorem openSession_handles (h : s.Live (caller :: hand)) (session : RemoteSession)
    (delegate : Delegate) (cleanup : SessionCleanup) :
    Handles (openSession session delegate cleanup caller) s hand := by
  show Ends (if (Entries.get? session.id s.sessions).isSome ||
    s.requests.containsPendingOpen session then _ else _) s _ _
  split
  · exact respond_handles h _
  · next hnew =>
    refine sendRequestAs_handles _ _ (.openSession session delegate cleanup false caller) h ?_
    intro sessionId hopens hmem
    cases hopens
    rw [Bool.not_eq_true, Bool.or_eq_false_iff, Option.isSome_eq_false_iff,
      Option.isNone_iff_eq_none, Entries.get?_eq_none] at hnew
    rcases mem_append.1 hmem with hmem | hmem
    · obtain ⟨entry, hentry, hopen⟩ := mem_filterMap.1 hmem
      have hall : ¬ (entry.2.opens == some session.id) = true :=
        any_eq_false.1 hnew.2 entry hentry
      rw [hopen] at hall
      exact hall (beq_self_eq_true _)
    · exact hnew.1 hmem

theorem execute_handles (h : s.Live (caller :: hand)) (session : RemoteSession)
    (request : ExecuteRequest) : Handles (execute session request caller) s hand := by
  unfold execute
  refine ends_bind (ends_get ?_)
  split
  · exact respond_handles h _
  · split
    · exact respond_handles h _
    · exact sendRequestAs_handles _ _ (.execute session false caller) h (opens_of_none rfl)

theorem startWait_handles (h : s.Live (caller :: hand)) (session : RemoteSession)
    (request : WaitRequest) : Handles (startWait session request caller) s hand :=
  sendRequest_handles _ (.wait session request.cellId false caller) h rfl

theorem deferOrStartWait_handles (h : s.Live (caller :: hand)) (session : RemoteSession)
    (request : WaitRequest) : Handles (deferOrStartWait session request caller) s hand := by
  refine (hasCancelledWait_returns session _ s).bind fun cancelled t hst => ?_
  have ht := h.around hst
  cases cancelled with
  | true => exact ⟨ht.pushDeferred, ht.notFailed⟩
  | false => exact startWait_handles ht session request

theorem wait_handles (h : s.Live (caller :: hand)) (session : RemoteSession)
    (request : WaitRequest) : Handles (wait session request caller) s hand := by
  unfold wait
  refine ends_bind (ends_get ?_)
  split
  · exact respond_handles h _
  · split
    · exact respond_handles h _
    · exact deferOrStartWait_handles h session _

theorem terminate_handles (h : s.Live (caller :: hand)) (session : RemoteSession)
    (cellId : CellId) : Handles (terminate session cellId caller) s hand := by
  unfold terminate
  refine ends_bind (ends_get ?_)
  split
  · exact respond_handles h _
  · split
    · exact respond_handles h _
    · next cellId _ => exact sendRequest_handles _ (.terminate session cellId caller) h rfl

theorem shutdownSession_handles (h : s.Live (caller :: hand)) (session : RemoteSession) :
    Handles (shutdownSession session caller) s hand := by
  unfold shutdownSession SessionRegistry.beginShutdown
  refine ends_bind (ends_get ?_)
  split
  · exact respond_handles h _
  · next sessions hbegin =>
    split at hbegin
    · cases hbegin
    · next record hget =>
      split at hbegin
      · cases hbegin
      · split at hbegin
        · cases hbegin
        · cases hbegin
          have hclosing : Live (caller :: hand)
              { s with sessions := SessionRegistry.setClosing s.sessions session.id record } :=
            ⟨h.setClosing hget, h.notFailed⟩
          exact sendRequest_handles _ (.shutdownSession session caller) hclosing rfl

theorem handleCommand_handles {command : DriverCommand} (h : s.Live (command.caller :: hand)) :
    Handles (handleCommand command) s hand := by
  cases command with
  | openSession session delegate cleanup caller => exact openSession_handles h session delegate cleanup
  | execute session request caller => exact execute_handles h session request
  | wait session request caller => exact wait_handles h session request
  | terminate session cellId caller => exact terminate_handles h session cellId
  | shutdownSession session caller => exact shutdownSession_handles h session

/-! ## Delegate calls -/

theorem startDelegate_handles (h : s.Live hand) (id : DelegateRequestId) (sessionId : SessionId)
    (request : DelegateRequest) : Handles (startDelegate id sessionId request) s hand := by
  unfold startDelegate
  refine ends_bind (ends_get ?_)
  split
  · exact failWith_handles h.sound _
  · split
    · exact failWith_handles h.sound _
    · next hstart => exact ⟨h.start hstart, h.notFailed⟩

theorem cancelDelegate_handles (h : s.Live hand) (id : DelegateRequestId) :
    Handles (cancelDelegate id) s hand :=
  ⟨(h.removeCall id).delegateCancelled fun _ hcall => Entries.fst_ne_of_mem_remove hcall,
    h.notFailed⟩

/-- An answer of the delegate, once its call is removed. -/
theorem sendDelegateResponse_handles {id : DelegateRequestId} {cell : CellKey} (h : s.Live hand)
    (hcalls : ∀ call ∈ s.delegates.calls, call.1 ≠ id)
    (hactive : Log.Since (Effect.Starts id cell) (Effect.Retires id cell) s.effects)
    (result : Except Str DelegateResponse) : Handles (sendDelegateResponse id result) s hand := by
  have hqueue : ∀ (t : ConnectionDriver) (result : Except Str DelegateResponse), s.Around t →
      Handles (queueFrame (.delegateResponse id result)) t hand := by
    intro t result hst
    refine queueFrame_handles (h.around hst) fun u htu => ?_
    have hsu := hst.trans htu
    refine (h.toKept.around hsu).delegateAnswered ?_ ?_
    · rw [hsu.delegates]
      exact hcalls
    · rw [hsu.effects]
      exact ⟨cell, hactive⟩
  refine (encode_returns s _).bind fun err t hst => ?_
  cases err with
  | none => exact hqueue t result hst
  | some err =>
    refine (encode_returns t _).bind fun err' u htu => ?_
    cases err' with
    | none => exact hqueue u _ (hst.trans htu)
    | some err' => exact failWith_handles (h.around (hst.trans htu)).sound _

theorem completeDelegate_handles (h : s.Live hand) (id : DelegateRequestId)
    (result : Except Str DelegateResponse) : Handles (completeDelegate id result) s hand := by
  show Ends (if (Entries.get? id s.delegates.calls).isSome then _ else _) s _ _
  split
  · next hcall =>
    obtain ⟨cell, hget⟩ := Option.isSome_iff_exists.1 hcall
    have hactive := h.calls.active _ (Entries.mem_of_get? hget)
    have hremoved : Live hand { s with delegates := s.delegates.remove id } :=
      ⟨h.removeCall id, h.notFailed⟩
    exact sendDelegateResponse_handles hremoved
      (fun _ hmem => Entries.fst_ne_of_mem_remove hmem) hactive result
  · exact h

theorem closeCell_handles (h : s.Live hand) (sessionId : SessionId) (cellId : WireCellId) :
    Handles (closeCell sessionId cellId) s hand := by
  unfold closeCell
  refine ends_bind (ends_get ?_)
  split
  · exact failWith_handles h.sound _
  · next owner sessions hremove => exact ⟨(h.removeCell hremove).closed, h.notFailed⟩

theorem closeSessionLocally_returns (h : s.Live hand) (sessionId : SessionId) :
    Returning (closeSessionLocally sessionId) s fun _ t => t.Live hand := by
  have hrequests : Kept hand []
      { s with requests := s.requests.removeUnclaimedForSession sessionId } :=
    h.setRequests rfl rfl (Int.le_refl _)
  refine (notifyAllClosed_returns _ (hrequests.removeSession sessionId)).mono
    (fun _ t ⟨ht, hst⟩ => ?_) fun _ h => h
  exact ⟨ht, hst.failed.trans h.notFailed⟩

end Codex.HostConnection
