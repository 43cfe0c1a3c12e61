import Codex.HostConnection.Handlers

/-!
# The turns of a driver

What the driver does for the responses of the host and for the callers that cancel, and
the turns of its loop. Every turn keeps the accounts, and so does the drop of the driver
after a turn that stops (`sound_step`).
-/

namespace Codex.HostConnection

open List Codex.Text ConnectionDriver

variable {s : ConnectionDriver} {hand : List Caller} {caller : Caller}

/-! ## Responses of the host -/

theorem shutdownAbandonedSession_handles (h : s.Live hand) (session : RemoteSession) :
    Handles (shutdownAbandonedSession session) s hand := by
  unfold shutdownAbandonedSession SessionRegistry.beginAbandonedShutdown
  refine ends_bind (ends_get ?_)
  split
  · exact failWith_handles h.sound _
  · next shouldShutdown sessions hbegin =>
    obtain ⟨record, hget, hrecord⟩ := Option.map_eq_some_iff.1 hbegin
    split at hrecord
    · cases hrecord
      exact h
    · cases hrecord
      have hclosing : Live hand
          { s with sessions := SessionRegistry.setClosing s.sessions session.id record } :=
        ⟨h.setClosing hget, h.notFailed⟩
      refine ends_bind ?_
      show Ends (if true = true then _ else _)
        { s with sessions := SessionRegistry.setClosing s.sessions session.id record } _ _
      rw [if_pos rfl]
      refine (abandonedChannel_returns hclosing).bind fun caller t ht => ?_
      exact sendRequest_handles _ (.shutdownSession session caller) ht.1 rfl

theorem terminateAbandonedCell_handles (h : s.Live hand) (session : RemoteSession)
    (cellId : WireCellId) : Handles (terminateAbandonedCell session cellId) s hand := by
  unfold terminateAbandonedCell
  refine ends_bind (ends_get ?_)
  split
  · exact failWith_handles h.sound _
  · exact h
  · refine (abandonedChannel_returns h).bind fun caller t ht => ?_
    exact sendRequest_handles _ (.terminate session cellId caller) ht.1 rfl

theorem isAbandoned_returns (s : ConnectionDriver) (caller : Caller) :
    Returning (isAbandoned caller) s fun abandoned t =>
      s.Around t ∧ (abandoned = true → caller ∈ t.cancelled ∨ caller ∈ t.dropped) := by
  refine (isCancelled_returns s caller).bind fun cancelled t ⟨hst, hcancelled⟩ => ?_
  cases cancelled with
  | true => exact ⟨hst, fun _ => .inl (hcancelled rfl)⟩
  | false =>
    exact (isClosed_returns t caller).mono
      (fun _ u ⟨htu, hclosed⟩ => ⟨hst.trans htu, fun h => .inr (hclosed h)⟩) fun _ h => h.elim

theorem answerUnless_returns {abandoned : Bool} (h : s.Live (caller :: hand))
    (habandoned : abandoned = true → caller ∈ s.cancelled ∨ caller ∈ s.dropped) (answer : Answer) :
    Returning (answerUnless abandoned caller answer) s fun _ t => t.Live hand := by
  cases abandoned with
  | true => exact ⟨h.unanswered (habandoned rfl), h.notFailed⟩
  | false =>
    exact (send_returns h.toKept answer).mono
      (fun _ _ ⟨ht, hst⟩ => ⟨ht, hst.failed.trans h.notFailed⟩) fun _ h => h.elim

theorem completeOpen_handles {session : RemoteSession} (h : s.Live (caller :: hand))
    (hopens : session.id ∉ s.opening) (delegate : Delegate) (cleanup : SessionCleanup)
    (result : Except Str HostResponse) :
    Handles (completeOpen session delegate cleanup caller result) s hand := by
  unfold completeOpen
  split
  · split
    · refine (isAbandoned_returns s caller).bind fun abandoned t ⟨hst, habandoned⟩ => ?_
      have ht := h.around hst
      have hopens' : session.id ∉ t.opening := by
        unfold opening
        rw [hst.requests, hst.sessions]
        exact hopens
      have hready : Live (caller :: hand)
          { t with
            sessions :=
              Entries.insert session.id { remote := session, delegate, cleanup } t.sessions } :=
        ⟨ht.insertReady hopens' rfl, ht.notFailed⟩
      refine (answerUnless_returns hready habandoned .opened).bind fun answered u hu => ?_
      cases answered with
      | true => exact hu
      | false => exact shutdownAbandonedSession_handles hu session
    · exact rejectWith_handles h _
  · exact rejectWith_handles h _
  · exact respond_handles h _

theorem deliverExecute_handles (h : s.Live (caller :: hand)) (id : RequestId)
    (session : RemoteSession) (cellId : WireCellId) (owner : CellOwner) (reported : Bool) :
    Handles (deliverExecute id session cellId owner reported caller) s hand := by
  have hinitial : Live (caller :: hand) { s with requests := { s.requests with
      initialResponses :=
        Entries.insert id ⟨session.generation, cellId⟩ s.requests.initialResponses } } :=
    ⟨h.setRequests rfl rfl (Int.le_refl _), h.notFailed⟩
  refine (isAbandoned_returns _ caller).bind fun abandoned t ⟨hst, habandoned⟩ => ?_
  refine (answerUnless_returns (hinitial.around hst) habandoned _).bind fun answered u hu => ?_
  cases answered with
  | true => exact ⟨hu.setRequests rfl rfl (Int.le_refl _), hu.notFailed⟩
  | false => exact terminateAbandonedCell_handles hu session cellId

theorem completeExecute_handles (h : s.Live (caller :: hand)) (id : RequestId)
    (session : RemoteSession) (reported : Bool) (result : Except Str HostResponse) :
    Handles (completeExecute id session reported caller result) s hand := by
  unfold completeExecute
  split
  · next cellId =>
    refine ends_bind (ends_get ?_)
    split
    · exact respond_handles h _
    · exact rejectWith_handles h _
    · next owner sessions hcell =>
      have hadmitted : Live (caller :: hand) (log { s with sessions } (.admitted owner)) :=
        ⟨h.admitted hcell, h.notFailed⟩
      exact deliverExecute_handles hadmitted id session cellId owner reported
  · exact rejectWith_handles h _
  · exact respond_handles h _

theorem completeWait_handles (h : s.Live (caller :: hand)) (session : RemoteSession)
    (cellId : WireCellId) (result : Except Str HostResponse) :
    Handles (completeWait session cellId caller result) s hand := by
  unfold completeWait
  split
  · split
    · exact rejectWith_handles h _
    · exact respond_handles h _
  · exact rejectWith_handles h _
  · exact respond_handles h _

theorem completeShutdown_handles (h : s.Live (caller :: hand)) (session : RemoteSession)
    (result : Except Str HostResponse) :
    Handles (completeShutdown session caller result) s hand := by
  unfold completeShutdown
  split
  · split
    · refine (closeSessionLocally_returns h session.id).bind fun _ t ht => ?_
      exact respond_handles ht _
    · exact rejectWith_handles h _
  · exact rejectWith_handles h _
  · exact rejectWith_handles h _

theorem completeRequest_handles (h : s.Live hand) (id : RequestId)
    (result : Except Str HostResponse) : Handles (completeRequest id result) s hand := by
  unfold completeRequest
  refine ends_bind (ends_get ?_)
  dsimp only
  split
  · exact failWith_handles h.sound _
  · next pending hget =>
    obtain ⟨hkept, hopens⟩ := h.removePending hget
    have hremoved : Live (pending.responseTx :: hand) { s with requests :=
        { s.requests with pending := Entries.remove id s.requests.pending } } :=
      ⟨hkept, h.notFailed⟩
    show Ends (completePending id result pending) { s with requests :=
      { s.requests with pending := Entries.remove id s.requests.pending } } _ _
    cases pending with
    | openSession session delegate cleanup reported caller =>
      exact completeOpen_handles hremoved (hopens session.id rfl) delegate cleanup result
    | execute session reported caller =>
      exact completeExecute_handles hremoved id session reported result
    | wait session cellId reported caller =>
      exact completeWait_handles hremoved session cellId result
    | terminate session cellId caller => exact completeWait_handles hremoved session cellId result
    | shutdownSession session caller => exact completeShutdown_handles hremoved session result

theorem completeInitialResponse_handles (h : s.Live hand) (id : RequestId)
    (result : Except Str RuntimeResponse) : Handles (completeInitialResponse id result) s hand := by
  unfold completeInitialResponse
  refine ends_bind (ends_get ?_)
  dsimp only
  split
  · exact failWith_handles h.sound _
  · next initial hget =>
    have hremoved : Live hand { s with requests := { s.requests with
        initialResponses := Entries.remove id s.requests.initialResponses } } :=
      ⟨h.setRequests rfl rfl (Int.le_refl _), h.notFailed⟩
    have hemit : ∀ response : Except Str RuntimeResponse, Live hand (log { s with requests :=
        { s.requests with
          initialResponses := Entries.remove id s.requests.initialResponses } }
        (.initialAnswered id response)) :=
      fun response => ⟨hremoved.toKept.log (Effect.neutral_initialAnswered id response), h.notFailed⟩
    cases result with
    | error err => exact hemit (.error err)
    | ok response =>
      show Ends (if response.cellId = initial.cellId then _ else _) { s with requests :=
        { s.requests with
          initialResponses := Entries.remove id s.requests.initialResponses } } _ _
      split
      · exact hemit (.ok (response.toPublic initial.generation))
      · exact failWith_handles (hemit _).sound _

theorem handleHostMessage_handles (h : s.Live hand) (message : HostToClient) :
    Handles (handleHostMessage message) s hand := by
  cases message with
  | hostHello | handshakeRejected => exact failWith_handles h.sound _
  | response id result => exact completeRequest_handles h id result
  | initialResponse id result => exact completeInitialResponse_handles h id result
  | delegateRequest id sessionId request => exact startDelegate_handles h id sessionId request
  | cancelDelegateRequest id => exact cancelDelegate_handles h id
  | cellClosed sessionId cellId => exact closeCell_handles h sessionId cellId

/-! ## Cancellations -/

theorem collectPending_returns (pending : List (RequestId × PendingRequest)) (s : ConnectionDriver) :
    Returning (collectPending pending) s fun collected t => s.Around t ∧
      collected.2.map PendingRequest.identity = pending.map PendingRequest.identity := by
  induction pending generalizing s with
  | nil => exact ⟨Around.refl s, rfl⟩
  | cons entry pending ih =>
    obtain ⟨id, request⟩ := entry
    unfold collectPending
    split
    · refine (ih s).bind fun collected t ⟨hst, hmap⟩ => ⟨hst, ?_⟩
      rw [map_cons, map_cons, hmap]
    · next caller reported _ =>
      refine (isCancelled_returns s caller).bind fun cancelled t ⟨hst, _⟩ => ?_
      refine (ih t).bind fun collected u ⟨htu, hmap⟩ => ?_
      show Ends (pure (if (cancelled && !reported) = true then _ else _)) u _ _
      refine ⟨hst.trans htu, ?_⟩
      split
      · rw [map_cons, map_cons, hmap]
        cases request <;> rfl
      · rw [map_cons, map_cons, hmap]

theorem collectUnclaimed_returns (unclaimed : List (RequestId × UnclaimedExecute))
    (s : ConnectionDriver) :
    Returning (collectUnclaimed unclaimed) s fun _ t => s.Around t := by
  induction unclaimed generalizing s with
  | nil => exact Around.refl s
  | cons entry unclaimed ih =>
    obtain ⟨id, execute⟩ := entry
    unfold collectUnclaimed
    refine (isCancelled_returns s execute.caller).bind fun cancelled t ⟨hst, _⟩ => ?_
    exact (ih t).bind fun collected u htu => hst.trans htu

theorem collectCancellations_returns (h : s.Live hand) :
    Returning collectCancellations s fun _ t => t.Live hand := by
  refine (collectPending_returns _ s).bind fun collected t ⟨hst, hmap⟩ => ?_
  refine (collectUnclaimed_returns _ t).bind fun unclaimed u htu => ?_
  have hsu := hst.trans htu
  have hu := h.around hsu
  refine ⟨hu.setRequests ?_ rfl (Int.le_refl _), hu.notFailed⟩
  rw [hmap, hsu.requests]

theorem sendCancelRequest_handles (h : s.Live hand) (id : RequestId) :
    Handles (sendCancelRequest id) s hand := by
  refine (encode_returns s _).bind fun err t hst => ?_
  cases err with
  | none => exact queueNeutral_handles (h.around hst) (Effect.neutral_cancelRequest id)
  | some err => exact failWith_handles (h.around hst).sound _

theorem applyCancellation_handles (h : s.Live hand) (action : CancellationAction) :
    Handles (applyCancellation action) s hand := by
  cases action with
  | send id => exact sendCancelRequest_handles h id
  | terminate requestId execute =>
    exact (sendCancelRequest_handles h requestId).bind
      (fun t ht => terminateAbandonedCell_handles ht execute.session execute.cellId) fun _ ht => ht

theorem applyCancellations_handles (actions : List CancellationAction) (h : s.Live hand) :
    Handles (applyCancellations actions) s hand := by
  induction actions generalizing s with
  | nil => exact h
  | cons action actions ih =>
    exact (applyCancellation_handles h action).bind (fun t ht => ih ht) fun _ ht => ht

theorem cancelDroppedCallers_handles (h : s.Live hand) : Handles cancelDroppedCallers s hand :=
  (collectCancellations_returns h).bind fun actions _ ht => applyCancellations_handles actions ht

theorem identity_insert {id : RequestId} {pending : PendingRequest}
    {entries : List (RequestId × PendingRequest)} (hget : Entries.get? id entries = some pending) :
    (Entries.insert id pending.markReported entries).map PendingRequest.identity =
      entries.map PendingRequest.identity := by
  induction entries with
  | nil => cases hget
  | cons entry entries ih =>
    obtain ⟨key, request⟩ := entry
    by_cases hkey : key = id
    · subst hkey
      rw [Entries.get?, if_pos rfl] at hget
      cases hget
      rw [Entries.insert, if_pos rfl, map_cons, map_cons]
      cases pending <;> rfl
    · rw [Entries.get?, if_neg hkey] at hget
      rw [Entries.insert, if_neg hkey, map_cons, map_cons, ih hget]

theorem markCancelled_kept (h : s.Live hand) (id : RequestId) :
    Live hand { s with requests := (s.requests.markCancelled id).2 } := by
  unfold RequestTracker.markCancelled
  split
  · next pending reported hfound =>
    split
    · exact h
    · obtain ⟨request, hget, hrequest⟩ := Option.bind_eq_some_iff.1 hfound
      obtain ⟨cancellation, -, heq⟩ := Option.map_eq_some_iff.1 hrequest
      cases heq
      exact ⟨h.setRequests (identity_insert hget) rfl (Int.le_refl _), h.notFailed⟩
  · split
    · exact h
    · split
      · exact h
      · exact ⟨h.setRequests rfl rfl (Int.le_refl _), h.notFailed⟩

theorem cancelRequest_handles (h : s.Live hand) (id : RequestId) :
    Handles (cancelRequest id) s hand := by
  have hmarked := markCancelled_kept h id
  unfold cancelRequest
  refine ends_bind (ends_get ?_)
  revert hmarked
  cases s.requests.markCancelled id with
  | mk action requests =>
    intro hmarked
    cases action with
    | none => exact hmarked
    | some action => exact applyCancellation_handles hmarked action

theorem ends_onStop {x cleanup : DriverM Unit} {ok : Unit → ConnectionDriver → Prop}
    {failed failed' : ConnectionDriver → Prop} (hx : Ends x s ok failed)
    (hcleanup : ∀ t, failed t → Returning cleanup t fun _ u => failed' u) :
    Ends (onStop x cleanup) s ok failed' := by
  unfold Ends at hx ⊢
  unfold onStop
  cases hrun : x s with
  | ok u t =>
    rw [hrun] at hx
    exact hx
  | error e t =>
    rw [hrun] at hx
    have hstop : Ends (cleanup >>= fun _ => stop) t ok failed' :=
      (hcleanup t hx).bind fun _ u hu => hu
    exact hstop

theorem Sound.beside {t : ConnectionDriver} {more : List Caller} (h : s.Sound hand)
    (ht : t.Kept more []) (hst : Beside s t) : t.Sound more := by
  refine ⟨ht, fun hfailed => ?_⟩
  obtain ⟨hpending, hdeferred, hsessions⟩ := h.drained (hst.failed.symm.trans hfailed)
  refine ⟨?_, ?_, hst.sessions.trans hsessions⟩
  · rw [hst.requests]
    exact hpending
  · rw [hst.requests]
    exact hdeferred

theorem flushWaits_handles (deferred : List DeferredWait)
    (h : s.Live (deferred.map (·.responseTx) ++ hand)) : Handles (flushWaits deferred) s hand := by
  induction deferred generalizing s with
  | nil => exact h
  | cons wait deferred ih =>
    refine (isCancelled_returns s wait.responseTx).bind fun cancelled t ⟨hst, _⟩ => ?_
    have ht := h.around hst
    cases cancelled with
    | true =>
      refine (respond_returns ht.toKept _).bind fun _ u ⟨hu, htu⟩ => ?_
      exact ih ⟨hu, htu.failed.trans ht.notFailed⟩
    | false =>
      refine (hasCancelledWait_returns _ _ t).bind fun blocked u htu => ?_
      have hu := ht.around htu
      cases blocked with
      | true => exact ih ⟨hu.pushDeferred, hu.notFailed⟩
      | false =>
        have hstart := startWait_handles hu wait.session wait.request
        refine (ends_onStop hstart fun v hv => ?_).bind (fun _ v hv => ih hv) fun _ hv => hv
        exact (failDeferred_returns _ deferred hv.toKept).mono
          (fun _ w ⟨hw, hvw⟩ => Sound.beside hv hw hvw) fun _ h => h.elim

theorem flushDeferredWaits_handles (h : s.Live hand) : Handles flushDeferredWaits s hand :=
  flushWaits_handles s.requests.deferredWaits ⟨h.takeDeferred, h.notFailed⟩

/-! ## Turns -/

theorem dispatch_handles (h : s.Live hand) (event : DriverEvent) :
    Handles (dispatch event) s hand := by
  cases event with
  | hostMessage message => exact handleHostMessage_handles h message
  | delegateCompleted id result => exact completeDelegate_handles h id result
  | requestCancelled id => exact cancelRequest_handles h id
  | failed reason => exact failWith_handles h.sound reason

theorem takeCommand_handles {command : DriverCommand} (h : s.Live (command.caller :: hand)) :
    Handles (takeCommand command) s hand := by
  have hcancel := cancelDroppedCallers_handles h
  refine (ends_onStop hcancel fun t ht => ?_).bind (fun _ t ht => handleCommand_handles ht)
    fun _ ht => ht
  exact Sound.beside ht ht.unhandled ⟨rfl, rfl, rfl, rfl⟩

theorem turn_handles (action : DriverAction) (h : s.Live [])
    (henabled : ∀ command, action = .command command → command.caller = s.nextCaller) :
    Handles (turn action) s [] := by
  cases action with
  | event event =>
    refine (cancelDroppedCallers_handles h).bind (fun t ht => ?_) fun _ ht => ht
    refine (dispatch_handles ht event).bind (fun u hu => ?_) fun _ hu => hu
    exact flushDeferredWaits_handles hu
  | claim id => exact ⟨h.setRequests rfl rfl (Int.le_refl _), h.notFailed⟩
  | command command =>
    have hcaller := henabled command rfl
    refine takeCommand_handles ⟨?_, h.notFailed⟩
    rw [hcaller]
    refine h.newCaller (fun caller hmem => ?_) fun _ h => h
    rcases mem_append.1 hmem with hmem | hmem
    · exact .inl hmem
    · exact .inr (mem_singleton.1 hmem)
  | close reason => exact failWith_handles h.sound reason
  | callers moves => exact h.around (around_moves s moves)

/-- A task between its turns. A driver that is stopped has failed. -/
structure Resting (task : DriverTask) : Prop extends task.driver.Sound [] where
  failed_eq : task.driver.failed = task.stopped

theorem resting_start : Resting {} where
  accounts := ⟨List.Perm.refl _, nofun, nodup_nil, nofun, nofun⟩
  cells := ⟨List.Perm.refl _, nodup_nil, nofun⟩
  calls := ⟨nodup_nil, nofun, nofun, Log.justified_nil, rfl, nodup_nil,
    fun _ => Iff.rfl, Recent.spaced_nil⟩
  drained := nofun
  failed_eq := rfl

theorem resting_drop (h : s.Sound []) : Resting ⟨s.drop, true⟩ := by
  have hfail : Ends (fail "code-mode connection driver stopped unexpectedly".toList) s
      (fun _ t => t.Sound [] ∧ t.failed = true) fun t => t.Sound [] ∧ t.failed = true :=
    (fail_returns h _).mono (fun _ _ ht => ht) fun _ h => h.elim
  obtain ⟨hsound, hfailed⟩ := hfail.leaves
  exact ⟨hsound, hfailed⟩

theorem resting_step {task task' : DriverTask} {action : DriverAction × World} (h : Resting task)
    (hstep : step task action = some task') : Resting task' := by
  unfold step at hstep
  split at hstep
  · cases hstep
  · next hrunning =>
    rw [Bool.or_eq_true, not_or, Bool.not_eq_true, Bool.not_eq_true, Bool.not_eq_false'] at hrunning
    have hlive : Live [] { task.driver with world := action.2 } :=
      ⟨h.toKept.around ⟨rfl, rfl, rfl, rfl, rfl, rfl, rfl, fun _ h => h, fun _ h => h⟩,
        h.failed_eq.trans hrunning.1⟩
    have hturn := turn_handles action.1 hlive fun command hcommand => by
      rw [hcommand] at hrunning
      exact of_decide_eq_true hrunning.2
    unfold Handles Ends at hturn
    split at hstep
    · next hrun =>
      rw [hrun] at hturn
      cases hstep
      exact ⟨hturn.sound, hturn.notFailed⟩
    · next hrun =>
      rw [hrun] at hturn
      cases hstep
      exact resting_drop hturn

/-- **Every run keeps the accounts.** -/
theorem resting_run {acts : List (DriverAction × World)} {task : DriverTask}
    (h : Machine.run step {} acts = some task) : Resting task :=
  Machine.run_invariant (fun _ _ _ h hstep => resting_step h hstep) resting_start h

end Codex.HostConnection
