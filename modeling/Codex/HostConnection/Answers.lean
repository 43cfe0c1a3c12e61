import Codex.HostConnection.Turns

/-!
# Answers, closed cells and delegate responses

Over every run of a driver: a command is answered at most once, and once the driver has
stopped exactly once; every admitted cell is closed once; an answer to the host is due
(`commands_answered_cells_closed`). The identifiers of delegate requests are remembered
for the last 4096 requests only, so the host can have one answered again (`run_reuse`).
-/

namespace Codex.HostConnection

open List Codex.Text Codex.Log Codex.Recent ConnectionDriver Machine

namespace Effect

def answerTo (caller : Caller) : Effect → Option Answer
  | .answered caller' answer => if caller' = caller then some answer else none
  | _ => none

/-- The sender of the caller goes away without an answer. -/
def abandons (caller : Caller) : Effect → Bool
  | .unanswered caller' | .unhandled caller' => caller' = caller
  | _ => false

def answersDelegate (id : DelegateRequestId) : Effect → Bool
  | .sent (.delegateResponse id' _) => id' = id
  | _ => false

end Effect

namespace ConnectionDriver

def answersTo (s : ConnectionDriver) (caller : Caller) : List Answer :=
  s.effects.filterMap (Effect.answerTo caller)

def admittedCells (s : ConnectionDriver) : List CellOwner := s.effects.filterMap Effect.admits

def closedCells (s : ConnectionDriver) : List CellOwner := s.effects.filterMap Effect.closes

end ConnectionDriver

variable {s : ConnectionDriver} {hand : List Caller} {caller : Caller}

/-! ## Commands -/

theorem count_settles (effects : List Effect) (caller : Caller) :
    (effects.filterMap Effect.settles).count caller =
      (effects.filterMap (Effect.answerTo caller)).length +
        (effects.filter (Effect.abandons caller)).length := by
  induction effects with
  | nil => rfl
  | cons effect effects ih =>
    cases effect with
    | answered caller' answer =>
      by_cases hcaller : caller' = caller
      · simp only [Effect.settles, Effect.answerTo, Effect.abandons, filterMap_cons,
          filter_cons, hcaller, count_cons_self, if_true, length_cons, ih,
          Bool.false_eq_true, if_false]
        omega
      · simp only [Effect.settles, Effect.answerTo, Effect.abandons, filterMap_cons,
          filter_cons, if_neg hcaller, count_cons_of_ne hcaller, ih, Bool.false_eq_true,
          if_false]
    | unanswered caller' | unhandled caller' =>
      by_cases hcaller : caller' = caller
      · simp only [Effect.settles, Effect.answerTo, Effect.abandons, filterMap_cons,
          filter_cons, hcaller, count_cons_self, decide_true, if_true, length_cons,
          ih]
        omega
      · simp only [Effect.settles, Effect.answerTo, Effect.abandons, filterMap_cons,
          filter_cons, hcaller, decide_false, Bool.false_eq_true, if_false,
          count_cons_of_ne hcaller, ih]
    | initialAnswered id response | sent message | admitted owner | cellClosed owner
    | delegateStarted id cell | delegateCancelled id | cleanedUp cleanup => exact ih

theorem settled_nodup (h : s.Accounts hand) : s.settled.Nodup := by
  have hnodup := h.perm.nodup_iff.2 nodup_range
  rw [List.append_assoc] at hnodup
  exact hnodup.of_append_left

theorem answersTo_length_le_one (h : s.Accounts hand) (caller : Caller) :
    (s.answersTo caller).length ≤ 1 := by
  have hcount := nodup_iff_count_le_one.1 (settled_nodup h) caller
  have hsum := count_settles s.effects caller
  unfold settled at hcount
  unfold answersTo
  omega

/-- Once no sender is left, a caller that neither cancelled nor went away has its answer. -/
theorem answersTo_length_eq_one (h : s.Accounts []) (hsenders : s.senders = [])
    (htaken : caller ∈ s.taken) (hcancelled : caller ∉ s.cancelled) (hdropped : caller ∉ s.dropped)
    (hhandled : .unhandled caller ∉ s.effects) : (s.answersTo caller).length = 1 := by
  have hperm := h.perm
  rw [hsenders, append_nil, append_nil] at hperm
  have hcount : s.settled.count caller = 1 := by
    rw [hperm.count_eq]
    exact count_eq_one_of_mem nodup_range (List.mem_range.2 (h.taken_lt caller htaken))
  have habandons : s.effects.filter (Effect.abandons caller) = [] := by
    rw [filter_eq_nil_iff]
    intro effect heffect habandons
    cases effect with
    | unanswered caller' =>
      rw [of_decide_eq_true habandons] at heffect
      exact (h.excused caller heffect).elim hcancelled hdropped
    | unhandled caller' =>
      rw [of_decide_eq_true habandons] at heffect
      exact hhandled heffect
    | _ => cases habandons
  have hsum := count_settles s.effects caller
  rw [habandons, length_nil] at hsum
  unfold settled at hcount
  unfold answersTo
  omega

/-! ## Runs -/

/-- **Commands are answered and cells closed.** In every run: no caller gets two answers, and once
the driver has stopped, every caller whose command was handled has one, unless it cancelled or
dropped its receiver. No cell is closed more often than it was admitted, and once the driver has
stopped each is closed as often. An answer goes to the host only for a call that was started and
has since been neither answered nor cancelled, nor has its cell been closed; and between two calls
with the same identifier there are at least 4096 others. -/
theorem commands_answered_cells_closed {acts : List (DriverAction × World)} {task : DriverTask}
    (hrun : run step {} acts = some task) :
    (∀ caller, (task.driver.answersTo caller).length ≤ 1) ∧
    (task.stopped = true → ∀ caller ∈ task.driver.taken, caller ∉ task.driver.cancelled →
      caller ∉ task.driver.dropped → .unhandled caller ∉ task.driver.effects →
      (task.driver.answersTo caller).length = 1) ∧
    (∀ owner, task.driver.closedCells.count owner ≤ task.driver.admittedCells.count owner) ∧
    (task.stopped = true → task.driver.closedCells.Perm task.driver.admittedCells) ∧
    Justified Effect.Due task.driver.effects ∧
    Spaced maxRecentDelegateRequestIds task.driver.started := by
  have h := resting_run hrun
  refine ⟨answersTo_length_le_one h.accounts, ?_, ?_, ?_, h.calls.due, h.calls.spaced⟩
  · intro hstopped caller htaken hcancelled hdropped hhandled
    obtain ⟨hpending, hdeferred, -⟩ := h.drained (h.failed_eq.trans hstopped)
    have hsenders : task.driver.senders = [] := by
      unfold senders
      rw [hpending, hdeferred]
      rfl
    exact answersTo_length_eq_one h.accounts hsenders htaken hcancelled hdropped hhandled
  · intro owner
    have hcount := h.cells.perm.count_eq owner
    rw [append_nil, count_append] at hcount
    unfold closedCells admittedCells
    omega
  · intro hstopped
    obtain ⟨-, -, hsessions⟩ := h.drained (h.failed_eq.trans hstopped)
    have hperm := h.cells.perm
    rw [hsessions, append_nil] at hperm
    exact (List.Perm.of_eq (append_nil _).symm).trans hperm

def hostSession : RemoteSession := ⟨['s'], 1⟩

/-- Turns during which nothing happens around the driver. -/
def quietly (actions : List DriverAction) : List (DriverAction × World) :=
  actions.map fun action => (action, {})

/-- A session is opened and a cell started in it. -/
def startCell : List DriverAction :=
  [.command (.openSession hostSession 0 0 0),
    .event (.hostMessage (.response 1 (.ok (.sessionReady ['s'])))),
    .command (.execute hostSession ⟨[], [], none, none⟩ 1),
    .event (.hostMessage (.response 2 (.ok (.executionStarted ['c'])))),
    .claim 2]

/-- A wait is held back by a cancelled one, a call of the delegate is answered, and the connection
is closed. -/
def deferredWait : List DriverAction :=
  startCell ++
  [DriverAction.command (.wait hostSession ⟨['c'], 0⟩ 2),
    DriverAction.callers [.cancel 2],
    DriverAction.command (.wait hostSession ⟨['c'], 0⟩ 3),
    DriverAction.event (.hostMessage (.delegateRequest 7 ['s'] (.invokeTool ['c']))),
    DriverAction.event (.delegateCompleted 7 (.ok .notificationDelivered)),
    DriverAction.event (.hostMessage (.response 3 (.error []))),
    DriverAction.close []]

/-- The caller's command was handled, and the caller waits for the answer. -/
def ConnectionDriver.waits (s : ConnectionDriver) (caller : Caller) : Bool :=
  decide (caller ∈ s.taken) && decide (caller ∉ s.cancelled) && decide (caller ∉ s.dropped) &&
    s.effects.all fun effect => !effect.abandons caller

theorem commands_answered_cells_closed_deferred :
    ∃ task, run step {} (quietly deferredWait) = some task ∧ task.stopped = true ∧
      (task.driver.answersTo 3).length = 1 ∧
      task.driver.closedCells = [⟨['s'], ['c'], 0⟩] ∧
      task.driver.closedCells.Perm task.driver.admittedCells := by
  have hevaluated : ((run step {} (quietly deferredWait)).any fun task =>
      task.stopped && task.driver.waits 3 &&
      decide (task.driver.closedCells = [⟨['s'], ['c'], 0⟩])) = true := by decide +kernel
  obtain ⟨task, hrun, hcheck⟩ := (Option.any_eq_true _ _).1 hevaluated
  unfold waits at hcheck
  simp only [Bool.and_eq_true, decide_eq_true_eq] at hcheck
  obtain ⟨⟨hstopped, ⟨⟨htaken, hcancelled⟩, hdropped⟩, hhandled⟩, hclosed⟩ := hcheck
  obtain ⟨-, hanswers, -, hcells, -, -⟩ := commands_answered_cells_closed hrun
  refine ⟨task, hrun, hstopped, hanswers hstopped 3 htaken hcancelled hdropped ?_, hclosed,
    hcells hstopped⟩
  intro hmem
  cases all_eq_true.1 hhandled _ hmem

/-! ## An identifier that the host uses again -/

def servedCell : CellOwner := ⟨['s'], ['c'], 0⟩

/-- The driver after `startCell`, and after calls of the delegate that are all answered. -/
def serving (delegates : DelegateRuntime) (effects : List Effect) : ConnectionDriver where
  requests := { initialResponses := [(2, ⟨1, ['c']⟩)], nextRequestId := 3 }
  sessions := [(['s'], ⟨hostSession, 0, 0, .ready, [(['c'], ['c'])]⟩)]
  delegates := delegates
  nextCaller := 2
  taken := [0, 1]
  effects := effects

def startEffects : List Effect :=
  [.sent (.request 1 (.openSession ['s'])), .answered 0 .opened,
    .sent (.request 2 (.execute ['s'] ⟨[], [], none, none⟩)), .admitted servedCell,
    .answered 1 (.executed 2 ['c'])]

theorem run_startCell :
    run step {} (quietly startCell) = some ⟨serving {} startEffects, false⟩ := by
  decide +kernel

/-- A call of the delegate and its completion. -/
def serve (id : DelegateRequestId) : List DriverAction :=
  [.event (.hostMessage (.delegateRequest id ['s'] (.invokeTool ['c']))),
    .event (.delegateCompleted id (.ok .notificationDelivered))]

def serveEffects (id : DelegateRequestId) : List Effect :=
  [.delegateStarted id servedCell.key, .sent (.delegateResponse id (.ok .notificationDelivered))]

theorem step_of_returns {event : DriverEvent} {s t : ConnectionDriver}
    (hcancel : Returns cancelDroppedCallers { s with world := {} } () s)
    (hdispatch : Returns (dispatch event) s () t) (hflush : Returns flushDeferredWaits t () t) :
    step ⟨s, false⟩ (.event event, {}) = some ⟨t, false⟩ := by
  have hturn : Returns (turn (.event event)) { s with world := {} } () t :=
    returns_bind.2 ⟨(), s, hcancel, returns_bind.2 ⟨(), t, hdispatch, hflush⟩⟩
  unfold Returns at hturn
  unfold step
  rw [if_neg]
  · dsimp only
    rw [hturn]
  · exact Bool.false_ne_true

variable {delegates : DelegateRuntime} {effects : List Effect} {id : DelegateRequestId}

theorem step_request (hcalls : delegates.calls = []) (hseen : id ∉ delegates.seenRequests) :
    step ⟨serving delegates effects, false⟩
      (.event (.hostMessage (.delegateRequest id ['s'] (.invokeTool ['c']))), {}) =
      some ⟨serving { delegates.rememberRequest id with calls := [(id, servedCell.key)] }
        (effects ++ [.delegateStarted id servedCell.key]), false⟩ := by
  obtain ⟨calls, seen, order⟩ := delegates
  cases hcalls
  have hstart : DelegateRuntime.start ⟨[], seen, order⟩ id servedCell =
      .ok { DelegateRuntime.rememberRequest ⟨[], seen, order⟩ id with
        calls := [(id, servedCell.key)] } := by
    unfold DelegateRuntime.start
    rw [if_neg]
    · rfl
    · rintro (h | h)
      · cases h
      · exact hseen h
  have htarget : SessionRegistry.delegateTarget (serving ⟨[], seen, order⟩ effects).sessions ['s']
      (DelegateRequest.invokeTool ['c']).cellId = .ok servedCell := rfl
  have hdelegates : (serving ⟨[], seen, order⟩ effects).delegates = ⟨[], seen, order⟩ := rfl
  refine step_of_returns rfl ?_ rfl
  show Returns (startDelegate id ['s'] (.invokeTool ['c'])) _ _ _
  unfold startDelegate
  refine returns_bind.2 ⟨_, _, returns_get.2 ⟨rfl, rfl⟩, ?_⟩
  rw [htarget, hdelegates]
  dsimp only
  rw [hstart]
  rfl

theorem step_complete (hcalls : delegates.calls = []) :
    step ⟨serving { delegates with calls := [(id, servedCell.key)] } effects, false⟩
      (.event (.delegateCompleted id (.ok .notificationDelivered)), {}) =
    some ⟨serving delegates (effects ++
      [.sent (.delegateResponse id (.ok .notificationDelivered))]), false⟩ := by
  obtain ⟨calls, seen, order⟩ := delegates
  cases hcalls
  have hget : Entries.get? id [(id, servedCell.key)] = some servedCell.key := if_pos rfl
  have hremove : Entries.remove id [(id, servedCell.key)] = [] := if_pos rfl
  refine step_of_returns rfl ?_ rfl
  show (if (Entries.get? id [(id, servedCell.key)]).isSome then do
      setDelegates ⟨Entries.remove id [(id, servedCell.key)], seen, order⟩
      sendDelegateResponse id (.ok .notificationDelivered)
    else return () : DriverM Unit) (serving ⟨[(id, servedCell.key)], seen, order⟩ effects) = _
  rw [hget, hremove]
  rfl

theorem run_serve (hcalls : delegates.calls = []) (hseen : id ∉ delegates.seenRequests) :
    run step ⟨serving delegates effects, false⟩ (quietly (serve id)) =
      some ⟨serving (delegates.rememberRequest id) (effects ++ serveEffects id), false⟩ := by
  have hcalls' : (delegates.rememberRequest id).calls = [] := hcalls
  have hserve : quietly (serve id) =
      [(.event (.hostMessage (.delegateRequest id ['s'] (.invokeTool ['c']))), {}),
        (.event (.delegateCompleted id (.ok .notificationDelivered)), {})] := rfl
  rw [hserve, run_cons, step_request hcalls hseen, Option.bind_some, run_cons,
    step_complete hcalls', Option.bind_some, run_nil, List.append_assoc]
  rfl

theorem mem_expire {seen order : List DelegateRequestId}
    (h : id ∈ (DelegateRuntime.expire seen order).1) : id ∈ seen := by
  induction order generalizing seen with
  | nil => exact h
  | cons expired order ih =>
    unfold DelegateRuntime.expire at h
    split at h
    · exact (mem_filter.1 (ih h)).1
    · exact h

/-- Calls with identifiers that are all different are all answered. -/
theorem run_serveAll (effects : List Effect) (ids : List DelegateRequestId)
    (hcalls : delegates.calls = []) (hnodup : ids.Nodup)
    (hseen : ∀ id ∈ ids, id ∉ delegates.seenRequests) :
    ∃ runtime : DelegateRuntime, runtime.calls = [] ∧
      run step ⟨serving delegates effects, false⟩ (quietly (ids.flatMap serve)) =
        some ⟨serving runtime (effects ++ ids.flatMap serveEffects), false⟩ := by
  induction ids generalizing delegates effects with
  | nil => exact ⟨delegates, hcalls, by rw [flatMap_nil, flatMap_nil, append_nil]; rfl⟩
  | cons id ids ih =>
    rw [nodup_cons] at hnodup
    have hrest : ∀ id' ∈ ids, id' ∉ (delegates.rememberRequest id).seenRequests := by
      intro id' hid' hmem
      rcases mem_append.1 (mem_expire hmem) with hmem | hmem
      · exact hseen id' (mem_cons_of_mem _ hid') hmem
      · rw [mem_singleton.1 hmem] at hid'
        exact hnodup.1 hid'
    have hcalls' : (delegates.rememberRequest id).calls = [] := hcalls
    obtain ⟨runtime, hruntime, hrun⟩ :=
      ih (effects ++ serveEffects id) hcalls' hnodup.2 hrest
    refine ⟨runtime, hruntime, ?_⟩
    have hsplit : quietly ((id :: ids).flatMap serve) =
        quietly (serve id) ++ quietly (ids.flatMap serve) := by
      unfold quietly
      rw [flatMap_cons, map_append]
    rw [hsplit, run_append, run_serve hcalls (hseen id mem_cons_self),
      Option.bind_some, hrun, flatMap_cons, List.append_assoc]

theorem starts_serveAll (ids : List DelegateRequestId) :
    (startEffects ++ ids.flatMap serveEffects).filterMap Effect.starts = ids := by
  have hids : (ids.flatMap serveEffects).filterMap Effect.starts = ids := by
    induction ids with
    | nil => rfl
    | cons id ids ih =>
      rw [flatMap_cons, filterMap_append, ih]
      rfl
  rw [filterMap_append, hids]
  rfl

/-- Zero and as many other identifiers as are remembered. -/
def idsAround (n : ℕ) : List DelegateRequestId := 0 :: (List.range n).map fun k => Int.ofNat k + 1

theorem nodup_idsAround (n : ℕ) : (idsAround n).Nodup := by
  unfold idsAround
  rw [nodup_cons]
  constructor
  · intro hmem
    obtain ⟨k, -, hk⟩ := mem_map.1 hmem
    have hk' : (k : ℤ) + 1 = 0 := hk
    omega
  · refine (nodup_map_iff_inj_on nodup_range).2 fun k _ k' _ h => ?_
    have h' : (k : ℤ) + 1 = (k' : ℤ) + 1 := h
    omega

/-- Zero is not among the last identifiers. -/
theorem zero_notMem_recent (n : ℕ) : (0 : ℤ) ∉ (idsAround n).rtake n := by
  have hrecent : (idsAround n).rtake n = (List.range n).map fun k => Int.ofNat k + 1 := by
    unfold idsAround List.rtake
    rw [length_cons, length_map, length_range, show n + 1 - n = 1 by omega]
    rfl
  rw [hrecent]
  exact (nodup_cons.1 (nodup_idsAround n)).1

/-- The calls with `n` other identifiers after the one for zero. -/
def reuse (n : ℕ) : List DriverAction := startCell ++ (idsAround n).flatMap serve

theorem run_reuse {n : ℕ} (hn : maxRecentDelegateRequestIds = n) :
    ∃ task, run step {} (quietly (reuse n ++ serve 0)) = some task ∧
      2 ≤ (task.driver.effects.filter (Effect.answersDelegate 0)).length := by
  have hfresh : ∀ id ∈ idsAround n, id ∉ (DelegateRuntime.mk [] [] []).seenRequests :=
    fun _ _ => not_mem_nil
  obtain ⟨runtime, hcalls, hserved⟩ :=
    run_serveAll startEffects (idsAround n) rfl (nodup_idsAround n) hfresh
  have hrun : run step {} (quietly (reuse n)) =
      some ⟨serving runtime (startEffects ++ (idsAround n).flatMap serveEffects), false⟩ := by
    have hsplit : quietly (reuse n) = quietly startCell ++ quietly ((idsAround n).flatMap serve) :=
      map_append
    rw [hsplit, run_append, run_startCell, Option.bind_some]
    exact hserved
  -- by then the identifier zero is forgotten
  have hseen : (0 : ℤ) ∉ runtime.seenRequests := by
    have hkept := (resting_run hrun).calls
    have horder : runtime.requestOrder =
        ((startEffects ++ (idsAround n).flatMap serveEffects).filterMap Effect.starts).rtake
          maxRecentDelegateRequestIds := hkept.order_eq
    rw [starts_serveAll, hn] at horder
    intro hmem
    have hmem' : (0 : ℤ) ∈ runtime.requestOrder := (hkept.seen_iff 0).1 hmem
    rw [horder] at hmem'
    exact zero_notMem_recent n hmem'
  have hsplit : quietly (reuse n ++ serve 0) = quietly (reuse n) ++ quietly (serve 0) :=
    map_append
  refine ⟨_, by rw [hsplit, run_append, hrun, Option.bind_some, run_serve hcalls hseen], ?_⟩
  show 2 ≤ ((startEffects ++ (serveEffects 0 ++ _) ++ serveEffects 0).filter
    (Effect.answersDelegate 0)).length
  have hanswered : ((serveEffects 0).filter (Effect.answersDelegate 0)).length = 1 := rfl
  simp only [filter_append, length_append, hanswered]
  omega

/-- A caller cancels, and the next command is taken in a turn that cannot report it. -/
def droppedCommand : List (DriverAction × World) :=
  [(.command (.openSession hostSession 0 0 0), {}), (.callers [.cancel 0], {}),
    (.command (.openSession ⟨['t'], 1⟩ 0 0 1), { queue := [some .full] })]

/-- The host can have an identifier answered twice, and a command can go without an answer. -/
theorem delegate_answered_twice_and_command_dropped :
    (∃ acts task id, run step {} acts = some task ∧
      2 ≤ (task.driver.effects.filter (Effect.answersDelegate id)).length) ∧
    ∃ acts task caller, run step {} acts = some task ∧ task.stopped = true ∧
      caller ∈ task.driver.taken ∧ caller ∉ task.driver.cancelled ∧
      caller ∉ task.driver.dropped ∧ task.driver.answersTo caller = [] := by
  constructor
  · obtain ⟨task, hrun, hanswered⟩ := run_reuse rfl
    exact ⟨_, task, 0, hrun, hanswered⟩
  · have hevaluated : ((run step {} droppedCommand).any fun task =>
        task.stopped && decide (1 ∈ task.driver.taken) &&
        decide (1 ∉ task.driver.cancelled) && decide (1 ∉ task.driver.dropped) &&
        decide (task.driver.answersTo 1 = [])) = true := by decide +kernel
    obtain ⟨task, hrun, hcheck⟩ := (Option.any_eq_true _ _).1 hevaluated
    simp only [Bool.and_eq_true, decide_eq_true_eq] at hcheck
    obtain ⟨⟨⟨⟨hstopped, htaken⟩, hcancelled⟩, hdropped⟩, hanswers⟩ := hcheck
    exact ⟨droppedCommand, task, 1, hrun, hstopped, htaken, hcancelled, hdropped, hanswers⟩

end Codex.HostConnection
