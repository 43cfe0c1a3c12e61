import Codex.CodeMode.CellState

/-!
# The actor of a cell

`run_cell` (`code-mode/src/cell_actor/mod.rs`): one task takes the events of the
runtime, the observations of the cell, its yield timer and its cancellation, in any
order, and moves the content of the cell into the events it sends. An event whose
observer has gone is put back. Nothing of the content is lost or repeated
(`cell_content_exact`).
-/

namespace Codex.CodeMode

open List Codex.Text

/-! ## The actor's state -/

inductive RuntimeEvent where
  | started
  | pending
  | contentItem (item : OutputItem)
  | yieldRequested
  | notify
  | toolCall (id : Str)
  | result (storedValueWrites : List (Str × Str)) (errorText : Option Str)
  | threadPanicked
  deriving DecidableEq

/-- What the actor tells the runtime. -/
inductive RuntimeSignal where
  | «continue»
  | resume
  | observePendingFrontier
  | terminate
  deriving DecidableEq

structure Observer where
  mode : ObserveMode
  receiver : ℕ
  deriving DecidableEq

/-- Where the actor is: in its loop, or at one of the awaits inside a branch of it. Other tasks may
call the cell's state in between. -/
inductive CellStage where
  | looping
  /-- The callbacks are drained and the host is asked to commit. -/
  | committing (event : CellEvent) (storedValueWrites : List (Str × Str))
  /-- In front of `deliver_completion`. -/
  | committed (rejectedEvent : Option CellEvent)
  /-- The delivery was rejected; in front of `finish_termination`. -/
  | rejected (observer : Option Observer) (contentItems : List OutputItem)
  /-- The callbacks are cancelled; in front of `finish_termination`. -/
  | finishing
  | ended
  | closed
  deriving DecidableEq

/-- The locals of `run_cell`, the state of the cell, and outside of the actor what was sent to the
runtime, what the runtime has emitted, what the callers have received, the stored values, and the
terminal event that the cell has ended with. -/
structure CellRun where
  state : CellState := {}
  stage : CellStage := .looping
  contentItems : List OutputItem := []
  pendingToolCallIds : List Str := []
  pendingFrontierReady : Bool := false
  observer : Option Observer
  termination : Bool := false
  runtimeClosed : Bool := false
  runtimePaused : Bool := false
  yieldTimer : Bool := false
  commandRx : Bool := true
  signals : List RuntimeSignal := []
  emitted : List OutputItem := []
  calls : ℕ := 0
  delivered : List Delivery := []
  storedValues : List (Str × Str) := []
  outcome : Option CellEvent := none
  deriving DecidableEq

inductive CellStep where
  | cancelSession
  | terminate
  /-- The branch of the loop for the cancelled token. -/
  | seeCancelled
  /-- An observation: whether its receiver has gone when it is taken up, whether it is there when
  something is sent, and whether the receiver of the current observer has gone. -/
  | observe (observer : Observer) (isClosed isOpen observerClosed : Bool)
  /-- All handles of the cell have been dropped. -/
  | commandsEnd
  | yieldElapsed (isOpen : Bool)
  | runtimeEvent (event : RuntimeEvent) (isOpen : Bool)
  | runtimeEnd
  | commit
  | deliver (isOpen : Bool)
  | finish (isOpen callerWaits : Bool)
  | close
  deriving DecidableEq

/-! ## Sending and putting back -/

def Observer.sender (observer : Observer) (isOpen : Bool) : ResponseSender :=
  ⟨observer.receiver, isOpen⟩

/-- The event comes back if it could not be sent. -/
def sendCellEvent (responseTx : ResponseSender) (event : CellEvent) :
    Except CellEvent (List Delivery) :=
  if responseTx.isOpen then .ok (responseTx.send (.ok event)) else .error event

def sendObserverEvent (observer : Option Observer) (isOpen : Bool) (event : CellEvent) :
    Except CellEvent (List Delivery) :=
  match observer with
  | none => .error event
  | some observer => sendCellEvent (observer.sender isOpen) event

def restoreUndeliveredYield (delivery : Except CellEvent (List Delivery))
    (contentItems : List OutputItem) : List OutputItem :=
  match delivery with
  | .ok _ => contentItems
  | .error event => event.contentItems ++ contentItems

def rejectedCompletionContent : Option CellEvent → List OutputItem
  | some event => event.contentItems
  | none => []

def deliveries : Except CellEvent (List Delivery) → List Delivery
  | .ok deliveries => deliveries
  | .error _ => []

def observerTimer (observer : Option Observer) : Bool :=
  match observer with
  | some ⟨.yieldAfter _, _⟩ => true
  | _ => false

namespace CellRun

/-- `Yielded` to the observer, who is taken. -/
def yield (s : CellRun) (isOpen : Bool) : CellRun :=
  let delivery := sendObserverEvent s.observer isOpen (.yielded s.contentItems)
  { s with
    yieldTimer := false
    observer := none
    contentItems := restoreUndeliveredYield delivery []
    delivered := s.delivered ++ deliveries delivery }

/-- `Pending`, with what comes back if it could not be sent. -/
def sendPending (s : CellRun) (delivery : Except CellEvent (List Delivery)) : CellRun :=
  match delivery with
  | .ok deliveries =>
    { s with
      pendingFrontierReady := false
      contentItems := []
      pendingToolCallIds := []
      delivered := s.delivered ++ deliveries }
  | .error (.pending undeliveredItems undeliveredToolCallIds) =>
    { s with
      pendingFrontierReady := true
      contentItems := undeliveredItems
      pendingToolCallIds := undeliveredToolCallIds }
  -- The event that comes back is the one that was sent.
  | .error _ => s

def beginTermination (s : CellRun) : CellRun :=
  { s with
    state := { s.state with isCancelled := true }
    signals := s.signals ++ [.terminate] }

def resumeForObservation (s : CellRun) (mode : ObserveMode) : CellRun :=
  if s.runtimePaused then
    let control := match mode with
      | .yieldAfter _ => .continue
      | .pendingFrontier => .resume
    { s with runtimePaused := false, signals := s.signals ++ [control] }
  else if mode = .pendingFrontier then
    { s with signals := s.signals ++ [.observePendingFrontier] }
  else s

/-- An observer whose receiver has gone does not keep others out. -/
def dropClosedObserver (s : CellRun) (observerClosed : Bool) : CellRun :=
  if s.observer.isSome && observerClosed then { s with observer := none, yieldTimer := false } else s

def startObservation (s : CellRun) (observer : Observer) : CellRun :=
  if s.runtimePaused && observer.mode ≠ .pendingFrontier then
    { s with
      observer := some observer
      yieldTimer := observerTimer (some observer)
      pendingFrontierReady := false
      pendingToolCallIds := [] }
  else { s with observer := some observer, yieldTimer := observerTimer (some observer) }

/-- An observation that finds the cell running. -/
def observeRunning (s : CellRun) (observer : Observer) (isOpen : Bool) : CellRun :=
  if s.observer.isSome || s.termination then
    { s with delivered := s.delivered ++ (observer.sender isOpen).send (.error .busy) }
  else if observer.mode = .pendingFrontier ∧ s.pendingFrontierReady then
    s.sendPending (sendCellEvent (observer.sender isOpen)
      (.pending s.contentItems s.pendingToolCallIds))
  else (s.startObservation observer).resumeForObservation observer.mode

def observe (s : CellRun) (observer : Observer) (isOpen observerClosed : Bool) : CellRun :=
  let (state, delivery, deliveries) :=
    s.state.routeObservation observer.mode (observer.sender isOpen)
  let routed := { s with state := state, delivered := s.delivered ++ deliveries }
  match delivery with
  | .running _ => (routed.dropClosedObserver observerClosed).observeRunning observer isOpen
  | .delivered =>
    { routed with
      stage := .ended
      outcome := match s.state.phase with
        | .completed pendingItems event => some (prependInitialYield event pendingItems)
        | _ => s.outcome }
  | .buffered | .closed => routed

def isYieldObserver (observer : Option Observer) : Bool :=
  match observer with
  | some ⟨.yieldAfter _, _⟩ => true
  | _ => false

def isPendingObserver (observer : Option Observer) : Bool :=
  match observer with
  | some ⟨.pendingFrontier, _⟩ => true
  | _ => false

/-- The runtime has ended, with or without a result. -/
def complete (s : CellRun) (storedValueWrites : List (Str × Str)) (errorText : Option Str) : CellRun :=
  if s.termination || s.state.isCancelled then
    { s with runtimeClosed := true, stage := .finishing }
  else
    { s with
      runtimeClosed := true
      contentItems := []
      stage := .committing (.completed s.contentItems errorText) storedValueWrites }

def handle (s : CellRun) (isOpen : Bool) : RuntimeEvent → CellRun
  | .started => { s with yieldTimer := observerTimer s.observer }
  | .pending =>
    let s := { s with runtimePaused := true }
    if isPendingObserver s.observer then
      let delivery :=
        sendObserverEvent s.observer isOpen (.pending s.contentItems s.pendingToolCallIds)
      { s with yieldTimer := false, observer := none }.sendPending delivery
    else
      { s with
        pendingToolCallIds := []
        signals := s.signals ++ [.continue]
        runtimePaused := false }
  | .contentItem item =>
    { s with contentItems := s.contentItems ++ [item], emitted := s.emitted ++ [item] }
  | .yieldRequested => if isYieldObserver s.observer then s.yield isOpen else s
  | .notify => s
  | .toolCall id => { s with pendingToolCallIds := s.pendingToolCallIds ++ [id] }
  | .result storedValueWrites errorText =>
    { s with yieldTimer := false }.complete storedValueWrites errorText
  | .threadPanicked => s

/-- `host.commit_completion` and the state's. -/
def commit (s : CellRun) (event : CellEvent) (storedValueWrites : List (Str × Str)) : CellRun :=
  match s.state.commitCompletion event none with
  | (state, .committed) =>
    { s with
      state := state
      stage := .committed none
      storedValues := s.storedValues ++ storedValueWrites }
  | (state, .rejected event) => { s with state := state, stage := .committed (some event) }

def deliver (s : CellRun) (rejectedEvent : Option CellEvent) (isOpen : Bool) : CellRun :=
  let (state, delivery, deliveries) :=
    s.state.deliverCompletion (s.observer.map fun observer => observer.sender isOpen)
  let sent := { s with state := state, observer := none, delivered := s.delivered ++ deliveries }
  match delivery with
  | .delivered =>
    { sent with
      stage := .ended
      outcome := match s.state.phase with
        | .completed _ event => some event
        | _ => s.outcome }
  | .buffered => { sent with stage := .looping }
  | .rejected _ =>
    { sent with stage := .rejected s.observer (rejectedCompletionContent rejectedEvent) }

/-- `finish_termination`, and out of the loop. -/
def finishWith (s : CellRun) (observer : Option Observer) (isOpen callerWaits : Bool)
    (event : CellEvent) : CellRun :=
  let (state, outcome, deliveries) :=
    finishTermination s.state (observer.map fun observer => observer.sender isOpen) event callerWaits
  { s with
    state := state
    stage := .ended
    observer := none
    contentItems := []
    delivered := s.delivered ++ deliveries
    outcome := outcome.or s.outcome }

def step (s : CellRun) : CellStep → Option CellRun
  | .cancelSession => some { s with state := { s.state with isCancelled := true } }
  | .terminate =>
    let (state, answer) := s.state.requestTermination s.calls
    some { s with
      state := state
      calls := s.calls + 1
      delivered := s.delivered ++ (answer.map fun result => (.terminator s.calls, result)).toList
      outcome := match answer with
        | some (.ok event) => some event
        | _ => s.outcome }
  | .seeCancelled =>
    if s.stage = .looping ∧ s.state.isCancelled ∧ s.termination = false then
      let s := { s with termination := true, yieldTimer := false, commandRx := false }.beginTermination
      some (if s.runtimeClosed then { s with stage := .finishing } else s)
    else none
  | .observe observer isClosed isOpen observerClosed =>
    if s.stage = .looping ∧ s.commandRx then
      some (if isClosed then s else s.observe observer isOpen observerClosed)
    else none
  | .commandsEnd =>
    if s.stage = .looping ∧ s.commandRx then
      some { s with state := { s.state with isCancelled := true } }
    else none
  | .yieldElapsed isOpen =>
    if s.stage = .looping ∧ s.yieldTimer then some (s.yield isOpen) else none
  | .runtimeEvent event isOpen =>
    if s.stage = .looping ∧ s.runtimeClosed = false then some (s.handle isOpen event) else none
  | .runtimeEnd =>
    if s.stage = .looping ∧ s.runtimeClosed = false then
      some (s.complete [] (some "exec runtime ended unexpectedly".toList))
    else none
  | .commit =>
    match s.stage with
    | .committing event storedValueWrites => some (s.commit event storedValueWrites)
    | _ => none
  | .deliver isOpen =>
    match s.stage with
    | .committed rejectedEvent => some (s.deliver rejectedEvent isOpen)
    | _ => none
  | .finish isOpen callerWaits =>
    match s.stage with
    | .rejected observer contentItems =>
      some (s.finishWith observer isOpen callerWaits (.terminated contentItems))
    | .finishing => some (s.finishWith s.observer isOpen callerWaits (.terminated s.contentItems))
    | _ => none
  | .close =>
    if s.stage = .ended then
      let (state, deliveries) := s.state.tombstone
      some { s with state := state, stage := .closed, delivered := s.delivered ++ deliveries }.beginTermination
    else none

end CellRun

/-! ## Where the content is -/

section Runs

variable {s t : CellRun} {content : List OutputItem} {event : CellEvent} {phase : CellPhase}

/-- The content of the accepted events that are not terminal, in the order of their delivery. -/
def acceptedContent (delivered : List Delivery) : List OutputItem :=
  delivered.flatMap fun delivery =>
    match delivery.2 with
    | .ok event => if event.isTerminal then [] else event.contentItems
    | .error _ => []

theorem acceptedContent_append (delivered more : List Delivery) :
    acceptedContent (delivered ++ more) = acceptedContent delivered ++ acceptedContent more :=
  flatMap_append

theorem acceptedContent_error (responseTx : ResponseSender) (error : CellError) :
    acceptedContent (responseTx.send (.error error)) = [] := by
  unfold ResponseSender.send
  split <;> rfl

theorem acceptedContent_terminal (responseTx : ResponseSender) (hterminal : event.isTerminal = true) :
    acceptedContent (responseTx.send (.ok event)) = [] := by
  unfold ResponseSender.send
  split
  · simp [acceptedContent, hterminal]
  · rfl

/-- Neither committed nor over. -/
def CellPhase.Undone : CellPhase → Prop
  | .running | .terminating _ => True
  | _ => False

/-- Committed with this event. -/
def CellPhase.Done (event : CellEvent) : CellPhase → Prop
  | .completed none event' => event' = event ∧ event.isCompleted = true
  | .completionClaimed event' => event' = event ∧ event.isCompleted = true
  | _ => False

/-- The content that has not been accepted yet is with the actor, or in the event that the cell has
been committed with, or in its outcome. -/
def CellRun.Keeps (s : CellRun) (content : List OutputItem) : Prop :=
  match s.stage with
  | .looping =>
    (s.runtimeClosed = false ∧ s.state.phase.Undone ∧ s.contentItems = content) ∨
    (s.runtimeClosed = true ∧ s.contentItems = [] ∧
      ∃ event, s.state.phase.Done event ∧ event.contentItems = content)
  | .committing event _ =>
    s.runtimeClosed = true ∧ s.state.phase.Undone ∧ s.contentItems = [] ∧
      event.isCompleted = true ∧ event.contentItems = content
  | .committed none =>
    s.runtimeClosed = true ∧ s.contentItems = [] ∧
      ∃ event, s.state.phase.Done event ∧ event.contentItems = content
  | .committed (some event) =>
    s.runtimeClosed = true ∧ s.state.phase.Undone ∧ event.contentItems = content
  | .rejected _ contentItems =>
    s.runtimeClosed = true ∧ ((s.state.phase.Undone ∧ contentItems = content) ∨
      ∃ event, s.state.phase.Done event ∧ event.contentItems = content)
  | .finishing =>
    s.runtimeClosed = true ∧ ((s.state.phase.Undone ∧ s.contentItems = content) ∨
      ∃ event, s.state.phase.Done event ∧ event.contentItems = content)
  | .ended | .closed =>
    s.runtimeClosed = true ∧ s.state.phase = .tombstone ∧
      ∃ event, s.outcome = some event ∧ event.contentItems = content

/-- Until the completion is claimed or over there is no outcome. -/
def CellPhase.Decides (outcome : Option CellEvent) : CellPhase → Prop
  | .running | .terminating _ | .completed _ _ => outcome = none
  | .completionClaimed event => outcome = some event
  | .tombstone => True

structure CellRun.Sound (s : CellRun) (content : List OutputItem) : Prop where
  keeps : s.Keeps content
  exact : acceptedContent s.delivered ++ content = s.emitted
  agrees : ∀ caller event, (caller, .ok event) ∈ s.delivered → event.isTerminal = true →
    s.outcome = some event
  decides : s.state.phase.Decides s.outcome
  terminal : ∀ event, s.outcome = some event → event.isTerminal = true

variable {deliveries : List Delivery} {pendingItems : Option (List OutputItem)}

theorem CellRun.Sound.agrees_append (h : s.Sound content) (hinterim : Undecided deliveries)
    (caller : Caller) (event : CellEvent) (hmem : (caller, .ok event) ∈ s.delivered ++ deliveries)
    (hterminal : event.isTerminal = true) : s.outcome = some event := by
  rcases mem_append.1 hmem with hold | hnew
  · exact h.agrees caller event hold hterminal
  · rw [hinterim caller event hnew] at hterminal
    cases hterminal

theorem interim_send (responseTx : ResponseSender) {result : CellResult}
    (h : ∀ event, result = .ok event → event.isTerminal = false) : Undecided (responseTx.send result) :=
  fun _ event hmem => h event (mem_send hmem).2.symm

/-- What is sent is accepted or comes back. -/
theorem sendCellEvent_content (responseTx : ResponseSender) (event : CellEvent)
    (hinterim : event.isTerminal = false) :
    (∃ ds, sendCellEvent responseTx event = .ok ds ∧ acceptedContent ds = event.contentItems ∧
      Undecided ds) ∨ sendCellEvent responseTx event = .error event := by
  unfold sendCellEvent
  split
  · next hopen =>
    refine .inl ⟨_, rfl, ?_, interim_send responseTx fun event' heq => ?_⟩
    · unfold ResponseSender.send
      rw [if_pos hopen]
      simp [acceptedContent, hinterim]
    · cases heq
      exact hinterim
  · exact .inr rfl

theorem sendObserverEvent_content (observer : Option Observer) (isOpen : Bool) (event : CellEvent)
    (hinterim : event.isTerminal = false) :
    (∃ ds, sendObserverEvent observer isOpen event = .ok ds ∧
      acceptedContent ds = event.contentItems ∧ Undecided ds) ∨
    sendObserverEvent observer isOpen event = .error event := by
  cases observer with
  | none => exact .inr rfl
  | some observer => exact sendCellEvent_content (observer.sender isOpen) event hinterim

/-! ## The loop while the runtime goes on -/

/-- The runtime goes on, and the actor holds all that was not accepted. -/
structure CellRun.Open (s : CellRun) : Prop where
  stage : s.stage = .looping
  runtimeOpen : s.runtimeClosed = false
  undone : s.state.phase.Undone
  exact : acceptedContent s.delivered ++ s.contentItems = s.emitted
  undecided : s.outcome = none
  interim : Undecided s.delivered

theorem CellPhase.Undone.decides (h : phase.Undone) {outcome : Option CellEvent} :
    phase.Decides outcome ↔ outcome = none := by
  cases phase with
  | running => exact Iff.rfl
  | terminating call => exact Iff.rfl
  | _ => exact h.elim

theorem CellRun.Sound.interim (h : s.Sound content) (hnone : s.outcome = none) :
    Undecided s.delivered := by
  intro caller event hmem
  rw [← Bool.not_eq_true]
  intro hterminal
  have hsome := h.agrees caller event hmem hterminal
  rw [hnone] at hsome
  cases hsome

theorem CellRun.Open.sound (h : s.Open) : s.Sound s.contentItems where
  keeps := by
    unfold CellRun.Keeps
    rw [h.stage]
    exact .inl ⟨h.runtimeOpen, h.undone, rfl⟩
  exact := h.exact
  agrees := by
    intro caller event hmem hterminal
    rw [h.interim caller event hmem] at hterminal
    cases hterminal
  decides := h.undone.decides.2 h.undecided
  terminal := by
    intro event hsome
    rw [h.undecided] at hsome
    cases hsome

theorem CellRun.Sound.open (h : s.Sound content) (hstage : s.stage = .looping)
    (hopen : s.runtimeClosed = false) : s.Open := by
  have hkeeps := h.keeps
  unfold CellRun.Keeps at hkeeps
  rw [hstage] at hkeeps
  rcases hkeeps with ⟨-, hundone, hcontent⟩ | ⟨hclosed, -⟩
  · have hnone := hundone.decides.1 h.decides
    exact ⟨hstage, hopen, hundone, hcontent ▸ h.exact, hnone, h.interim hnone⟩
  · rw [hopen] at hclosed
    cases hclosed

/-- Content that is accepted leaves the actor. -/
theorem CellRun.Open.accept (h : s.Open) (haccepted : acceptedContent deliveries = s.contentItems)
    (hinterim : Undecided deliveries) :
    acceptedContent (s.delivered ++ deliveries) ++ [] = s.emitted ∧
      Undecided (s.delivered ++ deliveries) := by
  refine ⟨?_, fun caller event hmem => ?_⟩
  · rw [acceptedContent_append, haccepted, append_nil]
    exact h.exact
  · rcases mem_append.1 hmem with hold | hnew
    · exact h.interim caller event hold
    · exact hinterim caller event hnew

theorem CellRun.Open.yield (h : s.Open) (isOpen : Bool) : (s.yield isOpen).Open := by
  have hsend := sendObserverEvent_content s.observer isOpen (.yielded s.contentItems) rfl
  unfold CellRun.yield
  rcases hsend with ⟨ds, hok, haccepted, hinterim⟩ | herror
  · rw [hok]
    obtain ⟨hexact, hinterim'⟩ := h.accept haccepted hinterim
    exact ⟨h.stage, h.runtimeOpen, h.undone, hexact, h.undecided, hinterim'⟩
  · rw [herror]
    refine ⟨h.stage, h.runtimeOpen, h.undone, ?_, h.undecided, ?_⟩
    · show acceptedContent (s.delivered ++ []) ++ (s.contentItems ++ []) = s.emitted
      rw [append_nil, append_nil]
      exact h.exact
    · show Undecided (s.delivered ++ [])
      rw [append_nil]
      exact h.interim

theorem CellRun.Open.sendPending (h : s.Open) {delivery : Except CellEvent (List Delivery)}
    {ids : List Str}
    (hdelivery : (∃ ds, delivery = .ok ds ∧ acceptedContent ds = s.contentItems ∧ Undecided ds) ∨
      delivery = .error (.pending s.contentItems ids)) : (s.sendPending delivery).Open := by
  rcases hdelivery with ⟨ds, rfl, haccepted, hinterim⟩ | rfl
  · obtain ⟨hexact, hinterim'⟩ := h.accept haccepted hinterim
    exact ⟨h.stage, h.runtimeOpen, h.undone, hexact, h.undecided, hinterim'⟩
  · exact ⟨h.stage, h.runtimeOpen, h.undone, h.exact, h.undecided, h.interim⟩

theorem CellRun.Open.resumeForObservation (h : s.Open) (mode : ObserveMode) :
    (s.resumeForObservation mode).Open := by
  unfold CellRun.resumeForObservation
  split
  · exact ⟨h.stage, h.runtimeOpen, h.undone, h.exact, h.undecided, h.interim⟩
  · split
    · exact ⟨h.stage, h.runtimeOpen, h.undone, h.exact, h.undecided, h.interim⟩
    · exact h

theorem CellRun.Open.sendError (h : s.Open) (responseTx : ResponseSender) (error : CellError) :
    { s with delivered := s.delivered ++ responseTx.send (.error error) }.Open := by
  refine ⟨h.stage, h.runtimeOpen, h.undone, ?_, h.undecided, fun caller event hmem => ?_⟩
  · show acceptedContent (s.delivered ++ _) ++ _ = _
    rw [acceptedContent_append, acceptedContent_error, append_nil]
    exact h.exact
  · rcases mem_append.1 hmem with hold | hnew
    · exact h.interim caller event hold
    · cases (mem_send hnew).2

theorem CellRun.Open.dropClosedObserver (h : s.Open) (observerClosed : Bool) :
    (s.dropClosedObserver observerClosed).Open := by
  unfold CellRun.dropClosedObserver
  split
  · exact ⟨h.stage, h.runtimeOpen, h.undone, h.exact, h.undecided, h.interim⟩
  · exact h

theorem CellRun.Open.startObservation (h : s.Open) (observer : Observer) :
    (s.startObservation observer).Open := by
  unfold CellRun.startObservation
  split
  · exact ⟨h.stage, h.runtimeOpen, h.undone, h.exact, h.undecided, h.interim⟩
  · exact ⟨h.stage, h.runtimeOpen, h.undone, h.exact, h.undecided, h.interim⟩

theorem CellRun.Open.observeRunning (h : s.Open) (observer : Observer) (isOpen : Bool) :
    (s.observeRunning observer isOpen).Open := by
  unfold CellRun.observeRunning
  split
  · exact h.sendError (observer.sender isOpen) .busy
  · split
    · exact h.sendPending (sendCellEvent_content (observer.sender isOpen) _ rfl)
    · exact (h.startObservation observer).resumeForObservation observer.mode

theorem CellRun.Open.handle (h : s.Open) (isOpen : Bool) {runtimeEvent : RuntimeEvent}
    (hresult : ∀ writes errorText, runtimeEvent ≠ .result writes errorText) :
    (s.handle isOpen runtimeEvent).Open := by
  cases runtimeEvent with
  | result writes errorText => exact absurd rfl (hresult writes errorText)
  | pending =>
    unfold CellRun.handle
    dsimp only
    split
    · have htaken : { s with runtimePaused := true, yieldTimer := false, observer := none }.Open :=
        ⟨h.stage, h.runtimeOpen, h.undone, h.exact, h.undecided, h.interim⟩
      exact htaken.sendPending (sendObserverEvent_content s.observer isOpen _ rfl)
    · exact ⟨h.stage, h.runtimeOpen, h.undone, h.exact, h.undecided, h.interim⟩
  | contentItem item =>
    refine ⟨h.stage, h.runtimeOpen, h.undone, ?_, h.undecided, h.interim⟩
    show acceptedContent s.delivered ++ (s.contentItems ++ [item]) = s.emitted ++ [item]
    rw [← List.append_assoc, h.exact]
  | yieldRequested =>
    unfold CellRun.handle
    dsimp only
    split
    · exact h.yield isOpen
    · exact h
  | _ => exact ⟨h.stage, h.runtimeOpen, h.undone, h.exact, h.undecided, h.interim⟩

theorem CellRun.Open.complete (h : s.Open) (writes : List (Str × Str)) (errorText : Option Str) :
    (s.complete writes errorText).Sound s.contentItems := by
  have hsound := h.sound
  unfold CellRun.complete
  split
  · exact ⟨⟨rfl, .inl ⟨h.undone, rfl⟩⟩, h.exact, hsound.agrees, hsound.decides, hsound.terminal⟩
  · exact ⟨⟨rfl, h.undone, rfl, rfl, rfl⟩, h.exact, hsound.agrees, hsound.decides, hsound.terminal⟩

/-! ## The end of the cell -/

theorem CellPhase.Done.isCompleted (h : phase.Done event) : event.isCompleted = true := by
  cases phase with
  | completed pendingItems event' =>
    cases pendingItems with
    | none => exact h.2
    | some pendingItems => exact h.elim
  | completionClaimed event' => exact h.2
  | _ => exact h.elim

/-- A stage of the actor reads the phase only up to who has claimed it. -/
theorem CellRun.Keeps.rephase (h : s.Keeps content) {state : CellState} {calls : ℕ}
    {delivered : List Delivery} {outcome : Option CellEvent}
    (hundone : s.state.phase.Undone → state.phase.Undone)
    (hdone : ∀ event, s.state.phase.Done event → state.phase.Done event)
    (hover : s.state.phase = .tombstone → state.phase = .tombstone ∧ outcome = s.outcome) :
    { s with state := state, calls := calls, delivered := delivered, outcome := outcome }.Keeps
      content := by
  have hdone' : (∃ event, s.state.phase.Done event ∧ event.contentItems = content) →
      ∃ event, state.phase.Done event ∧ event.contentItems = content :=
    fun ⟨event, hevent, hcontent⟩ => ⟨event, hdone event hevent, hcontent⟩
  unfold CellRun.Keeps at h ⊢
  revert h
  dsimp only
  split
  · rintro (⟨hopen, hphase, hcontent⟩ | ⟨hclosed, hempty, hphase⟩)
    · exact .inl ⟨hopen, hundone hphase, hcontent⟩
    · exact .inr ⟨hclosed, hempty, hdone' hphase⟩
  · rintro ⟨hclosed, hphase, hrest⟩
    exact ⟨hclosed, hundone hphase, hrest⟩
  · rintro ⟨hclosed, hempty, hphase⟩
    exact ⟨hclosed, hempty, hdone' hphase⟩
  · rintro ⟨hclosed, hphase, hrest⟩
    exact ⟨hclosed, hundone hphase, hrest⟩
  · rintro ⟨hclosed, hphase⟩
    exact ⟨hclosed, hphase.imp (fun hp => ⟨hundone hp.1, hp.2⟩) hdone'⟩
  · rintro ⟨hclosed, hphase⟩
    exact ⟨hclosed, hphase.imp (fun hp => ⟨hundone hp.1, hp.2⟩) hdone'⟩
  · rintro ⟨hclosed, hphase, hrest⟩
    obtain ⟨hover', houtcome⟩ := hover hphase
    exact ⟨hclosed, hover', houtcome ▸ hrest⟩
  · rintro ⟨hclosed, hphase, hrest⟩
    obtain ⟨hover', houtcome⟩ := hover hphase
    exact ⟨hclosed, hover', houtcome ▸ hrest⟩

theorem CellRun.Keeps.phase_cases (h : s.Keeps content) : s.state.phase.Undone ∨
    (∃ event, s.state.phase.Done event ∧ event.contentItems = content) ∨
    s.state.phase = .tombstone := by
  unfold CellRun.Keeps at h
  split at h
  · exact h.elim (fun h => .inl h.2.1) fun h => .inr (.inl h.2.2)
  · exact .inl h.2.1
  · exact .inr (.inl h.2.2)
  · exact .inl h.2.1
  · exact h.2.elim (fun h => .inl h.1) fun h => .inr (.inl h)
  · exact h.2.elim (fun h => .inl h.1) fun h => .inr (.inl h)
  · exact .inr (.inr h.2.1)
  · exact .inr (.inr h.2.1)

/-- Errors carry no content and decide nothing. -/
theorem CellRun.Sound.sendErrors (h : s.Sound content) {errors : List Delivery} {calls : ℕ}
    (herrors : ∀ delivery ∈ errors, ∃ error, delivery.2 = .error error) :
    { s with calls := calls, delivered := s.delivered ++ errors }.Sound content := by
  refine ⟨h.keeps.rephase id (fun _ => id) (fun hover => ⟨hover, rfl⟩), ?_, ?_, h.decides, h.terminal⟩
  · have hnothing : acceptedContent errors = [] := by
      unfold acceptedContent
      rw [flatMap_eq_nil_iff]
      intro delivery hmem
      obtain ⟨error, herror⟩ := herrors delivery hmem
      rw [herror]
    show acceptedContent (s.delivered ++ errors) ++ content = s.emitted
    rw [acceptedContent_append, hnothing, append_nil]
    exact h.exact
  · refine h.agrees_append fun caller event hmem => ?_
    obtain ⟨error, herror⟩ := herrors _ hmem
    cases herror

theorem CellPhase.Done.eq_of_completed {event' : CellEvent}
    (h : (completed pendingItems event').Done event) :
    pendingItems = none ∧ event' = event := by
  cases pendingItems with
  | none => exact ⟨rfl, h.1⟩
  | some pendingItems => exact h.elim

/-- The event of a committed cell becomes its outcome as it is delivered. -/
theorem CellRun.Sound.agrees_outcome (h : s.Sound content) (hnone : s.outcome = none)
    (hdeliveries : ∀ caller event', (caller, .ok event') ∈ deliveries → event' = event)
    (caller : Caller) (event' : CellEvent) (hmem : (caller, .ok event') ∈ s.delivered ++ deliveries)
    (hterminal : event'.isTerminal = true) : some event = some event' := by
  rcases mem_append.1 hmem with hold | hnew
  · rw [h.interim hnone caller event' hold] at hterminal
    cases hterminal
  · rw [hdeliveries caller event' hnew]

theorem CellRun.Sound.terminate (h : s.Sound content) (hstep : s.step .terminate = some t) :
    t.Sound content := by
  have hdecides := h.decides
  simp only [CellRun.step, CellState.requestTermination] at hstep
  cases hphase : s.state.phase with
  | running =>
    rw [hphase] at hstep hdecides
    cases hstep
    rw [Option.map_none, Option.toList_none, append_nil]
    refine ⟨h.keeps.rephase (fun _ => trivial) (fun event hdone => ?_) (fun hover => ?_), h.exact,
      h.agrees, hdecides, h.terminal⟩
    · rw [hphase] at hdone
      exact hdone.elim
    · rw [hphase] at hover
      cases hover
  | completed pendingItems event =>
    rw [hphase] at hstep hdecides
    obtain ⟨event', hdone⟩ : ∃ event', s.state.phase.Done event' := by
      rcases h.keeps.phase_cases with hundone | ⟨event', hdone, -⟩ | hover
      · rw [hphase] at hundone
        exact hundone.elim
      · exact ⟨event', hdone⟩
      · rw [hphase] at hover
        cases hover
    have hcompleted := hdone.isCompleted
    rw [hphase] at hdone
    obtain ⟨rfl, rfl⟩ := hdone.eq_of_completed
    cases hstep
    -- The call claims the event, which becomes the outcome.
    refine ⟨h.keeps.rephase (fun hundone => ?_) (fun event' hevent' => ?_) (fun hover => ?_), ?_,
      h.agrees_outcome hdecides fun caller event' hmem => ?_, rfl, fun event' heq => ?_⟩
    · rw [hphase] at hundone
      exact hundone.elim
    · rw [hphase] at hevent'
      exact hevent'
    · rw [hphase] at hover
      cases hover
    · show acceptedContent (s.delivered ++ [(.terminator s.calls, .ok event)]) ++ content = s.emitted
      have hnothing : acceptedContent [(.terminator s.calls, .ok event)] = [] := by
        simp [acceptedContent, isTerminal_of_isCompleted hcompleted]
      rw [acceptedContent_append, hnothing, append_nil]
      exact h.exact
    · cases mem_singleton.1 hmem
      rfl
    · cases heq
      exact isTerminal_of_isCompleted hcompleted
  | terminating call | completionClaimed event | tombstone =>
    rw [hphase] at hstep
    cases hstep
    refine h.sendErrors fun delivery hmem => ?_
    cases mem_singleton.1 hmem
    exact ⟨_, rfl⟩

/-- The phase of a cell that is completed and not claimed. -/
theorem CellRun.Sound.completed (h : s.Sound content)
    (hphase : s.state.phase = .completed pendingItems event) :
    pendingItems = none ∧ event.isCompleted = true ∧ event.contentItems = content ∧
      s.outcome = none := by
  have hdecides := h.decides
  rw [hphase] at hdecides
  rcases h.keeps.phase_cases with hundone | ⟨event', hdone, hcontent⟩ | hover
  · rw [hphase] at hundone
    exact hundone.elim
  · have hcompleted := hdone.isCompleted
    rw [hphase] at hdone
    obtain ⟨rfl, rfl⟩ := hdone.eq_of_completed
    exact ⟨rfl, hcompleted, hcontent, hdecides⟩
  · rw [hphase] at hover
    cases hover

/-- A completion that an observer takes ends the cell. -/
theorem CellRun.Sound.deliverEvent (h : s.Sound content) (hclosed : s.runtimeClosed = true)
    (hcompleted : event.isCompleted = true) (hcontent : event.contentItems = content)
    (hnone : s.outcome = none) (responseTx : ResponseSender) (observer : Option Observer) :
    { s with
      state := ⟨.tombstone, true⟩
      stage := .ended
      observer := observer
      delivered := s.delivered ++ responseTx.send (.ok event)
      outcome := some event }.Sound content := by
  have hterminal := isTerminal_of_isCompleted hcompleted
  refine ⟨⟨hclosed, rfl, event, rfl, hcontent⟩, ?_, ?_, trivial, fun event' heq => ?_⟩
  · show acceptedContent (s.delivered ++ _) ++ content = s.emitted
    rw [acceptedContent_append, acceptedContent_terminal responseTx hterminal, append_nil]
    exact h.exact
  · refine h.agrees_outcome hnone fun caller event' hmem => ?_
    exact Except.ok.inj (mem_send hmem).2
  · cases heq
    exact hterminal

theorem CellRun.Sound.looping_closed (h : s.Sound content) (hstage : s.stage = .looping)
    (hdone : ¬ s.state.phase.Undone) : s.runtimeClosed = true := by
  have hkeeps := h.keeps
  unfold CellRun.Keeps at hkeeps
  rw [hstage] at hkeeps
  rcases hkeeps with ⟨-, hundone, -⟩ | ⟨hclosed, -⟩
  · exact absurd hundone hdone
  · exact hclosed

theorem CellRun.Sound.observe (h : s.Sound content) (hstage : s.stage = .looping)
    (observer : Observer) (isOpen observerClosed : Bool) :
    ∃ content', (s.observe observer isOpen observerClosed).Sound content' := by
  have hclosed : ∀ responseTx : ResponseSender,
      ({ s with delivered := s.delivered ++ responseTx.send (.error .closed) } : CellRun).Sound content :=
    fun responseTx => h.sendErrors fun delivery hmem => ⟨.closed, (mem_send hmem).2⟩
  unfold CellRun.observe CellState.routeObservation
  cases hphase : s.state.phase with
  | running =>
    have hopen : s.runtimeClosed = false := by
      have hkeeps := h.keeps
      unfold CellRun.Keeps at hkeeps
      rw [hstage, hphase] at hkeeps
      rcases hkeeps with ⟨hopen, -⟩ | ⟨-, -, event, hdone, -⟩
      · exact hopen
      · exact hdone.elim
    dsimp only
    rw [append_nil]
    exact ⟨_, (((h.open hstage hopen).dropClosedObserver _).observeRunning _ _).sound⟩
  | completed pendingItems event =>
    obtain ⟨rfl, hcompleted, hcontent, hnone⟩ := h.completed hphase
    have hruntime := h.looping_closed hstage (by rw [hphase]; exact id)
    refine ⟨content, ?_⟩
    dsimp only
    cases isOpen with
    | true =>
      simp only [Observer.sender, if_true]
      exact h.deliverEvent hruntime hcompleted hcontent hnone ⟨observer.receiver, true⟩ s.observer
    | false =>
      simp only [Observer.sender, Bool.false_eq_true, if_false, append_nil]
      exact h
  | terminating call | completionClaimed event | tombstone => exact ⟨content, hclosed _⟩

theorem CellRun.Sound.yield (h : s.Sound content) (hstage : s.stage = .looping) (isOpen : Bool) :
    ∃ content', (s.yield isOpen).Sound content' := by
  cases hclosed : s.runtimeClosed with
  | false => exact ⟨_, ((h.open hstage hclosed).yield isOpen).sound⟩
  | true =>
    -- The content went with the completion, so there is nothing to yield.
    have hkeeps := h.keeps
    unfold CellRun.Keeps at hkeeps
    rw [hstage] at hkeeps
    rcases hkeeps with ⟨hopen, -⟩ | ⟨-, hempty, hdone⟩
    · rw [hclosed] at hopen
      cases hopen
    · refine ⟨content, ?_⟩
      unfold CellRun.yield
      rw [hempty]
      rcases sendObserverEvent_content s.observer isOpen (.yielded []) rfl with
        ⟨ds, hok, haccepted, hinterim⟩ | herror
      · rw [hok]
        refine ⟨?_, ?_, h.agrees_append hinterim, h.decides, h.terminal⟩
        · unfold CellRun.Keeps
          dsimp only
          rw [hstage]
          exact .inr ⟨hclosed, rfl, hdone⟩
        · show acceptedContent (s.delivered ++ ds) ++ content = s.emitted
          rw [acceptedContent_append, haccepted]
          exact (congrArg (· ++ content) (append_nil _)).trans h.exact
      · rw [herror]
        refine ⟨?_, ?_, h.agrees_append nofun, h.decides, h.terminal⟩
        · unfold CellRun.Keeps
          dsimp only
          rw [hstage]
          exact .inr ⟨hclosed, rfl, hdone⟩
        · show acceptedContent (s.delivered ++ []) ++ content = s.emitted
          rw [append_nil]
          exact h.exact

theorem CellRun.Sound.commit (h : s.Sound content) {event : CellEvent} {writes : List (Str × Str)}
    (hstage : s.stage = .committing event writes) : (s.commit event writes).Sound content := by
  have hkeeps := h.keeps
  have hdecides := h.decides
  unfold CellRun.Keeps at hkeeps
  rw [hstage] at hkeeps
  obtain ⟨hclosed, hundone, hempty, hcompleted, hcontent⟩ := hkeeps
  unfold CellRun.commit CellState.commitCompletion
  by_cases hrejects : s.state.phase ≠ .running ∨ s.state.isCancelled = true
  · rw [if_pos hrejects]
    exact ⟨⟨hclosed, hundone, hcontent⟩, h.exact, h.agrees, hdecides, h.terminal⟩
  · rw [if_neg hrejects]
    refine ⟨⟨hclosed, hempty, event, ⟨rfl, hcompleted⟩, hcontent⟩, h.exact, h.agrees, ?_, h.terminal⟩
    exact hundone.decides.1 hdecides

theorem CellRun.Sound.deliver (h : s.Sound content) {rejectedEvent : Option CellEvent}
    (hstage : s.stage = .committed rejectedEvent) (isOpen : Bool) :
    (s.deliver rejectedEvent isOpen).Sound content := by
  have hkeeps := h.keeps
  unfold CellRun.Keeps at hkeeps
  rw [hstage] at hkeeps
  have hclosed : s.runtimeClosed = true := by
    cases rejectedEvent with
    | none => exact hkeeps.1
    | some event => exact hkeeps.1
  unfold CellRun.deliver CellState.deliverCompletion
  cases hphase : s.state.phase with
  | completed pendingItems event =>
    obtain ⟨rfl, hcompleted, hcontent, hnone⟩ := h.completed hphase
    have hempty : s.contentItems = [] := by
      cases rejectedEvent with
      | none => exact hkeeps.2.1
      | some event =>
        rw [hphase] at hkeeps
        exact hkeeps.2.1.elim
    have hbuffered : { s with observer := none, delivered := s.delivered ++ [], stage := .looping }.Sound
        content := by
      rw [append_nil]
      refine ⟨.inr ⟨hclosed, hempty, event, ?_, hcontent⟩, h.exact, h.agrees, h.decides, h.terminal⟩
      rw [hphase]
      exact ⟨rfl, hcompleted⟩
    cases hobserver : s.observer with
    | none => exact hbuffered
    | some observer =>
      cases isOpen with
      | true => exact h.deliverEvent hclosed hcompleted hcontent hnone ⟨observer.receiver, true⟩ none
      | false => exact hbuffered
  | _ =>
    refine ⟨⟨hclosed, ?_⟩, ?_, h.agrees_append nofun, h.decides, h.terminal⟩
    · cases rejectedEvent with
      | none => exact .inr hkeeps.2.2
      | some event => exact .inl hkeeps.2
    · show acceptedContent (s.delivered ++ []) ++ content = s.emitted
      rw [append_nil]
      exact h.exact

/-- The terminator and the observer get the same event. -/
theorem finishTermination_same (state : CellState) (observerTx : Option ResponseSender)
    (event : CellEvent) (callerWaits : Bool) {final : CellEvent}
    (hfinal : (state.finishTermination event callerWaits).2.1 = some final) :
    (finishTermination state observerTx event callerWaits).1 = ⟨.tombstone, true⟩ ∧
    (finishTermination state observerTx event callerWaits).2.1 = some final ∧
    ∀ caller event', (caller, .ok event') ∈
      (finishTermination state observerTx event callerWaits).2.2 → event' = final := by
  have hstate : ∀ caller event', (caller, .ok event') ∈
      (state.finishTermination event callerWaits).2.2 → event' = final := by
    intro caller event' hmem
    unfold CellState.finishTermination at hfinal hmem
    split at hmem
    · cases hmem
    · next call hphase =>
      rw [hphase] at hfinal
      cases hfinal
      dsimp only at hmem
      split at hmem
      · cases mem_singleton.1 hmem
        rfl
      · cases hmem
    · cases hmem
    · cases hmem
    · cases hmem
  have hcloses := CellState.finishTermination_closes state event callerWaits
  unfold finishTermination
  rcases heq : state.finishTermination event callerWaits with ⟨after, observerEvent, deliveries⟩
  rw [heq] at hfinal hstate hcloses
  cases hfinal
  cases observerTx with
  | none => exact ⟨hcloses, rfl, hstate⟩
  | some observerTx =>
    refine ⟨hcloses, rfl, fun caller event' hmem => ?_⟩
    rcases mem_append.1 hmem with hold | hnew
    · exact hstate caller event' hold
    · exact Except.ok.inj (mem_send hnew).2

theorem acceptedContent_of_terminal
    (h : ∀ caller event, (caller, .ok event) ∈ deliveries → event.isTerminal = true) :
    acceptedContent deliveries = [] := by
  unfold acceptedContent
  rw [flatMap_eq_nil_iff]
  rintro ⟨caller, result⟩ hmem
  cases result with
  | ok event => simp only [h caller event hmem, if_true]
  | error error => rfl

theorem CellRun.Sound.finishWith (h : s.Sound content) (hclosed : s.runtimeClosed = true)
    {items : List OutputItem}
    (hheld : (s.state.phase.Undone ∧ items = content) ∨
      ∃ event, s.state.phase.Done event ∧ event.contentItems = content)
    (observer : Option Observer) (isOpen callerWaits : Bool) :
    (s.finishWith observer isOpen callerWaits (.terminated items)).Sound content := by
  -- The event that the phase makes of the end has the rest of the content, and is the only outcome.
  have hdecides := h.decides
  obtain ⟨final, hfinal, hterminal, hcontent, honly⟩ : ∃ final,
      (s.state.finishTermination (.terminated items) callerWaits).2.1 = some final ∧
      final.isTerminal = true ∧ final.contentItems = content ∧
      (s.outcome = none ∨ s.outcome = some final) := by
    unfold CellState.finishTermination
    cases hphase : s.state.phase with
    | running | terminating call =>
      rw [hphase] at hheld hdecides
      rcases hheld with ⟨-, hitems⟩ | ⟨event, hdone, -⟩
      · exact ⟨_, rfl, rfl, hitems, .inl hdecides⟩
      · exact hdone.elim
    | completed pendingItems event =>
      obtain ⟨rfl, hcompleted, hcontent, hnone⟩ := h.completed hphase
      exact ⟨event, rfl, isTerminal_of_isCompleted hcompleted, hcontent, .inl hnone⟩
    | completionClaimed event =>
      rw [hphase] at hheld hdecides
      rcases hheld with ⟨hundone, -⟩ | ⟨event', ⟨rfl, hcompleted⟩, hcontent⟩
      · exact hundone.elim
      · exact ⟨event, rfl, isTerminal_of_isCompleted hcompleted, hcontent, .inr hdecides⟩
    | tombstone =>
      rw [hphase] at hheld
      rcases hheld with ⟨hundone, -⟩ | ⟨event, hdone, -⟩
      · exact hundone.elim
      · exact hdone.elim
  obtain ⟨hstate, houtcome, hsame⟩ := finishTermination_same s.state
    (observer.map fun observer => observer.sender isOpen) (.terminated items) callerWaits hfinal
  unfold CellRun.finishWith
  dsimp only
  rw [hstate, houtcome, Option.some_or]
  refine ⟨⟨hclosed, rfl, final, rfl, hcontent⟩, ?_, ?_, trivial, fun event heq => ?_⟩
  · show acceptedContent (s.delivered ++ _) ++ content = s.emitted
    rw [acceptedContent_append,
      acceptedContent_of_terminal fun caller event hmem => hsame caller event hmem ▸ hterminal,
      append_nil]
    exact h.exact
  · intro caller event hmem hevent
    rcases mem_append.1 hmem with hold | hnew
    · have hsome := h.agrees caller event hold hevent
      rcases honly with hnone | honly
      · rw [hnone] at hsome
        cases hsome
      · rw [← honly, hsome]
    · rw [hsame caller event hnew]
  · cases heq
    exact hterminal

theorem CellRun.Sound.step (h : s.Sound content) {a : CellStep} (hstep : s.step a = some t) :
    ∃ content', t.Sound content' := by
  cases a with
  | cancelSession =>
    cases hstep
    refine ⟨content, h.keeps.rephase id (fun _ => id) (fun hover => ⟨hover, rfl⟩), h.exact, h.agrees,
      h.decides, h.terminal⟩
  | terminate => exact ⟨content, h.terminate hstep⟩
  | seeCancelled =>
    simp only [CellRun.step, beginTermination] at hstep
    split at hstep
    · next hsees =>
      cases hstep
      refine ⟨content, ?_⟩
      have hkeeps := h.keeps
      unfold CellRun.Keeps at hkeeps
      rw [hsees.1] at hkeeps
      cases hclosed : s.runtimeClosed with
      | false =>
        simp only [Bool.false_eq_true, if_false]
        refine ⟨?_, h.exact, h.agrees, h.decides, h.terminal⟩
        unfold CellRun.Keeps
        dsimp only
        rw [hsees.1]
        rw [hclosed] at hkeeps
        exact hkeeps
      | true =>
        simp only [if_true]
        refine ⟨?_, h.exact, h.agrees, h.decides, h.terminal⟩
        rcases hkeeps with ⟨hopen, -⟩ | ⟨-, -, hdone⟩
        · rw [hclosed] at hopen
          cases hopen
        · exact ⟨rfl, .inr hdone⟩
    · cases hstep
  | observe observer isClosed isOpen observerClosed =>
    simp only [CellRun.step] at hstep
    split at hstep
    · next hlooping =>
      cases hstep
      split
      · exact ⟨content, h⟩
      · exact h.observe hlooping.1 observer isOpen observerClosed
    · cases hstep
  | commandsEnd =>
    simp only [CellRun.step] at hstep
    split at hstep
    · cases hstep
      refine ⟨content, h.keeps.rephase id (fun _ => id) (fun hover => ⟨hover, rfl⟩), h.exact,
        h.agrees, h.decides, h.terminal⟩
    · cases hstep
  | yieldElapsed isOpen =>
    simp only [CellRun.step] at hstep
    split at hstep
    · next hlooping =>
      cases hstep
      exact h.yield hlooping.1 isOpen
    · cases hstep
  | runtimeEvent event isOpen =>
    simp only [CellRun.step] at hstep
    split at hstep
    · next hlooping =>
      cases hstep
      have hopen := h.open hlooping.1 hlooping.2
      cases event with
      | result writes errorText =>
        have htimer : { s with yieldTimer := false }.Open :=
          ⟨hopen.stage, hopen.runtimeOpen, hopen.undone, hopen.exact, hopen.undecided, hopen.interim⟩
        exact ⟨_, htimer.complete writes errorText⟩
      | _ =>
        refine ⟨_, CellRun.Open.sound ?_⟩
        exact hopen.handle isOpen fun _ _ heq => nomatch heq
    · cases hstep
  | runtimeEnd =>
    simp only [CellRun.step] at hstep
    split at hstep
    · next hlooping =>
      cases hstep
      exact ⟨_, (h.open hlooping.1 hlooping.2).complete _ _⟩
    · cases hstep
  | commit =>
    simp only [CellRun.step] at hstep
    split at hstep
    · next event writes hstage =>
      cases hstep
      exact ⟨content, h.commit hstage⟩
    · cases hstep
  | deliver isOpen =>
    simp only [CellRun.step] at hstep
    split at hstep
    · next rejectedEvent hstage =>
      cases hstep
      exact ⟨content, h.deliver hstage isOpen⟩
    · cases hstep
  | finish isOpen callerWaits =>
    have hkeeps := h.keeps
    unfold CellRun.Keeps at hkeeps
    simp only [CellRun.step] at hstep
    split at hstep
    · next observer items hstage =>
      cases hstep
      rw [hstage] at hkeeps
      exact ⟨content, h.finishWith hkeeps.1 hkeeps.2 observer isOpen callerWaits⟩
    · next hstage =>
      cases hstep
      rw [hstage] at hkeeps
      exact ⟨content, h.finishWith hkeeps.1 hkeeps.2 s.observer isOpen callerWaits⟩
    · cases hstep
  | close =>
    simp only [CellRun.step, CellState.tombstone, beginTermination] at hstep
    split at hstep
    · next hstage =>
      cases hstep
      have hkeeps := h.keeps
      unfold CellRun.Keeps at hkeeps
      rw [hstage] at hkeeps
      obtain ⟨hclosed, hphase, houtcome⟩ := hkeeps
      rw [hphase]
      dsimp only
      rw [append_nil]
      exact ⟨content, ⟨hclosed, rfl, houtcome⟩, h.exact, h.agrees, trivial, h.terminal⟩
    · cases hstep

theorem CellRun.sound_start (observer : Observer) :
    (⟨{}, .looping, [], [], false, some observer, false, false, false, false, true, [], [], 0, [], [],
      none⟩ : CellRun).Sound [] where
  keeps := .inl ⟨rfl, trivial, rfl⟩
  exact := rfl
  agrees := nofun
  decides := rfl
  terminal := nofun

/-- **In whatever order the loop takes the events of the runtime, observations, elapsed timers and
cancellations, and whichever receivers have gone: the content of the accepted events is what the
runtime emitted, from its first item on; and when the actor has left its loop, the content of the
accepted events followed by that of the cell's only terminal event is exactly what the runtime
emitted up to its end.** -/
theorem cell_content_exact {observer : Observer} {acts : List CellStep}
    (hrun : Machine.run CellRun.step { observer := some observer } acts = some s) :
    acceptedContent s.delivered <+: s.emitted ∧
    (∀ caller event, (caller, .ok event) ∈ s.delivered → event.isTerminal = true →
      s.outcome = some event) ∧
    (s.stage = .ended ∨ s.stage = .closed →
      s.runtimeClosed = true ∧ ∃ event, s.outcome = some event ∧ event.isTerminal = true ∧
        acceptedContent s.delivered ++ event.contentItems = s.emitted) := by
  have hkeep : ∀ r a t, (∃ content, r.Sound content) → CellRun.step r a = some t →
      ∃ content, t.Sound content := fun r a t ⟨content, h⟩ hstep => h.step hstep
  obtain ⟨content, hsound⟩ := Machine.run_invariant hkeep ⟨[], CellRun.sound_start observer⟩ hrun
  refine ⟨⟨content, hsound.exact⟩, hsound.agrees, fun hover => ?_⟩
  have hkeeps := hsound.keeps
  unfold CellRun.Keeps at hkeeps
  obtain ⟨hclosed, -, event, houtcome, hcontent⟩ : s.runtimeClosed = true ∧
      s.state.phase = .tombstone ∧ ∃ event, s.outcome = some event ∧ event.contentItems = content := by
    rcases hover with hstage | hstage
    · rw [hstage] at hkeeps
      exact hkeeps
    · rw [hstage] at hkeeps
      exact hkeeps
  refine ⟨hclosed, event, houtcome, hsound.terminal event houtcome, ?_⟩
  rw [hcontent]
  exact hsound.exact

/-- A yield whose observer has gone, a later one that is accepted, and a termination that wins against
the completion. -/
theorem cell_content_exact_put_back :
    ∃ s, Machine.run CellRun.step { observer := some ⟨.yieldAfter 10, 1⟩ }
        [.runtimeEvent .started true, .runtimeEvent (.contentItem (.text "a".toList)) true,
          .yieldElapsed false, .runtimeEvent (.contentItem (.text "b".toList)) true,
          .observe ⟨.yieldAfter 10, 2⟩ false true false, .runtimeEvent .yieldRequested true,
          .runtimeEvent (.contentItem (.text "c".toList)) true, .runtimeEvent (.result [] none) true,
          .terminate, .commit, .deliver true, .finish true true] = some s ∧
      s.delivered = [(.observer 2, .ok (.yielded [.text "a".toList, .text "b".toList])),
        (.terminator 0, .ok (.terminated [.text "c".toList]))] ∧
      ∃ event, s.outcome = some event ∧ event.isTerminal = true ∧
        acceptedContent s.delivered ++ event.contentItems = s.emitted := by
  refine Exists.imp (fun s hs => ⟨hs, ?_⟩) ⟨_, rfl⟩
  have hended : s.stage = .ended := by
    cases hs
    rfl
  refine ⟨?_, ((cell_content_exact hs).2.2 (.inl hended)).2⟩
  cases hs
  rfl

end Runs

end Codex.CodeMode
