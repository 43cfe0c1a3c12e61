import Codex.Base.Machine
import Codex.Text.Str

/-!
# The outcome of a cell

`CellState` (`code-mode/src/cell_actor/types.rs`) decides between the completion
and the termination of a cell. Each of its operations takes the phase out and puts
one back, under a lock. Whatever order the actor of the cell, its observers and its
terminators call them in, the cell has one outcome (`cell_outcome_once`).
-/

namespace Codex.CodeMode

open List Codex.Text

/-! ## Events (`session_runtime/types.rs`) -/

inductive ImageDetail where
  | auto
  | low
  | high
  | original
  deriving DecidableEq

inductive OutputItem where
  | text (text : Str)
  | image (imageUrl : Str) (detail : Option ImageDetail)
  deriving DecidableEq

/-- The duration is in milliseconds. -/
inductive ObserveMode where
  | yieldAfter (duration : ℕ)
  | pendingFrontier
  deriving DecidableEq

inductive CellEvent where
  | yielded (contentItems : List OutputItem)
  | pending (contentItems : List OutputItem) (pendingToolCallIds : List Str)
  | completed (contentItems : List OutputItem) (errorText : Option Str)
  | terminated (contentItems : List OutputItem)
  deriving DecidableEq

namespace CellEvent

def contentItems : CellEvent → List OutputItem
  | .yielded contentItems | .pending contentItems _ | .completed contentItems _
  | .terminated contentItems => contentItems

def isCompleted : CellEvent → Bool
  | .completed _ _ => true
  | _ => false

def isTerminated : CellEvent → Bool
  | .terminated _ => true
  | _ => false

def isTerminal (event : CellEvent) : Bool := event.isCompleted || event.isTerminated

end CellEvent

def prependInitialYield (event : CellEvent) : Option (List OutputItem) → CellEvent
  | none => event
  | some pendingItems =>
    match event with
    | .yielded contentItems => .yielded (pendingItems ++ contentItems)
    | .pending contentItems ids => .pending (pendingItems ++ contentItems) ids
    | .completed contentItems errorText => .completed (pendingItems ++ contentItems) errorText
    | .terminated contentItems => .terminated (pendingItems ++ contentItems)

inductive CellError where
  | busy
  | alreadyTerminating
  | closed
  deriving DecidableEq

abbrev CellResult := Except CellError CellEvent

/-! ## Answers -/

/-- The sender of a oneshot channel at the time it is used: who waits, and whether they still do. -/
structure ResponseSender where
  receiver : ℕ
  isOpen : Bool
  deriving DecidableEq

/-- Observers and calls of `terminate` are numbered. -/
inductive Caller where
  | observer (receiver : ℕ)
  | terminator (call : ℕ)
  deriving DecidableEq

abbrev Delivery := Caller × CellResult

/-- What arrives of a `send`. -/
def ResponseSender.send (responseTx : ResponseSender) (result : CellResult) : List Delivery :=
  if responseTx.isOpen then [(.observer responseTx.receiver, result)] else []

/-! ## Phases -/

inductive CellPhase where
  | running
  | terminating (call : ℕ)
  | completed (pendingInitialYieldItems : Option (List OutputItem)) (event : CellEvent)
  | completionClaimed (event : CellEvent)
  | tombstone
  deriving DecidableEq

/-- The phase, and whether the token (or the session's) is cancelled. -/
structure CellState where
  phase : CellPhase := .running
  isCancelled : Bool := false
  deriving DecidableEq

inductive CompletionDelivery where
  | delivered
  | buffered
  | rejected (responseTx : Option ResponseSender)
  deriving DecidableEq

inductive CompletionCommit where
  | committed
  | rejected (event : CellEvent)
  deriving DecidableEq

inductive ObservationDelivery where
  | running (responseTx : ResponseSender)
  | delivered
  | buffered
  | closed
  deriving DecidableEq

namespace CellState

/-- The answer of the call, if it is not to wait for one. -/
def requestTermination (state : CellState) (call : ℕ) : CellState × Option CellResult :=
  match state.phase with
  | .running => (⟨.terminating call, true⟩, none)
  | .terminating _ => (state, some (.error .alreadyTerminating))
  | .completed pendingItems event =>
    let event := prependInitialYield event pendingItems
    (⟨.completionClaimed event, true⟩, some (.ok event))
  | .completionClaimed _ => (state, some (.error .alreadyTerminating))
  | .tombstone => (state, some (.error .closed))

/-- The closure of the caller runs if the completion is committed. -/
def commitCompletion (state : CellState) (event : CellEvent)
    (pendingItems : Option (List OutputItem)) : CellState × CompletionCommit :=
  if state.phase ≠ .running ∨ state.isCancelled then (state, .rejected event)
  else ({ state with phase := .completed pendingItems event }, .committed)

def deliverCompletion (state : CellState) (responseTx : Option ResponseSender) :
    CellState × CompletionDelivery × List Delivery :=
  match state.phase with
  | .completed _ event =>
    match responseTx with
    | none => (state, .buffered, [])
    | some responseTx =>
      if responseTx.isOpen then (⟨.tombstone, true⟩, .delivered, responseTx.send (.ok event))
      else (state, .buffered, [])
  | _ => (state, .rejected responseTx, [])

def routeObservation (state : CellState) (mode : ObserveMode) (responseTx : ResponseSender) :
    CellState × ObservationDelivery × List Delivery :=
  match state.phase with
  | .running => (state, .running responseTx, [])
  | .completed pendingItems event =>
    match pendingItems, mode with
    | some contentItems, .yieldAfter _ =>
      if responseTx.isOpen then
        ({ state with phase := .completed none event }, .buffered,
          responseTx.send (.ok (.yielded contentItems)))
      else (state, .buffered, [])
    | _, _ =>
      if responseTx.isOpen then
        (⟨.tombstone, true⟩, .delivered, responseTx.send (.ok (prependInitialYield event pendingItems)))
      else (state, .buffered, [])
  | .terminating _ | .completionClaimed _ | .tombstone =>
    (state, .closed, responseTx.send (.error .closed))

/-- `finish_termination` of the state; the caller of `terminate` may have gone. -/
def finishTermination (state : CellState) (event : CellEvent) (callerWaits : Bool) :
    CellState × Option CellEvent × List Delivery :=
  let closed : CellState := ⟨.tombstone, true⟩
  match state.phase with
  | .running => (closed, some event, [])
  | .terminating call =>
    (closed, some event, if callerWaits then [(.terminator call, .ok event)] else [])
  | .completed pendingItems event => (closed, some (prependInitialYield event pendingItems), [])
  | .completionClaimed completedEvent => (closed, some completedEvent, [])
  | .tombstone => (closed, none, [])

/-- A sender that is dropped answers `Closed`. -/
def tombstone (state : CellState) : CellState × List Delivery :=
  (⟨.tombstone, true⟩,
    match state.phase with
    | .terminating call => [(.terminator call, .error .closed)]
    | _ => [])

end CellState

/-- `finish_termination` of the actor: the observer gets what the terminator gets. -/
def finishTermination (state : CellState) (observerTx : Option ResponseSender) (event : CellEvent)
    (callerWaits : Bool) : CellState × Option CellEvent × List Delivery :=
  let (state, observerEvent, deliveries) := state.finishTermination event callerWaits
  match observerEvent, observerTx with
  | some event, some observerTx => (state, observerEvent, deliveries ++ observerTx.send (.ok event))
  | _, _ => (state, observerEvent, deliveries)

/-! ## Calls in any order -/

/-- The call of `terminate` that waits for its answer. -/
def CellPhase.waitingCall : CellPhase → Option ℕ
  | .terminating call => some call
  | _ => none

/-- The state; how often the closure ran; the calls of `terminate` so far; what has arrived; and the
calls that had been given up when their answer was sent. -/
structure CellCalls where
  state : CellState := {}
  commits : ℕ := 0
  calls : ℕ := 0
  delivered : List Delivery := []
  givenUp : List ℕ := []
  deriving DecidableEq

inductive CellCall where
  | cancelSession
  | requestTermination
  /-- The actor commits `Completed` events. -/
  | commitCompletion (contentItems : List OutputItem) (errorText : Option Str)
      (pendingItems : Option (List OutputItem))
  | deliverCompletion (responseTx : Option ResponseSender)
  | routeObservation (mode : ObserveMode) (responseTx : ResponseSender)
  /-- The actor finishes with `Terminated` events. -/
  | finishTermination (contentItems : List OutputItem) (observerTx : Option ResponseSender)
      (callerWaits : Bool)
  | tombstone
  deriving DecidableEq

namespace CellCalls

def step (s : CellCalls) : CellCall → Option CellCalls
  | .cancelSession => some { s with state := { s.state with isCancelled := true } }
  | .requestTermination =>
    let (state, answer) := s.state.requestTermination s.calls
    some { s with
      state := state
      calls := s.calls + 1
      delivered := s.delivered ++ (answer.map fun result => (.terminator s.calls, result)).toList }
  | .commitCompletion contentItems errorText pendingItems =>
    match s.state.commitCompletion (.completed contentItems errorText) pendingItems with
    | (state, .committed) => some { s with state := state, commits := s.commits + 1 }
    | (state, .rejected _) => some { s with state := state }
  | .deliverCompletion responseTx =>
    let (state, _, deliveries) := s.state.deliverCompletion responseTx
    some { s with state := state, delivered := s.delivered ++ deliveries }
  | .routeObservation mode responseTx =>
    let (state, _, deliveries) := s.state.routeObservation mode responseTx
    some { s with state := state, delivered := s.delivered ++ deliveries }
  | .finishTermination contentItems observerTx callerWaits =>
    let (state, _, deliveries) :=
      CodeMode.finishTermination s.state observerTx (.terminated contentItems) callerWaits
    some { s with
      state := state
      delivered := s.delivered ++ deliveries
      givenUp := if callerWaits then s.givenUp else s.state.phase.waitingCall.toList ++ s.givenUp }
  | .tombstone =>
    let (state, deliveries) := s.state.tombstone
    some { s with state := state, delivered := s.delivered ++ deliveries }

end CellCalls

/-! ## What every order of calls keeps -/

section Runs

variable {s t : CellCalls} {delivered deliveries : List Delivery} {commits : ℕ} {phase : CellPhase}

/-- A terminal event of the outcome that the closure decides. -/
def FitsOutcome (commits : ℕ) (event : CellEvent) : Prop :=
  if commits = 0 then event.isTerminated = true else event.isCompleted = true

/-- The calls of `terminate` that were answered with an event. -/
def answeredCalls (delivered : List Delivery) : ℕ :=
  delivered.countP fun delivery =>
    match delivery with
    | (.terminator _, .ok _) => true
    | _ => false

/-- No terminal event has arrived. -/
def Undecided (delivered : List Delivery) : Prop :=
  ∀ caller event, (caller, .ok event) ∈ delivered → event.isTerminal = false

/-- What a phase says about the past. -/
def CellPhase.Fits (commits : ℕ) (delivered : List Delivery) : CellPhase → Prop
  | .running | .terminating _ =>
    commits = 0 ∧ Undecided delivered ∧ answeredCalls delivered = 0
  | .completed _ event => commits = 1 ∧ event.isCompleted = true ∧ answeredCalls delivered = 0
  | .completionClaimed event => commits = 1 ∧ event.isCompleted = true
  | .tombstone => True

def AnswersCall : CellResult → Prop
  | .ok event => event.isTerminal = true
  | .error error => error = .alreadyTerminating ∨ error = .closed

structure CellCalls.Sound (s : CellCalls) : Prop where
  once : s.commits ≤ 1
  outcome : ∀ caller event, (caller, .ok event) ∈ s.delivered → event.isTerminal = true →
    FitsOutcome s.commits event
  answers : ∀ call result, (.terminator call, result) ∈ s.delivered → AnswersCall result
  answered : answeredCalls s.delivered ≤ 1
  phase : s.state.phase.Fits s.commits s.delivered

theorem isCompleted_prependInitialYield (event : CellEvent) (pendingItems : Option (List OutputItem)) :
    (prependInitialYield event pendingItems).isCompleted = event.isCompleted := by
  cases pendingItems with
  | none => rfl
  | some pendingItems => cases event <;> rfl

variable {event : CellEvent} {responseTx : ResponseSender} {result : CellResult} {state : CellState}
  {contentItems : List OutputItem} {pendingItems : Option (List OutputItem)} {callerWaits : Bool}
  {observerTx : Option ResponseSender} {a : CellCall}

theorem isTerminal_of_isCompleted (h : event.isCompleted = true) : event.isTerminal = true := by
  unfold CellEvent.isTerminal
  rw [h, Bool.true_or]

theorem answeredCalls_append : answeredCalls (delivered ++ deliveries) =
    answeredCalls delivered + answeredCalls deliveries := countP_append

theorem answeredCalls_send (responseTx : ResponseSender) (result : CellResult) :
    answeredCalls (responseTx.send result) = 0 := by
  unfold ResponseSender.send
  split <;> rfl

theorem mem_send {result' : CellResult} {caller : Caller}
    (h : (caller, result') ∈ responseTx.send result) :
    caller = .observer responseTx.receiver ∧ result' = result := by
  unfold ResponseSender.send at h
  split at h
  · cases mem_singleton.1 h
    exact ⟨rfl, rfl⟩
  · cases h

/-- Deliveries of the outcome, of which at most one is the first answer to a call. -/
theorem CellCalls.Sound.deliver (h : s.Sound)
    (houtcome : ∀ caller event, (caller, .ok event) ∈ deliveries → event.isTerminal = true →
      FitsOutcome s.commits event)
    (hanswers : ∀ call result, (.terminator call, result) ∈ deliveries → AnswersCall result)
    (hanswered : answeredCalls s.delivered + answeredCalls deliveries ≤ 1)
    (hphase : state.phase.Fits s.commits (s.delivered ++ deliveries)) :
    { s with state := state, delivered := s.delivered ++ deliveries }.Sound where
  once := h.once
  outcome := by
    intro caller event hmem hterminal
    rcases mem_append.1 hmem with hold | hnew
    · exact h.outcome caller event hold hterminal
    · exact houtcome caller event hnew hterminal
  answers := by
    intro call result hmem
    rcases mem_append.1 hmem with hold | hnew
    · exact h.answers call result hold
    · exact hanswers call result hnew
  answered := by
    show answeredCalls (s.delivered ++ deliveries) ≤ 1
    rw [answeredCalls_append]
    exact hanswered
  phase := hphase

/-- An observer may get the outcome, or an error, and is no call. -/
theorem CellCalls.Sound.send (h : s.Sound) (responseTx : ResponseSender)
    (houtcome : ∀ event, result = .ok event → event.isTerminal = true → FitsOutcome s.commits event)
    (hphase : state.phase.Fits s.commits (s.delivered ++ responseTx.send result)) :
    { s with state := state, delivered := s.delivered ++ responseTx.send result }.Sound := by
  refine h.deliver ?_ ?_ ?_ hphase
  · intro caller event hmem
    exact houtcome event (mem_send hmem).2.symm
  · intro call result' hmem
    cases (mem_send hmem).1
  · rw [answeredCalls_send]
    exact h.answered

theorem CellCalls.Sound.quiet (h : s.Sound) (hphase : state.phase.Fits s.commits s.delivered) :
    { s with state := state }.Sound :=
  ⟨h.once, h.outcome, h.answers, h.answered, hphase⟩

theorem CellCalls.Sound.giveUp (h : s.Sound) (givenUp : List ℕ) : { s with givenUp := givenUp }.Sound :=
  ⟨h.once, h.outcome, h.answers, h.answered, h.phase⟩

theorem CellPhase.Fits.send (h : phase.Fits commits delivered) (responseTx : ResponseSender)
    (hresult : ∀ event, result = .ok event → event.isTerminal = false) :
    phase.Fits commits (delivered ++ responseTx.send result) := by
  have hcalls : answeredCalls (delivered ++ responseTx.send result) = answeredCalls delivered := by
    rw [answeredCalls_append, answeredCalls_send, Nat.add_zero]
  have hundecided : Undecided delivered → Undecided (delivered ++ responseTx.send result) := by
    intro hold caller event hmem
    rcases mem_append.1 hmem with hmem | hmem
    · exact hold caller event hmem
    · exact hresult event (mem_send hmem).2.symm
  cases phase with
  | running | terminating call => exact ⟨h.1, hundecided h.2.1, hcalls.trans h.2.2⟩
  | completed pendingItems event => exact ⟨h.1, h.2.1, hcalls.trans h.2.2⟩
  | completionClaimed event => exact h
  | tombstone => trivial

theorem fitsOutcome_completed (hcommits : commits = 1) (hcompleted : event.isCompleted = true) :
    FitsOutcome commits event := by
  unfold FitsOutcome
  rw [hcommits, if_neg Nat.one_ne_zero]
  exact hcompleted

theorem CellCalls.Sound.requestTermination (h : s.Sound)
    (hstep : s.step .requestTermination = some t) : t.Sound := by
  have hphase := h.phase
  simp only [CellCalls.step, CellState.requestTermination] at hstep
  rcases s with ⟨⟨phase, isCancelled⟩, commits, calls, delivered, givenUp⟩
  -- Only a call that finds the completion is answered with an event, and it claims it.
  have hkeep : ∀ (state : CellState) (result : CellResult), AnswersCall result →
      (∀ event, result = .ok event → FitsOutcome commits event ∧ answeredCalls delivered = 0) →
      state.phase.Fits commits (delivered ++ [(.terminator calls, result)]) →
      (⟨state, commits, calls + 1, delivered ++ [(.terminator calls, result)], givenUp⟩ :
        CellCalls).Sound := by
    intro state result hanswer hevent hfits
    have hdelivered : (⟨state, commits, calls, delivered ++ [(.terminator calls, result)], givenUp⟩ :
        CellCalls).Sound := h.deliver
      (fun caller event hmem _ => by
        cases mem_singleton.1 hmem
        exact (hevent event rfl).1)
      (fun call result' hmem => by
        cases mem_singleton.1 hmem
        exact hanswer)
      (by
        cases result with
        | ok event =>
          rw [(hevent event rfl).2]
          exact Nat.le_refl 1
        | error error => exact h.answered) hfits
    exact ⟨hdelivered.once, hdelivered.outcome, hdelivered.answers, hdelivered.answered,
      hdelivered.phase⟩
  cases phase with
  | running =>
    cases hstep
    rw [Option.map_none, Option.toList_none, append_nil]
    exact ⟨h.once, h.outcome, h.answers, h.answered, hphase⟩
  | terminating call =>
    cases hstep
    refine hkeep _ _ (.inl rfl) nofun ?_
    refine ⟨hphase.1, fun caller event hmem => ?_, ?_⟩
    · rcases mem_append.1 hmem with hold | hnew
      · exact hphase.2.1 caller event hold
      · cases mem_singleton.1 hnew
    · rw [answeredCalls_append]
      exact hphase.2.2
  | completed pendingItems event =>
    cases hstep
    have hcompleted : (prependInitialYield event pendingItems).isCompleted = true := by
      rw [isCompleted_prependInitialYield]
      exact hphase.2.1
    refine hkeep _ _ (isTerminal_of_isCompleted hcompleted) ?_ ⟨hphase.1, hcompleted⟩
    rintro event' heq
    cases heq
    exact ⟨fitsOutcome_completed hphase.1 hcompleted, hphase.2.2⟩
  | completionClaimed event =>
    cases hstep
    exact hkeep _ _ (.inl rfl) nofun hphase
  | tombstone =>
    cases hstep
    exact hkeep _ _ (.inr rfl) nofun trivial

theorem CellCalls.Sound.commitCompletion (h : s.Sound) {errorText : Option Str}
    (hstep : s.step (.commitCompletion contentItems errorText pendingItems) = some t) :
    t.Sound := by
  have hphase := h.phase
  simp only [CellCalls.step, CellState.commitCompletion] at hstep
  by_cases hrejects : s.state.phase ≠ .running ∨ s.state.isCancelled = true
  · rw [if_pos hrejects] at hstep
    cases hstep
    exact h.quiet hphase
  · rw [if_neg hrejects] at hstep
    cases hstep
    rw [not_or, not_not] at hrejects
    rw [hrejects.1] at hphase
    obtain ⟨hzero, hundecided, hcalls⟩ := hphase
    have hone : s.commits + 1 = 1 := by omega
    refine ⟨hone.le, fun caller event hmem hterminal => ?_, h.answers, h.answered, ?_⟩
    · rw [hundecided caller event hmem] at hterminal
      cases hterminal
    · exact ⟨hone, rfl, hcalls⟩

theorem CellCalls.Sound.deliverCompletion (h : s.Sound) {responseTx : Option ResponseSender}
    (hstep : s.step (.deliverCompletion responseTx) = some t) : t.Sound := by
  have hphase := h.phase
  simp only [CellCalls.step, CellState.deliverCompletion] at hstep
  split at hstep
  · next pendingItems event hcompleted =>
    rw [hcompleted] at hphase
    split at hstep
    · cases hstep
      rw [append_nil]
      exact h
    · next responseTx =>
      split at hstep
      · cases hstep
        refine h.send responseTx ?_ trivial
        rintro event' heq -
        cases heq
        exact fitsOutcome_completed hphase.1 hphase.2.1
      · cases hstep
        rw [append_nil]
        exact h
  · cases hstep
    rw [append_nil]
    exact h

theorem CellCalls.Sound.routeObservation (h : s.Sound) {mode : ObserveMode}
    (hstep : s.step (.routeObservation mode responseTx) = some t) : t.Sound := by
  have hphase := h.phase
  have hclosed : s.state.phase.Fits s.commits (s.delivered ++ responseTx.send (.error .closed)) :=
    hphase.send responseTx nofun
  simp only [CellCalls.step, CellState.routeObservation] at hstep
  split at hstep
  · cases hstep
    rw [append_nil]
    exact h
  · next pendingItems event hcompleted =>
    rw [hcompleted] at hphase
    split at hstep
    · next contentItems duration =>
      split at hstep
      · cases hstep
        have hyielded : ∀ event', (Except.ok (.yielded contentItems) : CellResult) = .ok event' →
            event'.isTerminal = false := by
          rintro event' heq
          cases heq
          rfl
        refine h.send responseTx (fun event' heq hterminal => ?_) (hphase.send responseTx hyielded)
        rw [hyielded event' heq] at hterminal
        cases hterminal
      · cases hstep
        rw [append_nil]
        exact h
    · split at hstep
      · cases hstep
        refine h.send responseTx ?_ trivial
        rintro event' heq -
        cases heq
        refine fitsOutcome_completed hphase.1 ?_
        rw [isCompleted_prependInitialYield]
        exact hphase.2.1
      · cases hstep
        rw [append_nil]
        exact h
  · cases hstep
    exact h.send responseTx nofun hclosed
  · cases hstep
    exact h.send responseTx nofun hclosed
  · cases hstep
    exact h.send responseTx nofun hclosed

/-- What the termination ends with is the outcome. -/
theorem CellPhase.Fits.finish (hphase : phase.Fits commits delivered)
    (hevent : event.isTerminated = true) {isCancelled : Bool} {outcome : CellEvent}
    (houtcome : ((⟨phase, isCancelled⟩ : CellState).finishTermination event callerWaits).2.1 =
      some outcome) : FitsOutcome commits outcome := by
  have hterminated : commits = 0 → FitsOutcome commits event := by
    intro hzero
    unfold FitsOutcome
    rw [if_pos hzero]
    exact hevent
  cases phase with
  | running | terminating call =>
    cases houtcome
    exact hterminated hphase.1
  | completed pendingItems completedEvent =>
    cases houtcome
    refine fitsOutcome_completed hphase.1 ?_
    rw [isCompleted_prependInitialYield]
    exact hphase.2.1
  | completionClaimed completedEvent =>
    cases houtcome
    exact fitsOutcome_completed hphase.1 hphase.2
  | tombstone => cases houtcome

theorem CellState.finishTermination_closes (state : CellState) (event : CellEvent)
    (callerWaits : Bool) : (state.finishTermination event callerWaits).1 = ⟨.tombstone, true⟩ := by
  unfold finishTermination
  split <;> rfl

theorem CellCalls.Sound.finish (h : s.Sound) (event : CellEvent) (hevent : event.isTerminated = true)
    (callerWaits : Bool) :
    { s with
      state := (s.state.finishTermination event callerWaits).1
      delivered := s.delivered ++ (s.state.finishTermination event callerWaits).2.2 }.Sound := by
  have hphase := h.phase
  rcases s with ⟨⟨phase, isCancelled⟩, commits, calls, delivered, givenUp⟩
  cases phase with
  | terminating call =>
    cases callerWaits with
    | false =>
      refine h.deliver nofun nofun ?_ trivial
      exact h.answered
    | true =>
      obtain ⟨hzero, -, hcalls⟩ := hphase
      refine h.deliver ?_ ?_ ?_ trivial
      · intro caller event' hmem _
        cases mem_singleton.1 hmem
        unfold FitsOutcome
        rw [if_pos hzero]
        exact hevent
      · intro call' result hmem
        cases mem_singleton.1 hmem
        show event.isTerminal = true
        unfold CellEvent.isTerminal
        rw [hevent, Bool.or_true]
      · show answeredCalls delivered + 1 ≤ 1
        simp only at hcalls
        omega
  | _ =>
    refine h.deliver nofun nofun ?_ trivial
    exact h.answered

theorem CellCalls.Sound.finishTermination (h : s.Sound)
    (hstep : s.step (.finishTermination contentItems observerTx callerWaits) = some t) :
    t.Sound := by
  have hfinish := h.finish (.terminated contentItems) rfl callerWaits
  have houtcome : ∀ outcome,
      (s.state.finishTermination (.terminated contentItems) callerWaits).2.1 = some outcome →
      FitsOutcome s.commits outcome := fun outcome houtcome => h.phase.finish rfl houtcome
  simp only [CellCalls.step, CodeMode.finishTermination] at hstep
  split at hstep
  · next event observerTx hevent =>
    cases hstep
    rw [← List.append_assoc]
    refine (hfinish.send observerTx ?_ ?_).giveUp _
    · rintro event' heq -
      cases heq
      exact houtcome event hevent
    · rw [CellState.finishTermination_closes]
      trivial
  · cases hstep
    exact hfinish.giveUp _

theorem CellCalls.Sound.tombstone (h : s.Sound) (hstep : s.step .tombstone = some t) : t.Sound := by
  cases hstep
  refine h.deliver ?_ ?_ ?_ trivial
  · intro caller event hmem
    split at hmem
    · cases mem_singleton.1 hmem
    · cases hmem
  · intro call result hmem
    split at hmem
    · cases mem_singleton.1 hmem
      exact .inr rfl
    · cases hmem
  · have hanswered := h.answered
    split <;> exact hanswered

theorem CellCalls.Sound.step (h : s.Sound) (hstep : s.step a = some t) : t.Sound := by
  cases a with
  | cancelSession =>
    cases hstep
    exact h.quiet h.phase
  | requestTermination => exact h.requestTermination hstep
  | commitCompletion contentItems errorText pendingItems => exact h.commitCompletion hstep
  | deliverCompletion responseTx => exact h.deliverCompletion hstep
  | routeObservation mode responseTx => exact h.routeObservation hstep
  | finishTermination contentItems observerTx callerWaits => exact h.finishTermination hstep
  | tombstone => exact h.tombstone hstep

theorem CellCalls.sound_start : ({} : CellCalls).Sound :=
  ⟨Nat.zero_le 1, nofun, nofun, Nat.zero_le 1, rfl, nofun, rfl⟩

/-! ## Every call has its answer -/

/-- The answers that a call of `terminate` has got. -/
def answersOf (call : ℕ) (delivered : List Delivery) : ℕ :=
  delivered.countP fun delivery => delivery.1 = .terminator call

theorem answersOf_append (call : ℕ) :
    answersOf call (delivered ++ deliveries) = answersOf call delivered + answersOf call deliveries :=
  countP_append

theorem answersOf_send (call : ℕ) (responseTx : ResponseSender) (result : CellResult) :
    answersOf call (responseTx.send result) = 0 := by
  unfold ResponseSender.send
  split <;> rfl

theorem answersOf_singleton (call call' : ℕ) (result : CellResult) :
    answersOf call [(.terminator call', result)] = [call'].count call := by
  unfold answersOf
  rw [countP_singleton, count_singleton]
  simp only [Caller.terminator.injEq, decide_eq_true_eq, beq_iff_eq]

/-- The call that still waits, and the one that was given up. -/
def CellCalls.unanswered (s : CellCalls) : List ℕ := s.state.phase.waitingCall.toList ++ s.givenUp

structure CellCalls.Owed (s : CellCalls) : Prop where
  once : ∀ call, answersOf call s.delivered + s.unanswered.count call =
    if call < s.calls then 1 else 0
  few : answeredCalls s.delivered + s.unanswered.length ≤ 1
  closed : s.givenUp ≠ [] → s.state.phase = .tombstone

theorem CellCalls.owed_start : ({} : CellCalls).Owed :=
  ⟨fun _ => rfl, Nat.zero_le 1, fun hne => absurd rfl hne⟩

/-- Deliveries that answer no call, in a phase with the same one waiting. -/
theorem CellCalls.Owed.keep (h : s.Owed)
    (hwaiting : state.phase.waitingCall = s.state.phase.waitingCall)
    (hclosed : s.state.phase = .tombstone → state.phase = .tombstone)
    (hnone : ∀ call, answersOf call deliveries = 0) (hevent : answeredCalls deliveries = 0) :
    { s with state := state, delivered := s.delivered ++ deliveries }.Owed := by
  have hunanswered : { s with state := state, delivered := s.delivered ++ deliveries }.unanswered =
      s.unanswered := by
    unfold unanswered
    rw [hwaiting]
  refine ⟨fun call => ?_, ?_, fun hne => hclosed (h.closed hne)⟩
  · rw [hunanswered, answersOf_append, hnone, Nat.add_zero]
    exact h.once call
  · rw [hunanswered, answeredCalls_append, hevent, Nat.add_zero]
    exact h.few

theorem CellCalls.Owed.send (h : s.Owed)
    (hwaiting : state.phase.waitingCall = s.state.phase.waitingCall)
    (hclosed : s.state.phase = .tombstone → state.phase = .tombstone) (responseTx : ResponseSender)
    (result : CellResult) :
    { s with state := state, delivered := s.delivered ++ responseTx.send result }.Owed :=
  h.keep hwaiting hclosed (fun call => answersOf_send call responseTx result)
    (answeredCalls_send responseTx result)

/-- The next call gets its answer at once. -/
theorem CellCalls.Owed.answer (h : s.Owed)
    (hwaiting : state.phase.waitingCall = s.state.phase.waitingCall)
    (hclosed : s.state.phase = .tombstone → state.phase = .tombstone)
    (hfew : answeredCalls [(Caller.terminator s.calls, result)] = 0 ∨
      answeredCalls s.delivered + s.unanswered.length = 0) :
    { s with
      state := state
      calls := s.calls + 1
      delivered := s.delivered ++ [(Caller.terminator s.calls, result)] }.Owed := by
  have hunanswered : { s with
      state := state
      calls := s.calls + 1
      delivered := s.delivered ++ [(Caller.terminator s.calls, result)] }.unanswered = s.unanswered := by
    unfold unanswered
    rw [hwaiting]
  have hone : answeredCalls [(Caller.terminator s.calls, result)] ≤ 1 := countP_le_length
  refine ⟨fun call => ?_, ?_, fun hne => hclosed (h.closed hne)⟩
  · have hcall := h.once call
    rw [hunanswered, answersOf_append, answersOf_singleton, count_singleton]
    simp only [beq_iff_eq]
    split at hcall <;> split <;> split <;> omega
  · rw [hunanswered, answeredCalls_append]
    have hold := h.few
    rcases hfew with hfew | hfew <;> omega

theorem CellCalls.Owed.requestTermination (h : s.Owed) (hsound : s.Sound)
    (hstep : s.step .requestTermination = some t) : t.Owed := by
  have hphase := hsound.phase
  have hgivenUp := h.closed
  simp only [CellCalls.step, CellState.requestTermination] at hstep
  rcases s with ⟨⟨phase, isCancelled⟩, commits, calls, delivered, givenUp⟩
  cases phase with
  | running =>
    cases hstep
    have hnil : givenUp = [] := by
      by_contra hne
      cases hgivenUp hne
    subst hnil
    rw [Option.map_none, Option.toList_none, append_nil]
    refine ⟨fun call => ?_, ?_, fun hne => absurd rfl hne⟩
    · have hcall := h.once call
      show answersOf call delivered + [calls].count call = if call < calls + 1 then 1 else 0
      simp only [unanswered, CellPhase.waitingCall, Option.toList_none, nil_append,
        count_nil, Nat.add_zero] at hcall
      rw [count_singleton, hcall]
      simp only [beq_iff_eq]
      split <;> split <;> split <;> omega
    · show answeredCalls delivered + 1 ≤ 1
      rw [hphase.2.2]
  | terminating call | completionClaimed event | tombstone =>
    cases hstep
    refine h.answer rfl id (.inl ?_)
    rfl
  | completed pendingItems event =>
    cases hstep
    have hnil : givenUp = [] := by
      by_contra hne
      cases hgivenUp hne
    subst hnil
    refine h.answer rfl ?_ (.inr ?_)
    · intro heq
      cases heq
    · exact hphase.2.2

theorem CellCalls.Owed.commitCompletion (h : s.Owed) {errorText : Option Str}
    (hstep : s.step (.commitCompletion contentItems errorText pendingItems) = some t) : t.Owed := by
  simp only [CellCalls.step, CellState.commitCompletion] at hstep
  by_cases hrejects : s.state.phase ≠ .running ∨ s.state.isCancelled = true
  · rw [if_pos hrejects] at hstep
    cases hstep
    exact h
  · rw [if_neg hrejects] at hstep
    cases hstep
    rw [not_or, not_not] at hrejects
    have hunanswered : s.unanswered = s.givenUp := by
      unfold unanswered
      rw [hrejects.1]
      rfl
    have honce := h.once
    have hfew := h.few
    rw [hunanswered] at honce hfew
    refine ⟨honce, hfew, fun hne => ?_⟩
    have htombstone := h.closed hne
    rw [hrejects.1] at htombstone
    cases htombstone

theorem CellCalls.Owed.deliverCompletion (h : s.Owed) {responseTx : Option ResponseSender}
    (hstep : s.step (.deliverCompletion responseTx) = some t) : t.Owed := by
  simp only [CellCalls.step, CellState.deliverCompletion] at hstep
  split at hstep
  · next pendingItems event hcompleted =>
    split at hstep
    · cases hstep
      rw [append_nil]
      exact h
    · next responseTx =>
      split at hstep
      · cases hstep
        refine h.send ?_ (fun _ => rfl) responseTx _
        rw [hcompleted]
        rfl
      · cases hstep
        rw [append_nil]
        exact h
  · cases hstep
    rw [append_nil]
    exact h

theorem CellCalls.Owed.routeObservation (h : s.Owed) {mode : ObserveMode}
    (hstep : s.step (.routeObservation mode responseTx) = some t) : t.Owed := by
  simp only [CellCalls.step, CellState.routeObservation] at hstep
  split at hstep
  · cases hstep
    rw [append_nil]
    exact h
  · next pendingItems event hcompleted =>
    split at hstep
    · next contentItems duration =>
      split at hstep
      · cases hstep
        refine h.send ?_ (fun htombstone => ?_) responseTx _
        · rw [hcompleted]
          rfl
        · rw [hcompleted] at htombstone
          cases htombstone
      · cases hstep
        rw [append_nil]
        exact h
    · split at hstep
      · cases hstep
        refine h.send ?_ (fun _ => rfl) responseTx _
        rw [hcompleted]
        rfl
      · cases hstep
        rw [append_nil]
        exact h
  · cases hstep
    exact h.send rfl id responseTx _
  · cases hstep
    exact h.send rfl id responseTx _
  · cases hstep
    exact h.send rfl id responseTx _

/-- The call that waits gets its answer. -/
theorem CellCalls.Owed.pay {call : ℕ} (h : s.Owed)
    (hwaiting : s.state.phase.waitingCall = some call) (hclosed : state.phase = .tombstone)
    (hfew : answeredCalls [(Caller.terminator call, result)] = 0 ∨ answeredCalls s.delivered = 0) :
    { s with
      state := state
      delivered := s.delivered ++ [(Caller.terminator call, result)] }.Owed := by
  have hone : answeredCalls [(Caller.terminator call, result)] ≤ 1 := countP_le_length
  have hold := h.few
  refine ⟨fun call' => ?_, ?_, fun _ => hclosed⟩
  · have hcall := h.once call'
    simp only [unanswered, hwaiting, Option.toList_some, count_append] at hcall
    simp only [unanswered, hclosed, CellPhase.waitingCall, Option.toList_none, nil_append]
    rw [answersOf_append, answersOf_singleton, Nat.add_assoc]
    exact hcall
  · simp only [unanswered, hwaiting, Option.toList_some, length_append,
      length_singleton] at hold
    simp only [unanswered, hclosed, CellPhase.waitingCall, Option.toList_none, nil_append]
    rw [answeredCalls_append]
    rcases hfew with hfew | hfew <;> omega

/-- Only a call that waits is answered, or given up. -/
theorem CellCalls.Owed.finish (h : s.Owed) (hsound : s.Sound) (event : CellEvent)
    (callerWaits : Bool) :
    { s with
      state := (s.state.finishTermination event callerWaits).1
      delivered := s.delivered ++ (s.state.finishTermination event callerWaits).2.2
      givenUp := if callerWaits then s.givenUp
        else s.state.phase.waitingCall.toList ++ s.givenUp }.Owed := by
  have hphase := hsound.phase
  rcases s with ⟨⟨phase, isCancelled⟩, commits, calls, delivered, givenUp⟩
  cases phase with
  | terminating call =>
    cases callerWaits with
    | true => exact h.pay rfl rfl (.inr hphase.2.2)
    | false =>
      simp only [CellState.finishTermination, Bool.false_eq_true, if_false, append_nil]
      exact ⟨h.once, h.few, fun _ => rfl⟩
  | _ =>
    simp only [CellState.finishTermination, CellPhase.waitingCall, Option.toList_none, nil_append,
      append_nil, ite_self]
    exact ⟨h.once, h.few, fun _ => rfl⟩

theorem CellCalls.Owed.finishTermination (h : s.Owed) (hsound : s.Sound)
    (hstep : s.step (.finishTermination contentItems observerTx callerWaits) = some t) :
    t.Owed := by
  have hfinish := h.finish hsound (.terminated contentItems) callerWaits
  simp only [CellCalls.step, CodeMode.finishTermination] at hstep
  split at hstep
  · next event observerTx hevent =>
    cases hstep
    rw [← List.append_assoc]
    exact hfinish.send rfl id observerTx (.ok event)
  · cases hstep
    exact hfinish

theorem CellCalls.Owed.tombstone (h : s.Owed) (hstep : s.step .tombstone = some t) : t.Owed := by
  rcases s with ⟨⟨phase, isCancelled⟩, commits, calls, delivered, givenUp⟩
  cases phase with
  | terminating call =>
    cases hstep
    exact h.pay rfl rfl (.inl rfl)
  | _ =>
    cases hstep
    simp only [append_nil]
    exact ⟨h.once, h.few, fun _ => rfl⟩

theorem CellCalls.Owed.step (h : s.Owed) (hsound : s.Sound) (hstep : s.step a = some t) :
    t.Owed := by
  cases a with
  | cancelSession =>
    cases hstep
    exact ⟨h.once, h.few, h.closed⟩
  | requestTermination => exact h.requestTermination hsound hstep
  | commitCompletion contentItems errorText pendingItems => exact h.commitCompletion hstep
  | deliverCompletion responseTx => exact h.deliverCompletion hstep
  | routeObservation mode responseTx => exact h.routeObservation hstep
  | finishTermination contentItems observerTx callerWaits => exact h.finishTermination hsound hstep
  | tombstone => exact h.tombstone hstep

/-- A call has one answer, or it is the only one without and nobody has got an event. -/
theorem CellCalls.Owed.answered_or (h : s.Owed) {call : ℕ} (hcall : call < s.calls) :
    (answersOf call s.delivered = 1 ∧ call ∉ s.unanswered) ∨
    (answersOf call s.delivered = 0 ∧ s.unanswered = [call] ∧ answeredCalls s.delivered = 0) := by
  have honce := h.once call
  rw [if_pos hcall] at honce
  have hfew := h.few
  by_cases hmem : call ∈ s.unanswered
  · have hpos := count_pos_iff.2 hmem
    have hlength : s.unanswered.length = 1 := by
      have hle := count_le_length (a := call) (l := s.unanswered)
      omega
    obtain ⟨call', hunanswered⟩ := length_eq_one_iff.1 hlength
    rw [hunanswered, mem_singleton] at hmem
    exact .inr ⟨by omega, hmem ▸ hunanswered, by omega⟩
  · rw [count_eq_zero.2 hmem] at honce
    exact .inl ⟨honce, hmem⟩

/-! ## Phases never go back -/

/-- No phase leads back to `Running`, and none leads out of `Tombstone`. -/
def CellPhase.LeadsTo (phase phase' : CellPhase) : Prop :=
  (phase ≠ .running → phase' ≠ .running) ∧ (phase = .tombstone → phase' = .tombstone)

theorem CellPhase.LeadsTo.refl (phase : CellPhase) : phase.LeadsTo phase := ⟨id, id⟩

theorem CellPhase.LeadsTo.trans {phase' phase'' : CellPhase} (h : phase.LeadsTo phase')
    (h' : phase'.LeadsTo phase'') : phase.LeadsTo phase'' :=
  ⟨fun hne => h'.1 (h.1 hne), fun heq => h'.2 (h.2 heq)⟩

theorem leadsTo_tombstone : phase.LeadsTo .tombstone := ⟨fun _ => nofun, fun _ => rfl⟩

theorem step_leadsTo (hstep : s.step a = some t) : s.state.phase.LeadsTo t.state.phase := by
  rcases s with ⟨⟨phase, isCancelled⟩, commits, calls, delivered, givenUp⟩
  cases a with
  | cancelSession =>
    cases hstep
    exact .refl _
  | requestTermination =>
    cases hstep
    cases phase with
    | running => exact ⟨fun h => absurd rfl h, nofun⟩
    | completed pendingItems event => exact ⟨fun _ => nofun, nofun⟩
    | _ => exact .refl _
  | commitCompletion contentItems errorText pendingItems =>
    simp only [CellCalls.step, CellState.commitCompletion] at hstep
    by_cases hrejects : phase ≠ .running ∨ isCancelled = true
    · rw [if_pos hrejects] at hstep
      cases hstep
      exact .refl _
    · rw [if_neg hrejects] at hstep
      cases hstep
      rw [not_or, not_not] at hrejects
      exact ⟨fun h => absurd hrejects.1 h, fun h => by rw [hrejects.1] at h; cases h⟩
  | deliverCompletion responseTx =>
    cases hstep
    dsimp only
    split
    · split
      · exact .refl _
      · split
        · exact leadsTo_tombstone
        · exact .refl _
    · exact .refl _
  | routeObservation mode responseTx =>
    cases hstep
    dsimp only
    split
    · exact .refl _
    · split
      · split
        · exact ⟨fun _ => nofun, nofun⟩
        · exact .refl _
      · split
        · exact leadsTo_tombstone
        · exact .refl _
    · exact .refl _
    · exact .refl _
    · exact .refl _
  | finishTermination contentItems observerTx callerWaits =>
    simp only [CellCalls.step, CodeMode.finishTermination] at hstep
    split at hstep
    · cases hstep
      simp only [CellState.finishTermination_closes]
      exact leadsTo_tombstone
    · cases hstep
      simp only [CellState.finishTermination_closes]
      exact leadsTo_tombstone
  | tombstone =>
    cases hstep
    exact leadsTo_tombstone

theorem run_leadsTo {acts : List CellCall} (hrun : Machine.run CellCalls.step s acts = some t) :
    s.state.phase.LeadsTo t.state.phase := by
  have hkeep : ∀ u a v, s.state.phase.LeadsTo u.state.phase → CellCalls.step u a = some v →
      s.state.phase.LeadsTo v.state.phase := fun u a v h hstep => h.trans (step_leadsTo hstep)
  have hlast := Machine.run_invariant hkeep (.refl s.state.phase) hrun
  exact hlast

/-- **Whatever the order of the calls, the closure runs at most once; every terminal event that arrives
is `Completed` if it ran and `Terminated` if it did not; the phase never goes back to `Running` nor out
of `Tombstone`; at most one call of `terminate` is answered with an event, which is terminal; and every
other call has got exactly one answer, `AlreadyTerminating` or `Closed`. Before anyone has got the event
the one call without an answer is the one the phase keeps waiting, or was given up.** -/
theorem cell_outcome_once {acts : List CellCall}
    (hrun : Machine.run CellCalls.step {} acts = some s) :
    s.commits ≤ 1 ∧
    (∀ caller event, (caller, .ok event) ∈ s.delivered → event.isTerminal = true →
      (s.commits = 1 → event.isCompleted = true) ∧ (s.commits = 0 → event.isTerminated = true)) ∧
    (∀ more t, Machine.run CellCalls.step s more = some t →
      (s.state.phase ≠ .running → t.state.phase ≠ .running) ∧
      (s.state.phase = .tombstone → t.state.phase = .tombstone)) ∧
    answeredCalls s.delivered ≤ 1 ∧
    (∀ call result, (.terminator call, result) ∈ s.delivered →
      (∃ event, result = .ok event ∧ event.isTerminal = true) ∨
      result = .error .alreadyTerminating ∨ result = .error .closed) ∧
    (∀ call, call < s.calls →
      (answersOf call s.delivered = 1 ∧ call ∉ s.unanswered) ∨
      (answersOf call s.delivered = 0 ∧ s.unanswered = [call] ∧ answeredCalls s.delivered = 0)) := by
  have hkeep : ∀ u a v, CellCalls.Sound u ∧ CellCalls.Owed u → CellCalls.step u a = some v →
      CellCalls.Sound v ∧ CellCalls.Owed v :=
    fun u a v h hstep => ⟨h.1.step hstep, h.2.step h.1 hstep⟩
  obtain ⟨hsound, howed⟩ :=
    Machine.run_invariant hkeep ⟨CellCalls.sound_start, CellCalls.owed_start⟩ hrun
  refine ⟨hsound.once, ?_, fun more t hmore => run_leadsTo hmore, hsound.answered, ?_,
    fun call hcall => howed.answered_or hcall⟩
  · intro caller event hmem hterminal
    have houtcome := hsound.outcome caller event hmem hterminal
    unfold FitsOutcome at houtcome
    split at houtcome
    · next hzero => exact ⟨fun hone => by omega, fun _ => houtcome⟩
    · next hne => exact ⟨fun _ => houtcome, fun hzero => absurd hzero hne⟩
  · intro call result hmem
    have hanswers := hsound.answers call result hmem
    cases result with
    | ok event => exact .inl ⟨event, rfl, hanswers⟩
    | error error => exact .inr (hanswers.imp (congrArg _) (congrArg _))

/-- A completion that is claimed by a call before its observer gets it. -/
theorem cell_outcome_once_claimed :
    ∃ s, Machine.run CellCalls.step {}
        [.commitCompletion [.text "a".toList] none none, .requestTermination, .requestTermination,
          .deliverCompletion (some ⟨1, true⟩), .finishTermination [] (some ⟨1, true⟩) true] = some s ∧
      s.delivered = [(.terminator 0, .ok (.completed [.text "a".toList] none)),
        (.terminator 1, .error .alreadyTerminating),
        (.observer 1, .ok (.completed [.text "a".toList] none))] ∧
      answeredCalls s.delivered ≤ 1 ∧ answersOf 1 s.delivered = 1 := by
  refine Exists.imp (fun s hs => ⟨hs, ?_⟩) ⟨_, rfl⟩
  have hcalls : 1 < s.calls ∧ s.unanswered ≠ [1] := by
    cases hs
    decide
  obtain ⟨-, -, -, hfew, -, hanswers⟩ := cell_outcome_once hs
  refine ⟨?_, hfew, ?_⟩
  · cases hs
    rfl
  · rcases hanswers 1 hcalls.1 with hanswered | hunanswered
    · exact hanswered.1
    · exact absurd hunanswered.2.1 hcalls.2

end Runs

end Codex.CodeMode
