import Codex.Base.Machine
import Codex.ThreadHistory.Projection

/-!
# The user messages of a turn

What the builder shows of a turn that is recorded whole: the items between its
start and its completion change nothing in the turns before it, and its user
messages are those of its events (`Within.readItems`). That is so as long as no
item takes the place of a user message that has its id, and no review opens a turn
of its own.
-/

namespace Codex.ThreadHistory

open List Codex.Text Codex.Rollout

def ThreadItem.userMessage? : ThreadItem → Option Carried
  | .userMessage _ content => some content
  | _ => none

def Turn.messages (turn : Turn) : List Carried := turn.items.filterMap ThreadItem.userMessage?

/-- The user message that the item records as an event. -/
def RolloutItem.userMessage? : RolloutItem → Option Carried
  | .eventMsg (.userMessage content) => some content
  | _ => none

/-- The item may stand between the start and the completion of a turn: it neither starts nor
completes one, and is no compaction and no rollback. -/
def RolloutItem.isInner : RolloutItem → Bool
  | .eventMsg (.turnStarted ..) | .eventMsg (.turnComplete ..) | .eventMsg (.threadRolledBack _)
  | .compacted _ => false
  | _ => true

/-! ## Where items go -/

def TurnItem.upsert? (turnId : Str) : TurnItem → Option (Option Str × Str)
  | .plan id text => if text = [] then none else some (some turnId, id)
  | .shown _ id _ | .hookPrompt id _ | .enteredReviewMode id _ | .exitedReviewMode id _ =>
    some (some turnId, id)
  | .shownElsewhere => none

/-- The turn that the event names, if it names one, and the id under which its item is put there. The
id `next` is for a review item that brings none. -/
def EventMsg.upsert? (next : Str) : EventMsg → Option (Option Str × Str)
  | .inCurrentTurn _ id _ => some (none, id)
  | .inNamedTurn _ turnId id _ => some (some turnId, id)
  | .inOptionalTurn _ turnId shown =>
    shown.map fun item => (if turnId = [] then none else some turnId, item.1)
  | .enteredReviewMode turnId itemId _ | .exitedReviewMode turnId itemId _ =>
    some (turnId, itemId.getD next)
  | .itemLifecycle turnId item => item.upsert? turnId
  | _ => none

/-- The turn that a review item names. -/
def EventMsg.reviewTurn? : EventMsg → Option Str
  | .enteredReviewMode turnId _ _ | .exitedReviewMode turnId _ _ => turnId
  | .itemLifecycle turnId (.enteredReviewMode ..)
  | .itemLifecycle turnId (.exitedReviewMode ..) => some turnId
  | _ => none

namespace Builder

/-- The turn that is named, or the open one. -/
def target (b : Builder) : Option Str → Option Turn
  | none => b.currentTurn.map (·.turn)
  | some turnId =>
    match b.currentWithId turnId with
    | some pending => some pending.turn
    | none => b.turns.find? fun turn => turn.id = turnId

/-- The item of the event takes the place of a user message. -/
def ReplacesMessage (b : Builder) (event : EventMsg) : Prop :=
  ∃ put ∈ event.upsert? b.nextItemId, ∃ turn ∈ b.target put.1, ∃ old ∈ turn.items,
    old.id = put.2 ∧ old.userMessage? ≠ none

/-- The event is a review item of a turn that is neither open nor finished, and opens it. -/
def OpensReview (b : Builder) (event : EventMsg) : Prop :=
  ∃ turnId ∈ event.reviewTurn?, turnId ∉ b.view.map Turn.id

/-- The step leaves the user messages where they are. -/
def LeavesMessages (b : Builder) (entry : ReadItem) : Prop :=
  ∀ event, entry.item = .eventMsg event → ¬ b.ReplacesMessage event ∧ ¬ b.OpensReview event

/-- A step of a run; the builder takes every item. -/
def readStep (b : Builder) (entry : ReadItem) : Option Builder := some (b.readItem entry)

theorem run_readStep (b : Builder) (entries : List ReadItem) :
    Machine.run readStep b entries = some (b.readItems entries) := by
  induction entries generalizing b with
  | nil => rfl
  | cons entry entries ih => exact ih (b.readItem entry)

/-- The part of a run that comes later is a run of its own. -/
theorem allMeet_append {Ok : Builder → ReadItem → Prop} {b : Builder} {entries more : List ReadItem} :
    Machine.AllMeet readStep Ok b (entries ++ more) ↔
      Machine.AllMeet readStep Ok b entries ∧ Machine.AllMeet readStep Ok (b.readItems entries) more := by
  induction entries generalizing b with
  | nil => exact ⟨fun h => ⟨Machine.allMeet_nil, h⟩, And.right⟩
  | cons entry entries ih =>
    have hstep (acts : List ReadItem) : (∀ t, readStep b entry = some t →
        Machine.AllMeet readStep Ok t acts) ↔ Machine.AllMeet readStep Ok (b.readItem entry) acts :=
      ⟨fun h => h _ rfl, fun h t ht => Option.some_inj.1 ht ▸ h⟩
    rw [cons_append, Machine.allMeet_cons, Machine.allMeet_cons, hstep, hstep, ih, and_assoc]
    rfl

end Builder

/-- An item that shows no user message and takes the place of none. -/
def Turn.Spares (item : ThreadItem) (turn : Turn) : Prop :=
  item.userMessage? = none ∧ ∀ old ∈ turn.items, old.id = item.id → old.userMessage? = none

theorem Turn.Spares.messages_upsertItem {item : ThreadItem} {turn : Turn} (h : turn.Spares item) :
    (turn.upsertItem item).messages = turn.messages := by
  obtain ⟨info, items⟩ := turn
  obtain ⟨hitem, hold⟩ := h
  change (upsertTurnItem items item).filterMap _ = items.filterMap _
  unfold upsertTurnItem
  induction items with
  | nil => simp [Keyed.upsert, hitem]
  | cons old items ih =>
    have hrest := ih fun o ho => hold o (mem_cons_of_mem _ ho)
    simp only [Keyed.upsert]
    split
    · next hid => simp [hitem, hold old mem_cons_self hid]
    · simp only [filterMap_cons, hrest]

/-! ## Inside a turn -/

/-- Between turns: what the finished turns show. -/
structure Between (shown : List (List Carried)) (b : Builder) : Prop where
  current : b.currentTurn = none
  messages : b.turns.map Turn.messages = shown

/-- Inside the turn `own`: what the finished turns show, and what it shows so far. -/
structure Within (shown : List (List Carried)) (own : Str) (soFar : List Carried) (b : Builder) :
    Prop where
  messages : b.turns.map Turn.messages = shown
  current : ∃ pending, b.currentTurn = some pending ∧ pending.turn.id = own ∧
    pending.openedExplicitly = true ∧ pending.turn.messages = soFar

section Within

variable {shown : List (List Carried)} {own : Str} {soFar : List Carried} {b : Builder}
  {item : ThreadItem}

/-- A change of the turn that is open. -/
theorem Within.setCurrent {b' : Builder} {soFar' : List Carried} {turn : Turn}
    {pending : PendingTurn} (h : Within shown own soFar b) (hcur : b.currentTurn = some pending)
    (hturns : b'.turns = b.turns) (hcur' : b'.currentTurn = some (Builder.setTurn pending turn))
    (hid : turn.id = pending.turn.id) (hmessages : turn.messages = soFar') :
    Within shown own soFar' b' := by
  obtain ⟨found, hfound, hown, hopen, -⟩ := h.current
  rw [hcur, Option.some_inj] at hfound
  subst hfound
  exact ⟨hturns ▸ h.messages, _, hcur', hid.trans hown, hopen, hmessages⟩

theorem Within.takeItemId (h : Within shown own soFar b) : Within shown own soFar b.takeItemId :=
  ⟨h.messages, h.current⟩

theorem Within.pushItem (h : Within shown own soFar b) (item : ThreadItem) :
    Within shown own (soFar ++ item.userMessage?.toList) (b.pushItemInCurrentTurn item) := by
  obtain ⟨pending, hcur, hid, hopen, hmessages⟩ := h.current
  unfold Builder.pushItemInCurrentTurn
  rw [Builder.ensureTurn_of_current hcur]
  refine h.setCurrent hcur rfl rfl rfl ?_
  rw [Turn.messages, Builder.pushItem, filterMap_append, ← hmessages]
  cases huser : item.userMessage? with
  | none | some content => simp [huser, Turn.messages]

theorem Within.pushOther (h : Within shown own soFar b) (hitem : item.userMessage? = none) :
    Within shown own soFar (b.pushItemInCurrentTurn item) := by
  have hpush := h.pushItem item
  rwa [hitem, Option.toList_none, append_nil] at hpush

theorem Within.upsertCurrent (h : Within shown own soFar b)
    (hspares : ∀ turn ∈ b.target none, turn.Spares item) :
    Within shown own soFar (b.upsertItemInCurrentTurn item) := by
  obtain ⟨pending, hcur, hid, hopen, hmessages⟩ := h.current
  have hspare : pending.turn.Spares item := by
    refine hspares pending.turn ?_
    rw [Builder.target, hcur]
    rfl
  unfold Builder.upsertItemInCurrentTurn
  rw [Builder.ensureTurn_of_current hcur]
  exact h.setCurrent hcur rfl rfl rfl (hspare.messages_upsertItem.trans hmessages)

/-- A change of a finished turn that keeps what it shows. -/
theorem Within.modifyTurn (h : Within shown own soFar b) {turnId : Str} {f : Turn → Turn}
    (hmessages : ∀ turn ∈ b.turns.find? fun turn => turn.id = turnId,
      (f turn).messages = turn.messages) : Within shown own soFar (b.modifyTurn turnId f) :=
  ⟨(Keyed.map_modify hmessages).trans h.messages, h.current⟩

theorem Within.upsertTurnId (h : Within shown own soFar b) {turnId : Str}
    (hspares : ∀ turn ∈ b.target (some turnId), turn.Spares item) :
    Within shown own soFar (b.upsertItemInTurnId turnId item) := by
  simp only [Builder.target] at hspares
  unfold Builder.upsertItemInTurnId
  cases hfound : b.currentWithId turnId with
  | some pending =>
    have hcur := (Builder.currentWithId_eq_some.1 hfound).1
    obtain ⟨found, hopened, -, -, hmessages⟩ := h.current
    obtain rfl : found = pending := Option.some_inj.1 (hopened.symm.trans hcur)
    rw [hfound] at hspares
    have hspare : found.turn.Spares item := hspares _ rfl
    exact h.setCurrent hcur rfl rfl rfl (hspare.messages_upsertItem.trans hmessages)
  | none =>
    rw [hfound] at hspares
    dsimp only
    split
    · have hmodify := h.modifyTurn fun turn hturn => (hspares turn hturn).messages_upsertItem
      exact ⟨hmodify.messages, hmodify.current⟩
    · exact h

theorem Within.upsertReview (h : Within shown own soFar b) {turnId : Option Str}
    (hspares : ∀ turn ∈ b.target turnId, turn.Spares item)
    (hthere : ∀ id ∈ turnId, id ∈ b.view.map Turn.id) :
    Within shown own soFar (b.upsertReviewModeItem turnId item) := by
  cases turnId with
  | none => exact h.upsertCurrent hspares
  | some turnId =>
    have hnot : (b.currentWithId turnId = none && !(turnId ∈ b.turns.map Turn.id)) = false := by
      rcases Builder.mem_view.1 (hthere turnId rfl) with hmem | hopen
      · simp [hmem]
      · simp [hopen]
    simp only [Builder.upsertReviewModeItem, hnot]
    exact h.upsertTurnId hspares

theorem Within.changeCurrent (h : Within shown own soFar b) {pending : PendingTurn}
    (hcur : b.currentTurn = some pending) {change : TurnMeta → TurnMeta}
    (hkeep : ∀ info, (change info).id = info.id) :
    Within shown own soFar (b.changeCurrentTurn pending change) := by
  obtain ⟨found, hfound, hid, hopen, hmessages⟩ := h.current
  obtain rfl : pending = found := Option.some_inj.1 (hcur.symm.trans hfound)
  exact h.setCurrent hcur rfl rfl (hkeep _) hmessages

theorem Within.changeFinished (h : Within shown own soFar b) (turnId : Str)
    (change : TurnMeta → TurnMeta) : Within shown own soFar (b.changeFinishedTurn turnId change) := by
  unfold Builder.changeFinishedTurn
  split
  · have hmodify : Within shown own soFar (b.modifyTurn turnId (Turn.changeInfo change)) :=
      h.modifyTurn fun _ _ => rfl
    exact ⟨hmodify.messages, hmodify.current⟩
  · exact h

theorem Within.appendReasoning (h : Within shown own soFar b) (text : Str)
    (extend : List Str → List Str → List Str × List Str) :
    Within shown own soFar (b.appendReasoning text extend) := by
  obtain ⟨pending, hcur, hid, hopen, hmessages⟩ := h.current
  unfold Builder.appendReasoning
  rw [Builder.ensureTurn_of_current hcur]
  split
  · exact h
  · dsimp only
    split
    · next id summary content hlast =>
      obtain ⟨init, hinit⟩ := getLast?_eq_some_iff.1 hlast
      refine h.setCurrent hcur rfl rfl rfl ?_
      rw [← hmessages, Turn.messages, Turn.messages, hinit]
      simp only [dropLast_concat, filterMap_append]
      rfl
    · exact h.takeItemId.pushOther rfl

theorem Within.handleError (h : Within shown own soFar b) (affectsTurnStatus : Bool)
    (error : Carried) : Within shown own soFar (b.handleError affectsTurnStatus error) := by
  unfold Builder.handleError
  split
  · split
    · next hcur => exact h.changeCurrent hcur fun _ => rfl
    · exact h
  · exact h

theorem Within.handleTurnAborted (h : Within shown own soFar b) (turnId : Option Str)
    (completedAt durationMs : Option Int) :
    Within shown own soFar (b.handleTurnAborted turnId completedAt durationMs) := by
  obtain ⟨pending, hcur, -⟩ := h.current
  unfold Builder.handleTurnAborted
  simp only [hcur]
  cases turnId with
  | none => exact h.changeCurrent hcur fun _ => rfl
  | some turnId =>
    dsimp only
    split
    · next found hfound =>
      exact h.changeCurrent (Builder.currentWithId_eq_some.1 hfound).1 fun _ => rfl
    · split
      · exact h.changeFinished turnId _
      · exact h.changeCurrent hcur fun _ => rfl

theorem Within.handleUserMessage (h : Within shown own soFar b) (content : Carried) :
    Within shown own (soFar ++ [content]) (b.handleUserMessage content) := by
  obtain ⟨pending, hcur, -, hopen, -⟩ := h.current
  simp only [Builder.handleUserMessage, hcur, hopen]
  exact h.takeItemId.pushItem (.userMessage b.nextItemId content)

/-- Where an item goes that is put by its id, it takes the place of no user message. -/
theorem spares_of_leaves {event : EventMsg} (hleaves : ¬ b.ReplacesMessage event)
    {turnId : Option Str} (hput : event.upsert? b.nextItemId = some (turnId, item.id))
    (hitem : item.userMessage? = none) : ∀ turn ∈ b.target turnId, turn.Spares item := by
  refine fun turn hturn => ⟨hitem, fun old hold hid => ?_⟩
  by_contra huser
  exact hleaves ⟨_, hput, turn, hturn, old, hold, hid, huser⟩

theorem reviewTurn_of_leaves {event : EventMsg} (hleaves : ¬ b.OpensReview event) :
    ∀ id ∈ event.reviewTurn?, id ∈ b.view.map Turn.id := by
  intro id hid
  by_contra hnot
  exact hleaves ⟨id, hid, hnot⟩

theorem Within.handleLifecycle (h : Within shown own soFar b) {turnId : Str} {item : TurnItem}
    (hreplaces : ¬ b.ReplacesMessage (.itemLifecycle turnId item))
    (hopens : ¬ b.OpensReview (.itemLifecycle turnId item)) :
    Within shown own soFar (b.handleMaterializedItemLifecycle turnId item) := by
  cases item with
  | plan id text =>
    unfold Builder.handleMaterializedItemLifecycle
    dsimp only
    split
    · exact h
    · next htext => exact h.upsertTurnId (spares_of_leaves hreplaces (if_neg htext) rfl)
  | shown | hookPrompt => exact h.upsertTurnId (spares_of_leaves hreplaces rfl rfl)
  | enteredReviewMode | exitedReviewMode =>
    exact h.upsertReview (spares_of_leaves hreplaces rfl rfl) (reviewTurn_of_leaves hopens)
  | shownElsewhere => exact h

/-- Events that show no message of the user. -/
theorem Within.handleOtherEvent (h : Within shown own soFar b) {event : EventMsg}
    (hinner : (RolloutItem.eventMsg event).isInner = true)
    (hother : (RolloutItem.eventMsg event).userMessage? = none)
    (hreplaces : ¬ b.ReplacesMessage event) (hopens : ¬ b.OpensReview event) :
    Within shown own soFar (b.handleEvent event) := by
  cases event with
  | userMessage => cases hother
  | turnStarted | turnComplete | threadRolledBack => cases hinner
  | agentMessage text rest =>
    simp only [Builder.handleEvent, Builder.handleAgentMessage]
    split
    · exact h
    · exact h.takeItemId.pushOther rfl
  | agentReasoning text | agentReasoningRawContent text => exact h.appendReasoning text _
  | inCurrentTurn event id body => exact h.upsertCurrent (spares_of_leaves hreplaces rfl rfl)
  | inNamedTurn event turnId id body => exact h.upsertTurnId (spares_of_leaves hreplaces rfl rfl)
  | inOptionalTurn event turnId shown =>
    cases shown with
    | none => exact h
    | some shown =>
      simp only [Builder.handleEvent, Builder.upsertItemInOptionalTurn]
      split
      · next hid => exact h.upsertCurrent (spares_of_leaves hreplaces (by subst hid; rfl) rfl)
      · next hid =>
        refine h.upsertTurnId (spares_of_leaves hreplaces ?_ rfl)
        rw [EventMsg.upsert?, if_neg hid]
        rfl
  | contextCompacted => exact h.takeItemId.pushOther rfl
  | enteredReviewMode turnId itemId _ | exitedReviewMode turnId itemId _ =>
    cases itemId with
    | some id =>
      exact h.upsertReview (spares_of_leaves hreplaces rfl rfl) (reviewTurn_of_leaves hopens)
    | none =>
      exact h.takeItemId.upsertReview (spares_of_leaves hreplaces rfl rfl)
        (reviewTurn_of_leaves hopens)
  | itemLifecycle turnId item => exact h.handleLifecycle hreplaces hopens
  | error affects error => exact h.handleError affects error
  | turnAborted turnId completedAt durationMs =>
    exact h.handleTurnAborted turnId completedAt durationMs
  | other event => exact h

theorem Within.readItem (h : Within shown own soFar b) {entry : ReadItem}
    (hinner : entry.item.isInner = true) (hleaves : b.LeavesMessages entry) :
    Within shown own (soFar ++ entry.item.userMessage?.toList) (b.readItem entry) := by
  obtain ⟨parseHookPrompt, item⟩ := entry
  have hnext : Within shown own soFar
      { b with
        currentRolloutIndex := b.nextRolloutIndex
        nextRolloutIndex := b.nextRolloutIndex + 1 } := ⟨h.messages, h.current⟩
  cases huser : item.userMessage? with
  | some content =>
    obtain rfl : item = .eventMsg (.userMessage content) := by
      unfold RolloutItem.userMessage? at huser
      split at huser
      · cases huser
        rfl
      · cases huser
    exact hnext.handleUserMessage content
  | none =>
    simp only [Option.toList_none, append_nil]
    cases item with
    | eventMsg event =>
      exact hnext.handleOtherEvent hinner huser (hleaves event rfl).1 (hleaves event rfl).2
    | compacted => cases hinner
    | responseItem item =>
      unfold Builder.readItem Builder.handleRolloutItem
      dsimp only
      rw [Builder.handleResponseItem_eq]
      cases (ReadItem.mk parseHookPrompt (.responseItem item)).hookPrompt? with
      | none => exact hnext
      | some prompt => exact hnext.pushOther rfl
    | interAgentCommunication | interAgentCommunicationMetadata | turnContext | worldState
    | sessionMeta => exact hnext

/-- **The items of a turn show the messages of their events, and leave the turns before alone.** -/
theorem Within.readItems (h : Within shown own soFar b) {entries : List ReadItem}
    (hinner : ∀ entry ∈ entries, entry.item.isInner = true)
    (hleaves : Machine.AllMeet Builder.readStep Builder.LeavesMessages b entries) :
    Within shown own (soFar ++ entries.filterMap fun entry => entry.item.userMessage?)
      (b.readItems entries) := by
  induction entries generalizing b soFar with
  | nil => simpa [Builder.readItems] using h
  | cons entry entries ih =>
    obtain ⟨hfirst, hrest⟩ := Machine.allMeet_cons.1 hleaves
    have hstep := h.readItem (hinner entry mem_cons_self) hfirst
    have hrun := ih hstep (fun e he => hinner e (mem_cons_of_mem _ he)) (hrest _ rfl)
    cases huser : entry.item.userMessage? with
    | none | some content => simpa [huser, Builder.readItems] using hrun

end Within

/-! ## Between turns -/

/-- An event, for which no hook prompt is read. -/
def ReadItem.ofEvent (event : EventMsg) : ReadItem := ⟨fun _ _ => none, .eventMsg event⟩

section Between

variable {shown : List (List Carried)} {b : Builder}

theorem between_empty : Between [] {} := ⟨rfl, rfl⟩

theorem Between.finish (h : Between shown b) : b.finish.map Turn.messages = shown := by
  simp only [Builder.finish, Builder.finishCurrentTurn, h.current, h.messages]

theorem Between.turnStarted (h : Between shown b) (turnId : Str) (startedAt : Option Int) :
    Within shown turnId [] (b.readItem (.ofEvent (.turnStarted turnId startedAt))) := by
  simp only [Builder.readItem, ReadItem.ofEvent, Builder.handleRolloutItem, Builder.handleEvent,
    Builder.handleTurnStarted, Builder.finishCurrentTurn, h.current]
  exact ⟨h.messages, _, rfl, rfl, rfl, rfl⟩

theorem Within.turnComplete {own : Str} {soFar : List Carried} (h : Within shown own soFar b)
    (completedAt durationMs : Option Int) :
    Between (shown ++ [soFar])
      (b.readItem (.ofEvent (.turnComplete own completedAt durationMs))) := by
  obtain ⟨pending, hcur, hid, hopen, hmessages⟩ := h.current
  simp only [Builder.readItem, ReadItem.ofEvent, Builder.handleRolloutItem, Builder.handleEvent,
    Builder.handleTurnComplete, Builder.currentWithId, hcur, Option.filter_some, hid, decide_true,
    if_true, Builder.changeCurrentTurn, Builder.finishCurrentTurn, Builder.setTurn, hopen,
    Bool.not_true, Bool.and_false, Bool.false_and, Bool.false_eq_true, if_false,
    Builder.recordChangedTurn]
  refine ⟨rfl, ?_⟩
  rw [map_append, h.messages, ← hmessages]
  rfl

theorem Between.rolledBack (h : Between shown b) (numTurns : ℕ) :
    Between (shown.take (shown.length - numTurns))
      (b.readItem (.ofEvent (.threadRolledBack numTurns))) := by
  have hlength : shown.length = b.turns.length := by rw [← h.messages, length_map]
  simp only [Builder.readItem, ReadItem.ofEvent, Builder.handleRolloutItem, Builder.handleEvent,
    Builder.handleThreadRollback, Builder.finishCurrentTurn, h.current,
    Builder.recordRemovedTurnIds]
  refine ⟨rfl, ?_⟩
  rw [map_take, h.messages, hlength]

end Between

end Codex.ThreadHistory
