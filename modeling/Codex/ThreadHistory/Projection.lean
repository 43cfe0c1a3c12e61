import Codex.Base.Forall
import Codex.Base.FreshIds
import Codex.ThreadHistory.Changes

/-!
# A projection that follows the builder

Every handler records what it does: the change set of one rollout item takes the
turns shown before it to the turns shown after it (`handleRolloutItem_follows`).
With the accumulator this gives whole batches, and a projection that applies one
change set per batch shows what a builder without change sets has
(`projectBatches_eq`). Ids have to be distinct in the turns that are shown.
-/

namespace Codex.ThreadHistory

open List Codex.Text Codex.Rollout

/-- Turn ids are distinct, and the item ids of each turn. -/
structure Distinct (view : List Turn) : Prop where
  turns : (view.map Turn.id).Nodup
  items : ∀ turn ∈ view, (turn.items.map ThreadItem.id).Nodup

instance (view : List Turn) : Decidable (Distinct view) :=
  decidable_of_iff ((view.map Turn.id).Nodup ∧
      ∀ turn ∈ view, (turn.items.map ThreadItem.id).Nodup)
    ⟨fun h => ⟨h.1, h.2⟩, fun h => ⟨h.turns, h.items⟩⟩

namespace Builder

variable {b : Builder} {v : List Turn} {pending : PendingTurn} {item : ThreadItem}

/-! ## Views -/

/-- An open turn is one that `finish_current_turn` keeps. -/
def Kept (b : Builder) : Prop :=
  ∀ pending ∈ b.currentTurn,
    pending.turn.items ≠ [] ∨ pending.openedExplicitly = true ∨ pending.sawCompaction = true

theorem view_of_current (h : b.currentTurn = some pending) : b.view = b.turns ++ [pending.turn] := by
  simp [view, h]

theorem view_of_none (h : b.currentTurn = none) : b.view = b.turns := by
  simp [view, h]

@[simp] theorem finishCurrentTurn_current : b.finishCurrentTurn.currentTurn = none := by
  unfold finishCurrentTurn
  split
  · split
    · rfl
    · rfl
  · next h => exact h

@[simp] theorem finishCurrentTurn_changes :
    b.finishCurrentTurn.activeChangeSet = b.activeChangeSet := by
  unfold finishCurrentTurn
  split
  · split
    · rfl
    · rfl
  · rfl

theorem finishCurrentTurn_turns (h : b.Kept) : b.finishCurrentTurn.turns = b.view := by
  unfold finishCurrentTurn
  cases hcur : b.currentTurn with
  | none => simp [view_of_none hcur]
  | some pending =>
    rw [view_of_current hcur]
    rcases h pending hcur with hitems | hopen | hcompact
    · simp [hitems]
    · simp [hopen]
    · simp [hcompact]

theorem finishCurrentTurn_view (h : b.Kept) : b.finishCurrentTurn.view = b.view := by
  rw [view_of_none finishCurrentTurn_current, finishCurrentTurn_turns h]

/-! ## Following -/

/-- The active change set takes `v` to the view, and its items are in turns of the view. -/
def Follows (v : List Turn) (b : Builder) : Prop :=
  ∃ changes, b.activeChangeSet = some changes ∧ changes.apply v = b.view ∧
    ∀ change ∈ changes.changedItems, change.turnId ∈ b.view.map Turn.id

/-- The same, and no item or removal is recorded yet. -/
def Opens (v : List Turn) (b : Builder) : Prop :=
  ∃ infos, b.activeChangeSet = some { changedTurns := infos } ∧ infos.foldl applyTurn v = b.view

theorem Opens.follows (h : Opens v b) : Follows v b := by
  obtain ⟨infos, hactive, happly⟩ := h
  refine ⟨_, hactive, ?_, by simp⟩
  simpa [ChangeSet.apply, removeTurns_nil] using happly

variable {b' : Builder} {turnId : Str} {turn : Turn} {change : TurnMeta → TurnMeta}

theorem Opens.of_eq (h : Opens v b) (hactive : b'.activeChangeSet = b.activeChangeSet)
    (hview : b'.view = b.view) : Opens v b' := by
  obtain ⟨infos, hinfos, happly⟩ := h
  exact ⟨infos, hactive.trans hinfos, happly.trans hview.symm⟩

theorem Opens.recordTurn (h : Opens v b) {info : TurnMeta}
    (hactive : b'.activeChangeSet = (b.recordChangedTurn info).activeChangeSet)
    (hview : b'.view = applyTurn b.view info) : Opens v b' := by
  obtain ⟨infos, hinfos, happly⟩ := h
  refine ⟨infos ++ [info], ?_, ?_⟩
  · simp [hactive, recordChangedTurn, hinfos]
  · rw [foldl_append, happly, hview]
    rfl

theorem Opens.recordItem (h : Opens v b)
    (hactive : b'.activeChangeSet = (b.recordChangedItem turnId item).activeChangeSet)
    (hview : b'.view = applyItem b.view ⟨turnId, item⟩) (hthere : turnId ∈ b.view.map Turn.id) :
    Follows v b' := by
  obtain ⟨infos, hinfos, happly⟩ := h
  refine ⟨{ changedItems := [⟨turnId, item⟩], changedTurns := infos }, ?_, ?_, ?_⟩
  · simp [hactive, recordChangedItem, hinfos]
  · simp [ChangeSet.apply, removeTurns_nil, happly, hview]
  · simpa [hview, keys_applyItem] using hthere

/-! ## The open turn -/

theorem openTurn_view (hnone : b.currentTurn = none) :
    (b.openTurn pending).view = b.view ++ [pending.turn] := by
  simp [openTurn, view, recordChangedTurn, hnone]

theorem Opens.openTurn (h : Opens v b) (hnone : b.currentTurn = none)
    (hitems : pending.turn.items = []) (hids : ((b.openTurn pending).view.map Turn.id).Nodup) :
    Opens v (b.openTurn pending) := by
  have hview : (b.openTurn pending).view = b.view ++ [pending.turn] := openTurn_view hnone
  rw [hview, map_append, nodup_append] at hids
  have hnew : pending.turn.info.id ∉ b.view.map Turn.id :=
    fun hmem => hids.2.2 _ hmem _ (by simp [Turn.id]) rfl
  refine h.recordTurn rfl ?_
  rw [hview, applyTurn, Keyed.upsert_of_notMem hnew, ← hitems]

theorem ensureTurn_current : b.ensureTurn.1.currentTurn = some b.ensureTurn.2 := by
  unfold ensureTurn
  split
  · next h => exact h
  · rfl

theorem ensureTurn_of_current (h : b.currentTurn = some pending) : b.ensureTurn = (b, pending) := by
  simp [ensureTurn, h]

theorem Opens.ensureTurn (h : Opens v b) (hids : (b.ensureTurn.1.view.map Turn.id).Nodup) :
    Opens v b.ensureTurn.1 := by
  unfold Builder.ensureTurn at hids ⊢
  split
  · exact h
  · next hnone =>
    simp only [hnone] at hids
    exact h.openTurn hnone rfl hids

/-- An item put into the open turn. -/
theorem Opens.upsertCurrent (h : Opens v b) (hcur : b.currentTurn = some pending)
    (hids : (b.view.map Turn.id).Nodup)
    (hactive : b'.activeChangeSet = (b.recordChangedItem pending.turn.id item).activeChangeSet)
    (hview : b'.view = b.turns ++ [pending.turn.upsertItem item]) : Follows v b' := by
  have hsplit := view_of_current hcur
  rw [hsplit, map_append, nodup_append] at hids
  have hnot : pending.turn.id ∉ b.turns.map Turn.id :=
    fun hmem => hids.2.2 _ hmem _ (by simp) rfl
  refine h.recordItem hactive ?_ (by simp [hsplit])
  rw [hview, hsplit, applyItem, Keyed.modify_append_of_notMem hnot]
  simp [Keyed.modify]

/-! ## Items -/

theorem nodup_of_view (h : b.currentTurn = some pending) (hids : (b.view.map Turn.id).Nodup) :
    pending.turn.id ∉ b.turns.map Turn.id := by
  rw [view_of_current h, map_append, nodup_append] at hids
  exact fun hmem => hids.2.2 _ hmem _ (by simp) rfl

@[simp] theorem id_upsertItem (turn : Turn) : (turn.upsertItem item).id = turn.id := rfl

@[simp] theorem id_pushItem (turn : Turn) : (pushItem item turn).id = turn.id := rfl

theorem upsertTurnItem_ne_nil (items : List ThreadItem) (item : ThreadItem) :
    upsertTurnItem items item ≠ [] := by
  intro h
  have hmem : item.id ∈ (upsertTurnItem items item).map ThreadItem.id :=
    mem_upsertTurnItem.2 (.inl rfl)
  simp [h] at hmem

theorem pushItem_eq_upsertItem (h : ((pushItem item turn).items.map ThreadItem.id).Nodup) :
    pushItem item turn = turn.upsertItem item := by
  have hnew : item.id ∉ turn.items.map ThreadItem.id := by
    simp only [pushItem, map_append, nodup_append] at h
    exact fun hmem => h.2.2 _ hmem _ (by simp) rfl
  rw [pushItem, Turn.upsertItem, upsertTurnItem, Keyed.upsert_of_notMem hnew]

/-- A handler that puts an item into a turn: the change set follows, and an open turn is kept. -/
def Recorded (v : List Turn) (b : Builder) : Prop := Follows v b ∧ b.Kept

theorem kept_of_current (h : b.currentTurn = some pending)
    (hkeep : pending.turn.items ≠ [] ∨ pending.openedExplicitly = true ∨
      pending.sawCompaction = true) : b.Kept := by
  intro p hp
  rw [h, Option.mem_some_iff] at hp
  exact hp ▸ hkeep

theorem kept_of_none (h : b.currentTurn = none) : b.Kept := by
  intro p hp
  simp [h] at hp

theorem Kept.of_eq (h : b.Kept) (hcur : b'.currentTurn = b.currentTurn) : b'.Kept := by
  unfold Kept at h ⊢
  rwa [hcur]

theorem Opens.recorded (h : Opens v b) (hkept : b.Kept) : Recorded v b := ⟨h.follows, hkept⟩

/-- `upsert_item_in_current_turn` after `ensure_turn`, and what amounts to it. -/
theorem Opens.putInCurrent (h : Opens v b) (hcur : b.currentTurn = some pending)
    (hturn : turn = pending.turn.upsertItem item) (hids : (b.view.map Turn.id).Nodup) :
    Recorded v { b.recordChangedItem pending.turn.id item with
      currentTurn := some (setTurn pending turn) } := by
  subst hturn
  refine ⟨h.upsertCurrent hcur hids rfl rfl, kept_of_current rfl (.inl ?_)⟩
  exact upsertTurnItem_ne_nil _ _

/-- The turn that replaces the open one has its id. -/
theorem ids_of_replaced (hcur : b.currentTurn = some pending)
    (hafter : Distinct (b.turns ++ [turn])) (hid : turn.id = pending.turn.id) :
    (b.view.map Turn.id).Nodup := by
  rw [view_of_current hcur]
  simpa [hid] using hafter.turns

theorem upsertItemInCurrentTurn_recorded (h : Opens v b)
    (hafter : Distinct (b.upsertItemInCurrentTurn item).view) :
    Recorded v (b.upsertItemInCurrentTurn item) := by
  have hids : (b.ensureTurn.1.view.map Turn.id).Nodup :=
    ids_of_replaced ensureTurn_current hafter (id_upsertItem _)
  exact (h.ensureTurn hids).putInCurrent ensureTurn_current rfl hids

theorem pushItemInCurrentTurn_recorded (h : Opens v b)
    (hafter : Distinct (b.pushItemInCurrentTurn item).view) :
    Recorded v (b.pushItemInCurrentTurn item) := by
  have hids : (b.ensureTurn.1.view.map Turn.id).Nodup :=
    ids_of_replaced ensureTurn_current hafter (id_pushItem _)
  refine (h.ensureTurn hids).putInCurrent ensureTurn_current (pushItem_eq_upsertItem ?_) hids
  exact hafter.items _ (mem_append_right _ (mem_singleton_self _))

theorem currentWithId_eq_some : b.currentWithId turnId = some pending ↔
      b.currentTurn = some pending ∧ pending.turn.id = turnId := by
  simp [currentWithId, Option.filter_eq_some_iff]

theorem mem_view {id : Str} :
    id ∈ b.view.map Turn.id ↔ id ∈ b.turns.map Turn.id ∨ b.currentWithId id ≠ none := by
  rw [view, map_append, mem_append]
  refine or_congr_right ?_
  cases hcur : b.currentTurn with
  | none => simp [currentWithId, hcur]
  | some pending =>
    by_cases hid : pending.turn.id = id
    · simp [currentWithId, hcur, hid]
    · simp [currentWithId, hcur, hid, Ne.symm hid]

theorem upsertItemInTurnId_recorded (h : Opens v b) (hids : (b.view.map Turn.id).Nodup)
    (hkept : b.currentWithId turnId = none → b.Kept) :
    Recorded v (b.upsertItemInTurnId turnId item) := by
  unfold upsertItemInTurnId
  split
  · next pending hcur =>
    obtain ⟨hcurrent, rfl⟩ := currentWithId_eq_some.1 hcur
    exact h.putInCurrent hcurrent rfl hids
  · next hcur =>
    split
    · next hmem =>
      refine ⟨h.recordItem rfl ?_ (mem_view.2 (.inl hmem)), (hkept hcur).of_eq rfl⟩
      exact (Keyed.modify_append_of_mem hmem).symm
    · exact h.recorded (hkept hcur)

theorem upsertItemInOptionalTurn_recorded (h : Opens v b) (hkept : b.Kept)
    (hbefore : Distinct b.view) (hafter : Distinct (b.upsertItemInOptionalTurn turnId item).view) :
    Recorded v (b.upsertItemInOptionalTurn turnId item) := by
  unfold upsertItemInOptionalTurn at hafter ⊢
  split
  · next hid =>
    rw [if_pos hid] at hafter
    exact upsertItemInCurrentTurn_recorded h hafter
  · exact upsertItemInTurnId_recorded h hbefore.turns fun _ => hkept

theorem Opens.finishCurrentTurn (h : Opens v b) (hkept : b.Kept) : Opens v b.finishCurrentTurn :=
  h.of_eq finishCurrentTurn_changes (finishCurrentTurn_view hkept)

/-- A turn that is not there yet is opened, and the item put into it. -/
theorem upsertReviewModeItem_recorded (h : Opens v b) {turnId : Option Str} (hkept : b.Kept)
    (hbefore : Distinct b.view) (hafter : Distinct (b.upsertReviewModeItem turnId item).view) :
    Recorded v (b.upsertReviewModeItem turnId item) := by
  cases turnId with
  | none => exact upsertItemInCurrentTurn_recorded h hafter
  | some turnId =>
    unfold upsertReviewModeItem
    by_cases hnew : (b.currentWithId turnId = none && !(turnId ∈ b.turns.map Turn.id)) = true
    · simp only [hnew, if_true]
      have hids : ((b.finishCurrentTurn.openTurn
          (b.finishCurrentTurn.newTurn (some turnId))).view.map Turn.id).Nodup := by
        have hnot : turnId ∉ b.view.map Turn.id := by
          rw [mem_view]
          simpa [and_comm] using hnew
        rw [openTurn_view finishCurrentTurn_current, finishCurrentTurn_view hkept,
          map_append]
        refine nodup_append.2 ⟨hbefore.turns, nodup_singleton _, ?_⟩
        rintro id hid _ hid' rfl
        have heq : id = turnId := mem_singleton.1 hid'
        exact hnot (heq ▸ hid)
      refine upsertItemInTurnId_recorded
        ((h.finishCurrentTurn hkept).openTurn finishCurrentTurn_current rfl hids) hids ?_
      intro hcur
      simp [currentWithId, openTurn, newTurn, Turn.id] at hcur
    · simp only [hnew]
      exact upsertItemInTurnId_recorded h hbefore.turns fun _ => hkept

theorem getLast?_eq_some {items : List ThreadItem} {last : ThreadItem}
    (h : items.getLast? = some last) : items = items.dropLast ++ [last] := by
  obtain ⟨init, rfl⟩ := getLast?_eq_some_iff.1 h
  simp

/-- The last item is replaced by one with its id. -/
theorem upsertItem_last {last : ThreadItem} (h : turn.items.getLast? = some last)
    (hid : last.id = item.id) (hids : ((turn.items.dropLast ++ [item]).map ThreadItem.id).Nodup) :
    { turn with items := turn.items.dropLast ++ [item] } = turn.upsertItem item := by
  have hsplit := getLast?_eq_some h
  rw [map_append, nodup_append] at hids
  have hnot : item.id ∉ turn.items.dropLast.map ThreadItem.id :=
    fun hmem => hids.2.2 _ hmem _ (by simp) rfl
  have hmem : item.id ∈ turn.items.map ThreadItem.id := by
    rw [hsplit]
    simp [hid]
  have hitems : upsertTurnItem turn.items item = turn.items.dropLast ++ [item] := by
    rw [upsertTurnItem, Keyed.upsert_of_mem hmem]
    nth_rewrite 1 [hsplit]
    rw [Keyed.modify_append_of_notMem hnot]
    simp [Keyed.modify, hid]
  rw [Turn.upsertItem, hitems]

theorem appendReasoning_recorded (h : Opens v b) (hkept : b.Kept) {text : Str}
    {extend : List Str → List Str → List Str × List Str}
    (hafter : Distinct (b.appendReasoning text extend).view) :
    Recorded v (b.appendReasoning text extend) := by
  unfold appendReasoning at hafter ⊢
  by_cases htext : text = []
  · rw [if_pos htext]
    exact h.recorded hkept
  · rw [if_neg htext] at hafter ⊢
    have hcur := b.ensureTurn_current
    have hopen := h.ensureTurn
    generalize b.ensureTurn = ensured at hcur hopen hafter ⊢
    obtain ⟨e, pending⟩ := ensured
    dsimp only at hcur hopen hafter ⊢
    revert hafter
    split
    · next id summary content hlast =>
      intro hafter
      have hids : (e.view.map Turn.id).Nodup := ids_of_replaced hcur hafter rfl
      refine (hopen hids).putInCurrent hcur (upsertItem_last hlast rfl ?_) hids
      exact hafter.items _ (mem_append_right _ (mem_singleton_self _))
    · intro hafter
      have hcur' : e.takeItemId.currentTurn = some pending := hcur
      have hids : (e.view.map Turn.id).Nodup := by
        rw [pushItemInCurrentTurn, ensureTurn_of_current hcur'] at hafter
        exact ids_of_replaced hcur hafter (id_pushItem _)
      exact pushItemInCurrentTurn_recorded ((hopen hids).of_eq rfl rfl) hafter

/-! ## Turns -/

theorem changeCurrentTurn_opens (h : Opens v b) (hcur : b.currentTurn = some pending)
    (hids : (b.view.map Turn.id).Nodup) (hkeep : ∀ info, (change info).id = info.id) :
    Opens v (b.changeCurrentTurn pending change) := by
  refine h.recordTurn rfl ?_
  have hnot : (change pending.turn.info).id ∉ b.turns.map Turn.id :=
    (hkeep _).symm ▸ nodup_of_view hcur hids
  have hmem : (change pending.turn.info).id ∈ b.view.map Turn.id := by
    rw [view_of_current hcur, hkeep]
    simp [Turn.id]
  rw [applyTurn, Keyed.upsert_of_mem hmem, view_of_current hcur,
    Keyed.modify_append_of_notMem hnot]
  simp [Keyed.modify, hkeep, Turn.id, changeCurrentTurn, view, recordChangedTurn, setTurn,
    Turn.changeInfo]

theorem changeCurrentTurn_kept (hkept : b.Kept) (hcur : b.currentTurn = some pending)
    (change : TurnMeta → TurnMeta) : (b.changeCurrentTurn pending change).Kept :=
  kept_of_current rfl (hkept pending hcur)

theorem changeFinishedTurn_opens (h : Opens v b) (turnId : Str)
    (hkeep : ∀ info, (change info).id = info.id) :
    Opens v (b.changeFinishedTurn turnId change) := by
  unfold changeFinishedTurn
  split
  · next turn hfound =>
    have hid : turn.id = turnId := by simpa using find?_some hfound
    have hmem : turnId ∈ b.turns.map Turn.id :=
      hid ▸ mem_map_of_mem (mem_of_find?_eq_some hfound)
    refine h.recordTurn rfl ?_
    have hinfo : (change turn.info).id = turnId := (hkeep _).trans hid
    have hsame : Keyed.modify Turn.id turnId (Turn.changeInfo change) b.turns =
        Keyed.modify Turn.id turnId (Turn.changeInfo fun _ => change turn.info) b.turns := by
      refine Keyed.modify_congr fun found hfound' => ?_
      rw [hfound, Option.mem_some_iff] at hfound'
      rw [hfound']
      rfl
    rw [applyTurn, hinfo, Keyed.upsert_of_mem (mem_view.2 (.inl hmem))]
    exact (congrArg (· ++ _) hsame).trans (Keyed.modify_append_of_mem hmem).symm
  · exact h

theorem changeFinishedTurn_current (b : Builder) (turnId : Str) (change : TurnMeta → TurnMeta) :
    (b.changeFinishedTurn turnId change).currentTurn = b.currentTurn := by
  unfold changeFinishedTurn
  split
  · rfl
  · rfl

/-- The open turn or a finished one gets other data, and an open turn may be finished by that. -/
inductive ChangesTurn (change : TurnMeta → TurnMeta) (b : Builder) : Builder → Prop where
  | unchanged : ChangesTurn change b b
  | finished (turnId : Str) : ChangesTurn change b (b.changeFinishedTurn turnId change)
  | current {pending : PendingTurn} (h : b.currentTurn = some pending) :
      ChangesTurn change b (b.changeCurrentTurn pending change)
  | closed {pending : PendingTurn} (h : b.currentTurn = some pending) :
      ChangesTurn change b (b.changeCurrentTurn pending change).finishCurrentTurn

theorem ChangesTurn.recorded (hchange : ChangesTurn change b b')
    (hkeep : ∀ info, (change info).id = info.id) (h : Opens v b) (hkept : b.Kept)
    (hbefore : Distinct b.view) : Recorded v b' := by
  cases hchange with
  | unchanged => exact h.recorded hkept
  | finished turnId =>
    refine (changeFinishedTurn_opens h turnId hkeep).recorded ?_
    exact hkept.of_eq (changeFinishedTurn_current b turnId change)
  | current hcur =>
    refine (changeCurrentTurn_opens h hcur hbefore.turns hkeep).recorded ?_
    exact changeCurrentTurn_kept hkept hcur change
  | closed hcur =>
    have hkept' := changeCurrentTurn_kept hkept hcur change
    have hopens := (changeCurrentTurn_opens h hcur hbefore.turns hkeep).finishCurrentTurn hkept'
    exact hopens.recorded (kept_of_none finishCurrentTurn_current)

theorem handleError_changes (b : Builder) (affectsTurnStatus : Bool) (error : Carried) :
    ChangesTurn (fun info => { info with status := .failed, error := some error }) b
      (b.handleError affectsTurnStatus error) := by
  unfold handleError
  split
  · split
    · next hcur => exact .current hcur
    · exact .unchanged
  · exact .unchanged

theorem changesTurn_current (b : Builder) (change : TurnMeta → TurnMeta) :
    ChangesTurn change b
      (match b.currentTurn with
      | some pending => b.changeCurrentTurn pending change
      | none => b) := by
  split
  · next hcur => exact .current hcur
  · exact .unchanged

theorem handleTurnAborted_changes (b : Builder) (turnId : Option Str)
    (completedAt durationMs : Option Int) :
    ChangesTurn (fun info =>
        { info with status := .interrupted, completedAt := completedAt, durationMs := durationMs })
      b (b.handleTurnAborted turnId completedAt durationMs) := by
  have hfallback := changesTurn_current b fun info =>
    { info with status := .interrupted, completedAt := completedAt, durationMs := durationMs }
  cases turnId with
  | none => exact hfallback
  | some turnId =>
    unfold handleTurnAborted
    cases hcur : b.currentWithId turnId with
    | some pending =>
      simp only [hcur]
      exact .current (currentWithId_eq_some.1 hcur).1
    | none =>
      simp only [hcur]
      by_cases hmem : turnId ∈ b.turns.map Turn.id
      · rw [if_pos hmem]
        exact .finished turnId
      · rw [if_neg hmem]
        exact hfallback

theorem handleTurnComplete_changes (b : Builder) (turnId : Str)
    (completedAt durationMs : Option Int) :
    ChangesTurn (fun info =>
        { info with
          status :=
            if info.status = .completed || info.status = .inProgress then .completed
            else info.status
          completedAt := completedAt
          durationMs := durationMs })
      b (b.handleTurnComplete turnId completedAt durationMs) := by
  unfold handleTurnComplete
  split
  · next hcur => exact .closed (currentWithId_eq_some.1 hcur).1
  · split
    · exact .finished _
    · split
      · next hcur => exact .closed hcur
      · exact .unchanged

theorem handleTurnStarted_recorded (h : Opens v b) (hkept : b.Kept) {startedAt : Option Int}
    (hafter : Distinct (b.handleTurnStarted turnId startedAt).view) :
    Recorded v (b.handleTurnStarted turnId startedAt) := by
  have hopens : Opens v (b.handleTurnStarted turnId startedAt) :=
    (h.finishCurrentTurn hkept).openTurn finishCurrentTurn_current rfl hafter.turns
  exact hopens.recorded (kept_of_current rfl (.inr (.inl rfl)))

theorem handleCompacted_recorded (h : Opens v b) (hafter : Distinct b.handleCompacted.view) :
    Recorded v b.handleCompacted := by
  have hids : (b.ensureTurn.1.view.map Turn.id).Nodup :=
    ids_of_replaced ensureTurn_current hafter rfl
  have hopens : Opens v b.handleCompacted :=
    (h.ensureTurn hids).of_eq rfl (view_of_current ensureTurn_current).symm
  exact hopens.recorded (kept_of_current rfl (.inr (.inr rfl)))

/-- The turns that a rollback keeps are those whose ids it does not report. -/
theorem removeTurns_drop {turns : List Turn} (n : Nat) (hids : (turns.map Turn.id).Nodup) :
    removeTurns ((turns.drop n).map Turn.id) turns = turns.take n := by
  have hsplit := take_append_drop n turns
  have hdisj : ∀ turn ∈ turns.take n, turn.id ∉ (turns.drop n).map Turn.id := by
    rw [← hsplit, map_append, nodup_append] at hids
    intro turn hturn hmem
    exact hids.2.2 _ (mem_map_of_mem hturn) _ hmem rfl
  have hkept : removeTurns ((turns.drop n).map Turn.id) (turns.take n) = turns.take n :=
    filter_eq_self.2 fun turn hturn => decide_eq_true (hdisj turn hturn)
  have hdropped : removeTurns ((turns.drop n).map Turn.id) (turns.drop n) = [] :=
    filter_eq_nil_iff.2 fun turn hturn => by
      simpa [map_drop] using mem_map_of_mem (f := Turn.id) hturn
  calc removeTurns ((turns.drop n).map Turn.id) turns
      = removeTurns ((turns.drop n).map Turn.id) (turns.take n ++ turns.drop n) := by rw [hsplit]
    _ = turns.take n := by
      rw [removeTurns, filter_append]
      exact (congrArg₂ _ hkept hdropped).trans (append_nil _)

theorem handleThreadRollback_recorded (hactive : b.activeChangeSet = some {}) (hkept : b.Kept)
    (hbefore : Distinct b.view) (numTurns : Nat) :
    Recorded b.view (b.handleThreadRollback numTurns) := by
  have hcur : (b.handleThreadRollback numTurns).currentTurn = none := finishCurrentTurn_current
  have hturns := finishCurrentTurn_turns hkept
  refine ⟨⟨{ removedTurnIds := (b.view.drop (b.view.length - numTurns)).map Turn.id }, ?_, ?_, ?_⟩,
    kept_of_none hcur⟩
  · simp [handleThreadRollback, recordRemovedTurnIds, hactive, hturns]
  · rw [view_of_none hcur]
    simp only [ChangeSet.apply, foldl_nil, removeTurns_drop _ hbefore.turns]
    simp only [handleThreadRollback, hturns]
  · simp

/-! ## One item -/

theorem handleUserMessage_recorded (h : Opens v b) (hkept : b.Kept) {content : Carried}
    (hafter : Distinct (b.handleUserMessage content).view) :
    Recorded v (b.handleUserMessage content) := by
  unfold handleUserMessage at hafter ⊢
  refine pushItemInCurrentTurn_recorded (Opens.of_eq ?_ rfl rfl) hafter
  split
  · split
    · exact h.finishCurrentTurn hkept
    · exact h
  · exact h

theorem handleAgentMessage_recorded (h : Opens v b) (hkept : b.Kept) {text : Str} {rest : Carried}
    (hafter : Distinct (b.handleAgentMessage text rest).view) :
    Recorded v (b.handleAgentMessage text rest) := by
  unfold handleAgentMessage at hafter ⊢
  split
  · exact h.recorded hkept
  · next htext =>
    rw [if_neg htext] at hafter
    exact pushItemInCurrentTurn_recorded (h.of_eq rfl rfl) hafter

theorem handleMaterializedItemLifecycle_recorded (h : Opens v b) (hkept : b.Kept)
    (hbefore : Distinct b.view) {item : TurnItem}
    (hafter : Distinct (b.handleMaterializedItemLifecycle turnId item).view) :
    Recorded v (b.handleMaterializedItemLifecycle turnId item) := by
  cases item with
  | plan id text =>
    simp only [handleMaterializedItemLifecycle]
    split
    · exact h.recorded hkept
    · exact upsertItemInTurnId_recorded h hbefore.turns fun _ => hkept
  | shown | hookPrompt => exact upsertItemInTurnId_recorded h hbefore.turns fun _ => hkept
  | enteredReviewMode | exitedReviewMode =>
    exact upsertReviewModeItem_recorded h hkept hbefore hafter
  | shownElsewhere => exact h.recorded hkept

/-- Review mode items bring their id, or take the next one. -/
theorem reviewMode_recorded (h : Opens v b) (hkept : b.Kept) (hbefore : Distinct b.view)
    (itemId turnId : Option Str) {make : Str → ThreadItem}
    (hb' : b' = match itemId with
      | some id => b.upsertReviewModeItem turnId (make id)
      | none => b.takeItemId.upsertReviewModeItem turnId (make b.nextItemId))
    (hafter : Distinct b'.view) : Recorded v b' := by
  subst hb'
  cases itemId with
  | some id => exact upsertReviewModeItem_recorded h hkept hbefore hafter
  | none =>
    have hopens : Opens v b.takeItemId := h.of_eq rfl rfl
    exact upsertReviewModeItem_recorded hopens (hkept.of_eq rfl) hbefore hafter

theorem handleEvent_recorded (hactive : b.activeChangeSet = some {}) (hkept : b.Kept)
    (hbefore : Distinct b.view) {event : EventMsg} (hafter : Distinct (b.handleEvent event).view) :
    Recorded b.view (b.handleEvent event) := by
  have h : Opens b.view b := ⟨[], hactive, rfl⟩
  cases event with
  | userMessage content => exact handleUserMessage_recorded h hkept hafter
  | agentMessage text rest => exact handleAgentMessage_recorded h hkept hafter
  | agentReasoning text | agentReasoningRawContent text =>
    exact appendReasoning_recorded h hkept hafter
  | inCurrentTurn event id body => exact upsertItemInCurrentTurn_recorded h hafter
  | inNamedTurn event turnId id body =>
    exact upsertItemInTurnId_recorded h hbefore.turns fun _ => hkept
  | inOptionalTurn event turnId shown =>
    cases shown with
    | none => exact h.recorded hkept
    | some shown => exact upsertItemInOptionalTurn_recorded h hkept hbefore hafter
  | contextCompacted => exact pushItemInCurrentTurn_recorded (h.of_eq rfl rfl) hafter
  | enteredReviewMode turnId itemId hint | exitedReviewMode turnId itemId review =>
    exact reviewMode_recorded h hkept hbefore itemId turnId rfl hafter
  | itemLifecycle turnId item =>
    exact handleMaterializedItemLifecycle_recorded h hkept hbefore hafter
  | error affects error =>
    exact (handleError_changes b affects error).recorded (fun _ => rfl) h hkept hbefore
  | threadRolledBack numTurns => exact handleThreadRollback_recorded hactive hkept hbefore numTurns
  | turnAborted turnId completedAt durationMs =>
    exact (handleTurnAborted_changes b turnId completedAt durationMs).recorded (fun _ => rfl) h
      hkept hbefore
  | turnStarted turnId startedAt => exact handleTurnStarted_recorded h hkept hafter
  | turnComplete turnId completedAt durationMs =>
    exact (handleTurnComplete_changes b turnId completedAt durationMs).recorded (fun _ => rfl) h
      hkept hbefore
  | other event => exact h.recorded hkept

variable {parseHookPrompt : Option Str → List ContentItem → Option (Str × Carried)}

theorem handleResponseItem_recorded (h : Opens v b) (hkept : b.Kept) {item : ResponseItem}
    (hafter : Distinct (b.handleResponseItem parseHookPrompt item).view) :
    Recorded v (b.handleResponseItem parseHookPrompt item) := by
  unfold handleResponseItem at hafter ⊢
  revert hafter
  split
  · split
    · split
      · exact pushItemInCurrentTurn_recorded h
      · exact fun _ => h.recorded hkept
    · exact fun _ => h.recorded hkept
  · exact fun _ => h.recorded hkept

/-- **Every rollout item records what it does to the turns.** -/
theorem handleRolloutItem_recorded (hactive : b.activeChangeSet = some {}) (hkept : b.Kept)
    (hbefore : Distinct b.view) {item : RolloutItem}
    (hafter : Distinct (b.handleRolloutItem parseHookPrompt item).view) :
    Recorded b.view (b.handleRolloutItem parseHookPrompt item) := by
  have h : Opens b.view
      { b with
        currentRolloutIndex := b.nextRolloutIndex
        nextRolloutIndex := b.nextRolloutIndex + 1 } := ⟨[], hactive, rfl⟩
  cases item with
  | eventMsg event =>
    exact handleEvent_recorded
      (b := { b with
        currentRolloutIndex := b.nextRolloutIndex
        nextRolloutIndex := b.nextRolloutIndex + 1 }) hactive (hkept.of_eq rfl) hbefore hafter
  | compacted item => exact handleCompacted_recorded h hafter
  | responseItem item => exact handleResponseItem_recorded h (hkept.of_eq rfl) hafter
  | interAgentCommunication | interAgentCommunicationMetadata | turnContext | worldState
  | sessionMeta => exact h.recorded (hkept.of_eq rfl)

/-! ## Renamed item ids -/

end Builder

section Renamed

variable (σ : Str → Str)

def ThreadItem.rename : ThreadItem → ThreadItem
  | .userMessage id content => .userMessage (σ id) content
  | .hookPrompt id fragments => .hookPrompt (σ id) fragments
  | .agentMessage id text rest => .agentMessage (σ id) text rest
  | .reasoning id summary content => .reasoning (σ id) summary content
  | .contextCompaction id => .contextCompaction (σ id)
  | .enteredReviewMode id review => .enteredReviewMode (σ id) review
  | .exitedReviewMode id review => .exitedReviewMode (σ id) review
  | .call kind id body => .call kind (σ id) body

def Turn.rename (turn : Turn) : Turn := { turn with items := turn.items.map (ThreadItem.rename σ) }

def PendingTurn.rename (pending : PendingTurn) : PendingTurn :=
  { pending with turn := pending.turn.rename σ }

/-- The builder without its change set, and with other ids in its items. -/
def Builder.relabel (b : Builder) : Builder :=
  { b with
    turns := b.turns.map (Turn.rename σ)
    currentTurn := b.currentTurn.map (PendingTurn.rename σ)
    activeChangeSet := none }

variable {σ}

theorem id_rename (item : ThreadItem) : (item.rename σ).id = σ item.id := by
  cases item <;> rfl

theorem rename_id (item : ThreadItem) : item.rename id = item := by
  cases item <;> rfl

theorem map_rename_id (turns : List Turn) : turns.map (Turn.rename id) = turns := by
  refine map_id'' (fun turn => ?_) turns
  obtain ⟨info, items⟩ := turn
  exact congrArg (Turn.mk info) (map_id'' rename_id items)

theorem ids_rename (turns : List Turn) : (turns.map (Turn.rename σ)).map Turn.id = turns.map Turn.id :=
  map_map.trans rfl

theorem rename_upsertItem (hσ : Function.Injective σ) (item : ThreadItem) (turn : Turn) :
    (turn.upsertItem item).rename σ = (turn.rename σ).upsertItem (item.rename σ) := by
  have hitems : (upsertTurnItem turn.items item).map (ThreadItem.rename σ) =
      upsertTurnItem (turn.items.map (ThreadItem.rename σ)) (item.rename σ) := by
    unfold upsertTurnItem
    rw [id_rename]
    exact Keyed.upsert_map hσ id_rename fun _ => rfl
  exact congrArg (Turn.mk turn.info) hitems

theorem rename_pushItem (item : ThreadItem) (turn : Turn) :
    (Builder.pushItem item turn).rename σ = Builder.pushItem (item.rename σ) (turn.rename σ) :=
  congrArg (Turn.mk turn.info) map_append

end Renamed

namespace Builder

/-- A renaming that leaves the ids alone that the builder makes up. -/
structure Renaming (σ : Str → Str) : Prop where
  injective : Function.Injective σ
  numbers : ∀ n, σ (itemId n) = itemId n

theorem renaming_id : Renaming id := ⟨Function.injective_id, fun _ => rfl⟩

section Relabel

variable {b : Builder} {pending : PendingTurn} {item : ThreadItem} {σ : Str → Str}

theorem view_relabel (b : Builder) : (b.relabel σ).view = b.view.map (Turn.rename σ) := by
  rw [view, view, map_append]
  cases hcur : b.currentTurn with
  | none => simp [relabel, hcur]
  | some pending => simp [relabel, hcur, PendingTurn.rename]

theorem relabel_id (b : Builder) : b.relabel id = { b with activeChangeSet := none } := by
  obtain ⟨turns, currentTurn, next, index, nextIndex, changes⟩ := b
  have hcurrent : currentTurn.map (PendingTurn.rename id) = currentTurn := by
    cases currentTurn with
    | none => rfl
    | some pending =>
      obtain ⟨⟨info, items⟩, explicit, compaction, start⟩ := pending
      simp [PendingTurn.rename, Turn.rename, map_id'' rename_id]
  simp [relabel, map_rename_id, hcurrent]

@[simp] theorem relabel_recordChangedItem (turnId : Str) :
    (b.recordChangedItem turnId item).relabel σ = b.relabel σ := rfl

@[simp] theorem relabel_recordChangedTurn (info : TurnMeta) :
    (b.recordChangedTurn info).relabel σ = b.relabel σ := rfl

@[simp] theorem relabel_takeItemId : b.takeItemId.relabel σ = (b.relabel σ).takeItemId := rfl

theorem currentWithId_relabel (turnId : Str) :
    (b.relabel σ).currentWithId turnId = (b.currentWithId turnId).map (PendingTurn.rename σ) := by
  have hid (pending : PendingTurn) : (pending.rename σ).turn.id = pending.turn.id := rfl
  simp only [currentWithId, relabel, Option.filter_map]
  rfl

theorem mem_turns_relabel {turnId : Str} :
    turnId ∈ (b.relabel σ).turns.map Turn.id ↔ turnId ∈ b.turns.map Turn.id := by
  rw [relabel, ids_rename]

@[simp] theorem relabel_finishCurrentTurn :
    b.finishCurrentTurn.relabel σ = (b.relabel σ).finishCurrentTurn := by
  unfold finishCurrentTurn
  cases hcur : b.currentTurn with
  | none => simp [relabel, hcur]
  | some pending =>
    simp only [relabel, hcur, Option.map_some, PendingTurn.rename, Turn.rename,
      map_eq_nil_iff]
    split
    · rfl
    · simp [Turn.rename]

theorem relabel_ensureTurn :
    (b.relabel σ).ensureTurn = (b.ensureTurn.1.relabel σ, b.ensureTurn.2.rename σ) := by
  unfold ensureTurn
  cases hcur : b.currentTurn with
  | none => simp [relabel, hcur, openTurn, newTurn, recordChangedTurn, PendingTurn.rename, Turn.rename]
  | some pending => simp [relabel, hcur]

theorem relabel_pushItemInCurrentTurn :
    (b.pushItemInCurrentTurn item).relabel σ =
      (b.relabel σ).pushItemInCurrentTurn (item.rename σ) := by
  simp only [pushItemInCurrentTurn, relabel_ensureTurn]
  simp only [relabel, recordChangedItem, Option.map_some, PendingTurn.rename, setTurn,
    rename_pushItem]
  rfl

theorem relabel_upsertItemInCurrentTurn (hσ : Renaming σ) :
    (b.upsertItemInCurrentTurn item).relabel σ =
      (b.relabel σ).upsertItemInCurrentTurn (item.rename σ) := by
  simp only [upsertItemInCurrentTurn, relabel_ensureTurn]
  simp only [relabel, recordChangedItem, Option.map_some, PendingTurn.rename, setTurn,
    rename_upsertItem hσ.injective]
  rfl

theorem relabel_upsertItemInTurnId (hσ : Renaming σ) (turnId : Str) :
    (b.upsertItemInTurnId turnId item).relabel σ =
      (b.relabel σ).upsertItemInTurnId turnId (item.rename σ) := by
  have hmodify : (Keyed.modify Turn.id turnId (Turn.upsertItem item) b.turns).map (Turn.rename σ) =
      Keyed.modify Turn.id turnId (Turn.upsertItem (item.rename σ)) (b.turns.map (Turn.rename σ)) :=
    Keyed.modify_map Function.injective_id (fun _ => rfl) (rename_upsertItem hσ.injective item)
  unfold upsertItemInTurnId
  simp only [currentWithId_relabel, mem_turns_relabel]
  cases b.currentWithId turnId with
  | some pending =>
    simp only [Option.map_some, relabel, recordChangedItem, PendingTurn.rename, setTurn,
      rename_upsertItem hσ.injective]
    rfl
  | none =>
    simp only [Option.map_none, apply_ite (relabel σ)]
    congr 1
    simp only [relabel, recordChangedItem, modifyTurn, hmodify]
    rfl

theorem relabel_upsertItemInOptionalTurn (hσ : Renaming σ) (turnId : Str) :
    (b.upsertItemInOptionalTurn turnId item).relabel σ =
      (b.relabel σ).upsertItemInOptionalTurn turnId (item.rename σ) := by
  unfold upsertItemInOptionalTurn
  split
  · exact relabel_upsertItemInCurrentTurn hσ
  · exact relabel_upsertItemInTurnId hσ turnId

theorem relabel_openTurn (turnId : Option Str) :
    (b.openTurn (b.newTurn turnId)).relabel σ =
      (b.relabel σ).openTurn ((b.relabel σ).newTurn turnId) := rfl

theorem relabel_upsertReviewModeItem (hσ : Renaming σ) (turnId : Option Str) :
    (b.upsertReviewModeItem turnId item).relabel σ =
      (b.relabel σ).upsertReviewModeItem turnId (item.rename σ) := by
  cases turnId with
  | none => exact relabel_upsertItemInCurrentTurn hσ
  | some turnId =>
    simp only [upsertReviewModeItem, relabel_upsertItemInTurnId hσ, apply_ite (relabel σ),
      relabel_openTurn, relabel_finishCurrentTurn, currentWithId_relabel, mem_turns_relabel,
      Option.map_eq_none_iff]

theorem relabel_appendReasoning (hσ : Renaming σ) (text : Str)
    (extend : List Str → List Str → List Str × List Str) :
    (b.appendReasoning text extend).relabel σ = (b.relabel σ).appendReasoning text extend := by
  unfold appendReasoning
  split
  · rfl
  · rw [relabel_ensureTurn]
    generalize b.ensureTurn = ensured
    obtain ⟨e, pending⟩ := ensured
    have hlast : (pending.rename σ).turn.items.getLast? =
        pending.turn.items.getLast?.map (ThreadItem.rename σ) := getLast?_map
    have hinit : (pending.rename σ).turn.items.dropLast =
        pending.turn.items.dropLast.map (ThreadItem.rename σ) := map_dropLast.symm
    have hnew : (e.takeItemId.pushItemInCurrentTurn
          (.reasoning e.nextItemId (extend [] []).1 (extend [] []).2)).relabel σ =
        (e.relabel σ).takeItemId.pushItemInCurrentTurn
          (.reasoning (e.relabel σ).nextItemId (extend [] []).1 (extend [] []).2) := by
      rw [relabel_pushItemInCurrentTurn, ThreadItem.rename, nextItemId, hσ.numbers]
      rfl
    dsimp only
    rw [hlast]
    cases pending.turn.items.getLast? with
    | none => exact hnew
    | some last =>
      cases last with
      | reasoning id summary content =>
        simp [relabel, recordChangedItem, setTurn, PendingTurn.rename, Turn.rename, ThreadItem.rename]
      | _ => exact hnew

theorem find?_relabel (turnId : Str) :
    ((b.relabel σ).turns.find? fun turn => turn.id = turnId) =
      (b.turns.find? fun turn => turn.id = turnId).map (Turn.rename σ) :=
  find?_map ..

theorem relabel_changeFinishedTurn (turnId : Str) (change : TurnMeta → TurnMeta) :
    (b.changeFinishedTurn turnId change).relabel σ =
      (b.relabel σ).changeFinishedTurn turnId change := by
  have hmodify : (Keyed.modify Turn.id turnId (Turn.changeInfo change) b.turns).map (Turn.rename σ) =
      Keyed.modify Turn.id turnId (Turn.changeInfo change) (b.turns.map (Turn.rename σ)) :=
    Keyed.modify_map Function.injective_id (fun _ => rfl) fun _ => rfl
  unfold changeFinishedTurn
  rw [find?_relabel]
  cases b.turns.find? fun turn => turn.id = turnId with
  | none => rfl
  | some turn =>
    simp only [Option.map_some, relabel, recordChangedTurn, modifyTurn, hmodify]
    rfl

theorem relabel_handleUserMessage (hσ : Renaming σ) (content : Carried) :
    (b.handleUserMessage content).relabel σ = (b.relabel σ).handleUserMessage content := by
  have hpush (started : Builder) :
      (started.takeItemId.pushItemInCurrentTurn (.userMessage started.nextItemId content)).relabel σ =
        (started.relabel σ).takeItemId.pushItemInCurrentTurn
          (.userMessage (started.relabel σ).nextItemId content) := by
    rw [relabel_pushItemInCurrentTurn, ThreadItem.rename, nextItemId, hσ.numbers]
    rfl
  have hcurrent : (b.relabel σ).currentTurn = b.currentTurn.map (PendingTurn.rename σ) := rfl
  unfold handleUserMessage
  rw [hcurrent]
  cases b.currentTurn with
  | none => exact hpush b
  | some pending =>
    simp only [Option.map_some, hpush, apply_ite (relabel σ), relabel_finishCurrentTurn,
      PendingTurn.rename, Turn.rename, map_eq_nil_iff]

theorem relabel_handleTurnAborted (turnId : Option Str) (completedAt durationMs : Option Int) :
    (b.handleTurnAborted turnId completedAt durationMs).relabel σ =
      (b.relabel σ).handleTurnAborted turnId completedAt durationMs := by
  unfold handleTurnAborted
  extract_lets abort fallback fallback'
  have hfallback : fallback.relabel σ = fallback' := by
    have hcurrent : (b.relabel σ).currentTurn = b.currentTurn.map (PendingTurn.rename σ) := rfl
    unfold fallback fallback'
    rw [hcurrent]
    cases b.currentTurn with
    | none => rfl
    | some pending => rfl
  cases turnId with
  | none => exact hfallback
  | some turnId =>
    simp only [currentWithId_relabel, mem_turns_relabel]
    cases b.currentWithId turnId with
    | some pending => rfl
    | none => simp only [Option.map_none, apply_ite (relabel σ), relabel_changeFinishedTurn, hfallback]

theorem relabel_handleTurnComplete (turnId : Str) (completedAt durationMs : Option Int) :
    (b.handleTurnComplete turnId completedAt durationMs).relabel σ =
      (b.relabel σ).handleTurnComplete turnId completedAt durationMs := by
  have hcurrent : (b.relabel σ).currentTurn = b.currentTurn.map (PendingTurn.rename σ) := rfl
  unfold handleTurnComplete
  simp only [currentWithId_relabel, mem_turns_relabel]
  rw [hcurrent]
  cases b.currentWithId turnId with
  | some pending => exact relabel_finishCurrentTurn
  | none =>
    simp only [Option.map_none, apply_ite (relabel σ), relabel_changeFinishedTurn]
    congr 1
    cases b.currentTurn with
    | none => rfl
    | some pending => exact relabel_finishCurrentTurn

theorem relabel_handleThreadRollback (numTurns : Nat) :
    (b.handleThreadRollback numTurns).relabel σ = (b.relabel σ).handleThreadRollback numTurns := by
  have hturns : (b.relabel σ).finishCurrentTurn.turns =
      b.finishCurrentTurn.turns.map (Turn.rename σ) := by
    rw [← relabel_finishCurrentTurn]
    rfl
  have hcount (turns : List Turn) :
      ((turns.map (Turn.rename σ)).map (·.items.length)) = turns.map (·.items.length) := by
    rw [map_map]
    exact map_congr_left fun turn _ => length_map ..
  have hrest : (b.relabel σ).finishCurrentTurn = b.finishCurrentTurn.relabel σ :=
    relabel_finishCurrentTurn.symm
  simp only [handleThreadRollback, hturns, length_map, ← map_take, hcount]
  rw [hrest]
  rfl

theorem relabel_handleError (affectsTurnStatus : Bool) (error : Carried) :
    (b.handleError affectsTurnStatus error).relabel σ =
      (b.relabel σ).handleError affectsTurnStatus error := by
  have hcurrent : (b.relabel σ).currentTurn = b.currentTurn.map (PendingTurn.rename σ) := rfl
  simp only [handleError, apply_ite (relabel σ), hcurrent]
  congr 1
  cases b.currentTurn with
  | none => rfl
  | some pending => rfl

theorem relabel_handleLifecycle (hσ : Renaming σ) (turnId : Str) {item : TurnItem}
    (hids : ∀ id ∈ item.ids, σ id = id) :
    (b.handleMaterializedItemLifecycle turnId item).relabel σ =
      (b.relabel σ).handleMaterializedItemLifecycle turnId item := by
  cases item with
  | plan id text =>
    simp only [handleMaterializedItemLifecycle, apply_ite (relabel σ),
      relabel_upsertItemInTurnId hσ, ThreadItem.rename, hids id (mem_singleton_self _)]
  | shown kind id body | hookPrompt id fragments =>
    simp only [handleMaterializedItemLifecycle, relabel_upsertItemInTurnId hσ, ThreadItem.rename,
      hids id (mem_singleton_self _)]
  | enteredReviewMode id review | exitedReviewMode id review =>
    simp only [handleMaterializedItemLifecycle, relabel_upsertReviewModeItem hσ, ThreadItem.rename,
      hids id (mem_singleton_self _)]
  | shownElsewhere => rfl

theorem relabel_handleEvent (hσ : Renaming σ) {event : EventMsg}
    (hids : ∀ id ∈ event.ids, σ id = id) :
    (b.handleEvent event).relabel σ = (b.relabel σ).handleEvent event := by
  have hnumber : σ b.nextItemId = (b.relabel σ).nextItemId := hσ.numbers _
  cases event with
  | userMessage content => exact relabel_handleUserMessage hσ content
  | agentMessage text rest =>
    simp only [handleEvent, handleAgentMessage, apply_ite (relabel σ),
      relabel_pushItemInCurrentTurn, ThreadItem.rename, hnumber]
    rfl
  | agentReasoning text | agentReasoningRawContent text => exact relabel_appendReasoning hσ text _
  | inCurrentTurn event id body =>
    simp only [handleEvent, relabel_upsertItemInCurrentTurn hσ, ThreadItem.rename,
      hids id (mem_singleton_self _)]
  | inNamedTurn event turnId id body =>
    simp only [handleEvent, relabel_upsertItemInTurnId hσ, ThreadItem.rename,
      hids id (mem_singleton_self _)]
  | inOptionalTurn event turnId shown =>
    cases shown with
    | none => rfl
    | some shown =>
      simp only [handleEvent, relabel_upsertItemInOptionalTurn hσ, ThreadItem.rename,
        hids shown.1 (mem_singleton_self _)]
  | contextCompacted =>
    simp only [handleEvent, relabel_pushItemInCurrentTurn, ThreadItem.rename, hnumber]
    rfl
  | enteredReviewMode turnId itemId _ | exitedReviewMode turnId itemId _ =>
    cases itemId with
    | some id =>
      simp only [handleEvent, handleEnteredReviewMode, handleExitedReviewMode,
        relabel_upsertReviewModeItem hσ, ThreadItem.rename, hids id (mem_singleton_self _)]
    | none =>
      simp only [handleEvent, handleEnteredReviewMode, handleExitedReviewMode,
        relabel_upsertReviewModeItem hσ, ThreadItem.rename, hnumber]
      rfl
  | itemLifecycle turnId item => exact relabel_handleLifecycle hσ turnId hids
  | error affectsTurnStatus error => exact relabel_handleError affectsTurnStatus error
  | threadRolledBack numTurns => exact relabel_handleThreadRollback numTurns
  | turnAborted turnId completedAt durationMs =>
    exact relabel_handleTurnAborted turnId completedAt durationMs
  | turnStarted turnId startedAt =>
    simp only [handleEvent, handleTurnStarted, ← relabel_finishCurrentTurn]
    rfl
  | turnComplete turnId completedAt durationMs =>
    exact relabel_handleTurnComplete turnId completedAt durationMs
  | other event => rfl

theorem relabel_handleCompacted : b.handleCompacted.relabel σ = (b.relabel σ).handleCompacted := by
  simp only [handleCompacted, relabel_ensureTurn]
  rfl

/-- Two readings of one item, alike but for ids that are renamed. -/
structure Renames (σ : Str → Str) (entry entry' : ReadItem) : Prop where
  item : entry'.item = entry.item
  event : ∀ event, entry.item = .eventMsg event → ∀ id ∈ event.ids, σ id = id
  prompt : entry'.hookPrompt? = entry.hookPrompt?.map (Prod.map σ id)

theorem renames_id (entry : ReadItem) : Renames id entry entry where
  item := rfl
  event _ _ _ _ := rfl
  prompt := by rw [Prod.map_id, Option.map_id, id]

theorem handleResponseItem_eq (b : Builder)
    (parseHookPrompt : Option Str → List ContentItem → Option (Str × Carried))
    (item : ResponseItem) :
    b.handleResponseItem parseHookPrompt item =
      (ReadItem.mk parseHookPrompt (.responseItem item)).hookPrompt?.elim b fun prompt =>
        b.pushItemInCurrentTurn (.hookPrompt prompt.1 prompt.2) := by
  cases item with
  | message id role content phase rest =>
    simp only [handleResponseItem, ReadItem.hookPrompt?]
    split
    · cases parseHookPrompt id content <;> rfl
    · rfl
  | _ => rfl

theorem relabel_readItem (hσ : Renaming σ) {entry entry' : ReadItem} (h : Renames σ entry entry') :
    (b.readItem entry).relabel σ = (b.relabel σ).readItem entry' := by
  obtain ⟨parseHookPrompt, item⟩ := entry
  obtain ⟨parseHookPrompt', item'⟩ := entry'
  obtain ⟨rfl, hevent, hprompt⟩ := h
  unfold readItem handleRolloutItem
  extract_lets indexed indexed'
  have hindexed : indexed.relabel σ = indexed' := rfl
  cases item' with
  | eventMsg event => exact relabel_handleEvent hσ (hevent event rfl)
  | compacted item => exact relabel_handleCompacted
  | responseItem item =>
    simp only [handleResponseItem_eq, hprompt]
    cases (ReadItem.mk parseHookPrompt (.responseItem item)).hookPrompt? with
    | none => rfl
    | some prompt => exact relabel_pushItemInCurrentTurn
  | _ => rfl

theorem relabel_readItems (hσ : Renaming σ) {entries entries' : List ReadItem}
    (h : List.Forall₂ (Renames σ) entries entries') :
    (b.readItems entries).relabel σ = (b.relabel σ).readItems entries' := by
  induction h generalizing b with
  | nil => rfl
  | cons hentry _ ih =>
    rw [readItems, foldl_cons, ← readItems, ih, relabel_readItem hσ hentry]
    rfl

end Relabel

/-! ## Batches -/

/-- A builder without a change set that `handle_rollout_item` has brought here. -/
structure Idle (b : Builder) : Prop where
  untracked : b.activeChangeSet = none
  kept : b.Kept

theorem idle_empty : ({} : Builder).Idle := ⟨rfl, kept_of_none rfl⟩

/-- One item with its changes is one item without them, and the changes lead to its view. -/
theorem handleRolloutItemWithChanges_spec {b : Builder} (h : b.Idle) (hbefore : Distinct b.view)
    {entry : ReadItem} (hafter : Distinct (b.readItem entry).view) :
    (b.handleRolloutItemWithChanges entry).1 = b.readItem entry ∧ (b.readItem entry).Idle ∧
      (b.handleRolloutItemWithChanges entry).2.apply b.view = (b.readItem entry).view ∧
      ∀ change ∈ (b.handleRolloutItemWithChanges entry).2.changedItems,
        change.turnId ∈ (b.readItem entry).view.map Turn.id := by
  have huntracked : { b with activeChangeSet := none } = b := by rw [← h.untracked]
  have hsame : { { b with activeChangeSet := some {} }.readItem entry with activeChangeSet := none } =
      b.readItem entry := by
    rw [← relabel_id, relabel_readItem renaming_id (renames_id entry), relabel_id]
    exact congrArg (readItem · entry) huntracked
  have hview : ({ b with activeChangeSet := some {} }.readItem entry).view =
      (b.readItem entry).view := by
    rw [← hsame]
    rfl
  obtain ⟨⟨changes, hactive, happly, hthere⟩, hkept⟩ :=
    handleRolloutItem_recorded (b := { b with activeChangeSet := some {} }) rfl (h.kept.of_eq rfl)
      hbefore (hview ▸ hafter)
  have hchanges : (b.handleRolloutItemWithChanges entry).2 = changes := by
    simp only [handleRolloutItemWithChanges]
    exact congrArg (Option.getD · {}) hactive
  rw [hchanges, ← hview]
  refine ⟨hsame, ?_, happly, hthere⟩
  rw [← hsame]
  exact ⟨rfl, hkept.of_eq rfl⟩

/-- Ids are distinct in all that the builder shows on its way through the items. -/
def StaysDistinct (b : Builder) (entries : List ReadItem) : Prop :=
  ∀ init ∈ entries.inits, Distinct (b.readItems init).view

instance (b : Builder) (entries : List ReadItem) : Decidable (StaysDistinct b entries) :=
  inferInstanceAs (Decidable (∀ init ∈ entries.inits, Distinct _))

section Batches

variable {b : Builder} {entries rest : List ReadItem}

theorem StaysDistinct.start (h : StaysDistinct b entries) : Distinct b.view :=
  h [] ((mem_inits _ _).2 nil_prefix)

theorem StaysDistinct.append (h : StaysDistinct b (entries ++ rest)) :
    StaysDistinct b entries ∧ StaysDistinct (b.readItems entries) rest := by
  refine ⟨fun init hinit => ?_, fun init hinit => ?_⟩
  · rw [mem_inits] at hinit
    exact h init ((mem_inits _ _).2 (hinit.trans (prefix_append _ _)))
  · rw [mem_inits] at hinit
    have hlong := h (entries ++ init)
      ((mem_inits _ _).2 ((prefix_append_right_inj _).2 hinit))
    rwa [readItems_append] at hlong

/-- The loop over a batch: what is collected takes the turns at its start to the view. -/
theorem collectChanges_spec {acc : Accumulator} {turns : List Turn} (h : b.Idle)
    (hdistinct : StaysDistinct b entries) (hindexed : acc.Indexed) (hanchored : acc.Anchored turns)
    (hview : acc.finish.apply turns = b.view) :
    (b.collectChanges acc entries).1 = b.readItems entries ∧ (b.readItems entries).Idle ∧
      (b.collectChanges acc entries).2.finish.apply turns = (b.readItems entries).view := by
  induction entries generalizing b acc with
  | nil => exact ⟨rfl, h, hview⟩
  | cons entry entries ih =>
    have hsplit : StaysDistinct b ([entry] ++ entries) := hdistinct
    have hrest := hsplit.append.2
    obtain ⟨hsame, hidle, happly, hthere⟩ :=
      handleRolloutItemWithChanges_spec h hdistinct.start hrest.start
    rw [← happly, ← hview] at hthere
    obtain ⟨hindexed', hanchored', hpush⟩ := Accumulator.push_spec hindexed hanchored hthere
    rw [hview, happly] at hpush
    simp only [collectChanges, hsame]
    exact ih hidle hrest hindexed' hanchored' hpush

theorem projectBatches_view (h : b.Idle) {batches : List (List ReadItem)}
    (hdistinct : StaysDistinct b batches.flatten) :
    b.projectBatches b.view batches = (b.readItems batches.flatten).view := by
  induction batches generalizing b with
  | nil => rfl
  | cons batch batches ih =>
    rw [flatten_cons] at hdistinct ⊢
    obtain ⟨hbatch, hrest⟩ := hdistinct.append
    obtain ⟨hsame, hidle, happly⟩ := collectChanges_spec h hbatch Accumulator.indexed_empty
      (by simp [Accumulator.Anchored, Slots.compact_empty]) (Accumulator.apply_empty b.view)
    have hrec := ih hidle hrest
    simp only [projectBatches, handleRolloutItemsWithChanges, hsame, happly, hrec, readItems_append]

end Batches

end Builder

/-! ## Two readings -/

/-- The number in an id that the builder has made up. -/
def itemNumber? (id : Str) : Option ℕ :=
  let number := Nat.ofDigitChars 10 (id.drop itemIdStart.length) 0
  if id = itemId number then some number else none

theorem itemNumber?_eq_some {id : Str} {n : ℕ} : itemNumber? id = some n ↔ id = itemId n := by
  unfold itemNumber?
  constructor
  · intro h
    dsimp only at h
    split at h
    · next hid => rwa [Option.some_inj.1 h] at hid
    · cases h
  · rintro rfl
    have hdigits : Nat.ofDigitChars 10 ((itemId n).drop itemIdStart.length) 0 = n := by
      rw [itemId, drop_left, Nat.toString_eq_repr, Nat.toList_repr,
        Nat.ofDigitChars_ten_toDigits]
    simp only [hdigits, if_true]

/-- The id that is drawn for the hook prompt, if it has none. -/
def ReadItem.drawnId? (entry : ReadItem) : Option Str :=
  match entry.item with
  | .responseItem (.message none _ _ _ _) => entry.hookPromptId?
  | _ => none

/-- The ids that are the same at every reading. -/
def ReadItem.givenIds (entry : ReadItem) : List Str :=
  match entry.item with
  | .responseItem (.message none _ _ _ _) => []
  | _ => entry.ids

/-- Two readings of one item: another id may be drawn for a hook prompt that has none. -/
structure Redraws (entry entry' : ReadItem) : Prop where
  item : entry'.item = entry.item
  given : ∀ id content,
    entry'.parseHookPrompt (some id) content = entry.parseHookPrompt (some id) content
  drawn : ∀ content,
    (entry'.parseHookPrompt none content).map Prod.snd =
      (entry.parseHookPrompt none content).map Prod.snd

def drawnIds (entries : List ReadItem) : List Str := entries.filterMap ReadItem.drawnId?

/-- What is drawn is new: nothing is drawn twice, is brought by an item or made up by the builder. -/
structure DrawsNew (entries : List ReadItem) : Prop where
  once : (drawnIds entries).Nodup
  given : ∀ entry ∈ entries, ∀ id ∈ entry.givenIds, id ∉ drawnIds entries
  numbers : ∀ id ∈ drawnIds entries, itemNumber? id = none

section Readings

variable {entry entry' : ReadItem} {entries entries' : List ReadItem} {σ : Str → Str}

/-- A prompt without an id is drawn one and shows the same at every reading. All else is the same. -/
theorem Redraws.cases (h : Redraws entry entry') :
    (entry.drawnId? = entry.hookPromptId? ∧ entry'.drawnId? = entry'.hookPromptId? ∧
      entry'.hookPrompt?.map Prod.snd = entry.hookPrompt?.map Prod.snd) ∨
    (entry.drawnId? = none ∧ entry'.drawnId? = none ∧ entry'.hookPrompt? = entry.hookPrompt? ∧
      ∀ id ∈ entry.hookPromptId?, id ∈ entry.givenIds) := by
  obtain ⟨parse, item⟩ := entry
  obtain ⟨parse', item'⟩ := entry'
  obtain ⟨hitem, hgiven, hdrawn⟩ := h
  dsimp only at hitem hgiven hdrawn
  subst hitem
  cases item' with
  | responseItem item =>
    cases item with
    | message id role content phase rest =>
      cases id with
      | none =>
        refine .inl ⟨rfl, rfl, ?_⟩
        simp only [ReadItem.hookPrompt?]
        split
        · exact hdrawn content
        · rfl
      | some id =>
        refine .inr ⟨rfl, rfl, ?_, fun id hid => Option.mem_toList.2 hid⟩
        simp only [ReadItem.hookPrompt?, hgiven]
    | _ => exact .inr ⟨rfl, rfl, rfl, fun id hid => Option.mem_toList.2 hid⟩
  | _ => exact .inr ⟨rfl, rfl, rfl, fun id hid => by cases hid⟩

theorem Redraws.givenIds (h : Redraws entry entry') : entry'.givenIds = entry.givenIds := by
  obtain ⟨parse, item⟩ := entry
  obtain ⟨parse', item'⟩ := entry'
  obtain ⟨hitem, hgiven, -⟩ := h
  dsimp only at hitem hgiven
  subst hitem
  cases item' with
  | responseItem item =>
    cases item with
    | message id role content phase rest =>
      cases id with
      | none => rfl
      | some id =>
        simp only [ReadItem.givenIds, ReadItem.ids, ReadItem.hookPromptId?, ReadItem.hookPrompt?,
          hgiven]
    | _ => rfl
  | _ => rfl

theorem Redraws.isSome_drawnId? (h : Redraws entry entry') :
    entry'.drawnId?.isSome = entry.drawnId?.isSome := by
  rcases h.cases with ⟨hid, hid', hshown⟩ | ⟨hid, hid', -, -⟩
  · have hsome := congrArg Option.isSome hshown
    rw [Option.isSome_map, Option.isSome_map] at hsome
    rw [hid, hid', ReadItem.hookPromptId?, ReadItem.hookPromptId?, Option.isSome_map,
      Option.isSome_map, hsome]
  · rw [hid, hid']

theorem Redraws.renames (h : Redraws entry entry') (hgiven : ∀ id ∈ entry.givenIds, σ id = id)
    (hdrawn : entry.drawnId?.map σ = entry'.drawnId?) : Builder.Renames σ entry entry' := by
  refine ⟨h.item, fun event hevent id hid => hgiven id ?_, ?_⟩
  · rw [ReadItem.givenIds, ReadItem.ids, hevent]
    exact hid
  · rcases h.cases with ⟨hid, hid', hshown⟩ | ⟨-, -, hsame, hids⟩
    · rw [hid, hid', ReadItem.hookPromptId?, ReadItem.hookPromptId?] at hdrawn
      cases hprompt : entry.hookPrompt? with
      | none =>
        rw [hprompt] at hshown
        exact Option.map_eq_none_iff.1 hshown
      | some prompt =>
        rw [hprompt] at hdrawn hshown
        obtain ⟨prompt', hprompt', hsnd⟩ := Option.map_eq_some_iff.1 hshown
        rw [hprompt', Option.map_some, Option.map_some, Option.map_some, Option.some_inj] at hdrawn
        rw [hprompt', Option.map_some, Option.some_inj]
        exact Prod.ext hdrawn.symm hsnd
    · rw [hsame]
      cases hprompt : entry.hookPrompt? with
      | none => rfl
      | some prompt =>
        have hfixed : σ prompt.1 = prompt.1 := by
          refine hgiven _ (hids _ ?_)
          rw [ReadItem.hookPromptId?, hprompt]
          rfl
        exact congrArg some (Prod.ext hfixed.symm rfl)

theorem length_drawnIds (h : List.Forall₂ Redraws entries entries') :
    (drawnIds entries).length = (drawnIds entries').length := by
  induction h with
  | nil => rfl
  | @cons entry entry' entries entries' hentry _ ih =>
    have hsome := hentry.isSome_drawnId?
    unfold drawnIds at ih ⊢
    rw [filterMap_cons, filterMap_cons]
    cases hid : entry.drawnId? with
    | none =>
      rw [hid, Option.isSome_none, Option.isSome_eq_false_iff, Option.isNone_iff_eq_none] at hsome
      rw [hsome]
      exact ih
    | some id =>
      rw [hid, Option.isSome_some, Option.isSome_iff_exists] at hsome
      obtain ⟨id', hid'⟩ := hsome
      rw [hid']
      exact congrArg Nat.succ ih

theorem renames_of_redraws (h : List.Forall₂ Redraws entries entries')
    (hgiven : ∀ entry ∈ entries, ∀ id ∈ entry.givenIds, σ id = id)
    (hdrawn : (drawnIds entries).map σ = drawnIds entries') :
    List.Forall₂ (Builder.Renames σ) entries entries' := by
  induction h with
  | nil => exact .nil
  | @cons entry entry' entries entries' hentry _ ih =>
    have hsome := hentry.isSome_drawnId?
    have hrest := ih fun e he => hgiven e (mem_cons_of_mem _ he)
    have hfirst := hentry.renames (hgiven entry mem_cons_self)
    unfold drawnIds at hrest hdrawn
    rw [filterMap_cons, filterMap_cons] at hdrawn
    cases hid : entry.drawnId? with
    | none =>
      rw [hid, Option.isSome_none, Option.isSome_eq_false_iff, Option.isNone_iff_eq_none] at hsome
      rw [hid, hsome] at hdrawn
      exact .cons (hfirst (by rw [hid, hsome]; rfl)) (hrest hdrawn)
    | some id =>
      rw [hid, Option.isSome_some, Option.isSome_iff_exists] at hsome
      obtain ⟨id', hid'⟩ := hsome
      rw [hid, hid'] at hdrawn
      obtain ⟨hsame, hdrawn⟩ := List.cons.inj hdrawn
      exact .cons (hfirst (by rw [hid, hid', ← hsame]; rfl)) (hrest hdrawn)

/-- **The turns of two readings are the same but for the ids that are drawn.** -/
theorem readings_agree (h : List.Forall₂ Redraws entries entries') (hnew : DrawsNew entries)
    (hnew' : DrawsNew entries') :
    ∃ σ : Equiv.Perm Str, (drawnIds entries).map σ = drawnIds entries' ∧
      (∀ id, id ∉ drawnIds entries → id ∉ drawnIds entries' → σ id = id) ∧
      (Builder.readItems {} entries').view =
        (Builder.readItems {} entries).view.map (Turn.rename σ) := by
  obtain ⟨σ, hmap, hfix⟩ := FreshIds.exists_renaming (length_drawnIds h) hnew.once hnew'.once
  refine ⟨σ, hmap, hfix, ?_⟩
  have hnumber {entries : List ReadItem} (h : DrawsNew entries) (n : ℕ) :
      itemId n ∉ drawnIds entries := fun hmem =>
    Option.some_ne_none n ((itemNumber?_eq_some.2 rfl).symm.trans (h.numbers _ hmem))
  have hσ : Builder.Renaming σ :=
    ⟨σ.injective, fun n => hfix _ (hnumber hnew n) (hnumber hnew' n)⟩
  have hgiven : ∀ entry ∈ entries, ∀ id ∈ entry.givenIds, σ id = id := by
    intro entry hentry id hid
    obtain ⟨entry', hentry', hredraws⟩ := forall₂_mem_left h hentry
    exact hfix id (hnew.given entry hentry id hid)
      (hnew'.given entry' hentry' id (hredraws.givenIds ▸ hid))
  have hsame := Builder.relabel_readItems (b := {}) hσ (renames_of_redraws h hgiven hmap)
  rw [← Builder.view_relabel, hsame]
  rfl

end Readings

/-- **A projection that applies one change set per batch follows the builder.** A builder that reads
the items another time may draw other ids for the hook prompts that have none, and shows the same
turns otherwise. -/
theorem projectBatches_eq (batches : List (List ReadItem))
    (h : Builder.StaysDistinct {} batches.flatten) :
    Builder.projectBatches {} [] batches = (Builder.readItems {} batches.flatten).view ∧
    ∀ entries, List.Forall₂ Redraws batches.flatten entries →
      DrawsNew batches.flatten → DrawsNew entries →
      ∃ σ : Equiv.Perm Str, (drawnIds batches.flatten).map σ = drawnIds entries ∧
        (∀ id, id ∉ drawnIds batches.flatten → id ∉ drawnIds entries → σ id = id) ∧
        (Builder.readItems {} entries).view =
          (Builder.projectBatches {} [] batches).map (Turn.rename σ) := by
  have hfollows : Builder.projectBatches {} [] batches =
      (Builder.readItems {} batches.flatten).view :=
    Builder.projectBatches_view Builder.idle_empty h
  refine ⟨hfollows, fun entries hredraws hnew hnew' => ?_⟩
  rw [hfollows]
  exact readings_agree hredraws hnew hnew'

def promptText : Str := "<hook_prompt hook_run_id=\"run\">Retry.</hook_prompt>".toList

/-- The hook prompts that consist of this text. One without an id is drawn `drawn`. -/
def readPrompt (drawn : Str) (id : Option Str) (content : List ContentItem) :
    Option (Str × Carried) :=
  if content = [.inputText promptText] then some (id.getD drawn, "Retry.".toList) else none

def promptMessage (id : Option Str) : ResponseItem :=
  .message id "user".toList [.inputText promptText] none none

/-- A turn with two prompts that have no id, a rollback of the next turn in the batch that makes it
again, and a late item of the first turn. -/
def rolledBackBatches (drawn drawn' : Str) : List (List ReadItem) :=
  [[.eventMsg (.turnStarted "a".toList none), .eventMsg (.userMessage "hello".toList),
      .responseItem (promptMessage none)].map (ReadItem.mk (readPrompt drawn)),
    [.responseItem (promptMessage none), .eventMsg (.turnComplete "a".toList none none),
      .eventMsg (.turnStarted "b".toList none), .eventMsg (.userMessage "more".toList),
      .eventMsg (.threadRolledBack 1), .eventMsg (.turnStarted "b".toList (some 7)),
      .eventMsg (.inNamedTurn .execCommandEnd "a".toList "call".toList "ls".toList)].map
        (ReadItem.mk (readPrompt drawn')),
    [.eventMsg (.agentReasoning "hm".toList), .eventMsg (.error true "oh".toList)].map
      (ReadItem.mk (readPrompt drawn))]

theorem redraws_rolledBackBatches (u v u' v' : Str) :
    List.Forall₂ Redraws (rolledBackBatches u v).flatten (rolledBackBatches u' v').flatten := by
  have hread (drawn drawn' : Str) (item : RolloutItem) :
      Redraws ⟨readPrompt drawn, item⟩ ⟨readPrompt drawn', item⟩ := by
    refine ⟨rfl, fun _ _ => rfl, fun content => ?_⟩
    by_cases htext : content = [.inputText promptText]
    · simp only [readPrompt, if_pos htext, Option.map_some]
    · simp only [readPrompt, if_neg htext]
  repeat' first | exact .nil | refine .cons (hread _ _ _) ?_

theorem projectBatches_rolledBack :
    Builder.projectBatches {} [] (rolledBackBatches "u".toList "v".toList) =
      (Builder.readItems {} (rolledBackBatches "u".toList "v".toList).flatten).view ∧
    ∃ σ : Equiv.Perm Str, ["u".toList, "v".toList].map σ = ["w".toList, "x".toList] ∧
      (Builder.readItems {} (rolledBackBatches "w".toList "x".toList).flatten).view =
        (Builder.projectBatches {} [] (rolledBackBatches "u".toList "v".toList)).map
          (Turn.rename σ) := by
  obtain ⟨hfollows, hredrawn⟩ :=
    projectBatches_eq (rolledBackBatches "u".toList "v".toList) (by decide +kernel)
  obtain ⟨σ, hmap, -, hview⟩ := hredrawn (rolledBackBatches "w".toList "x".toList).flatten
    (redraws_rolledBackBatches _ _ _ _) ⟨by decide +kernel, by decide +kernel, by decide +kernel⟩
    ⟨by decide +kernel, by decide +kernel, by decide +kernel⟩
  exact ⟨hfollows, σ, hmap, hview⟩

/-- The ids of the prompts are drawn anew, so the turns are not exactly the same. -/
theorem projectBatches_redrawn :
    Builder.StaysDistinct {} (rolledBackBatches "u".toList "v".toList).flatten ∧
      List.Forall₂ Redraws (rolledBackBatches "u".toList "v".toList).flatten
        (rolledBackBatches "w".toList "x".toList).flatten ∧
      Builder.projectBatches {} [] (rolledBackBatches "u".toList "v".toList) ≠
        (Builder.readItems {} (rolledBackBatches "w".toList "x".toList).flatten).view :=
  ⟨by decide +kernel, redraws_rolledBackBatches _ _ _ _, by decide +kernel⟩

end Codex.ThreadHistory
