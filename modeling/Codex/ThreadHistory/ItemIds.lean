import Codex.ThreadHistory.Messages

/-!
# The ids that the builder makes up

`next_item_id` numbers the items whose events bring no id. Most handlers put an
item into a turn by `upsert_turn_item`, which never makes an id stand twice there.
Two steps can go wrong. `handle_thread_rollback` sets the number back to the count
of the items that are left, and a late review item may have a number above it.
`handle_response_item` appends a hook prompt without a look at the ids of the turn.
The ids stay distinct as long as no step does either, and no longer than that
(`distinctIds_iff`).
-/

namespace Codex.ThreadHistory

open List Codex.Text Codex.Rollout

/-! ## Ids -/

def Turn.itemIds (turn : Turn) : List Str := turn.items.map ThreadItem.id

def itemIds (turns : List Turn) : List (List Str) := turns.map Turn.itemIds

/-- Each turn has its ids once, and the thread each `item-N`. -/
def DistinctIds (turns : List Turn) : Prop := FreshIds.Distinct itemNumber? (itemIds turns)

instance (turns : List Turn) : Decidable (DistinctIds turns) :=
  decidable_of_iff ((∀ ids ∈ itemIds turns, ids.Nodup) ∧
      ((itemIds turns).flatten.filter fun id => (itemNumber? id).isSome).Nodup)
    ⟨fun h => ⟨h.1, h.2⟩, fun h => ⟨h.each, h.once⟩⟩

/-! ## Runs -/

namespace Builder

/-- The turns that a rollback keeps. -/
def keptTurns (b : Builder) (numTurns : ℕ) : List Turn :=
  let turns := b.finishCurrentTurn.turns
  turns.take (turns.length - numTurns)

def itemCount (turns : List Turn) : ℕ := (turns.map (·.items.length)).sum

/-- A rollback leaves no `item-N` with a number above the count of the items that it leaves. -/
def RollsBackInOrder (b : Builder) (item : RolloutItem) : Prop :=
  match item with
  | .eventMsg (.threadRolledBack numTurns) =>
    ∀ id ∈ (itemIds (b.keptTurns numTurns)).flatten,
      ∀ n ∈ itemNumber? id, n ≤ itemCount (b.keptTurns numTurns)
  | _ => True

/-- A hook prompt is not in the open turn yet. -/
def PromptIsNew (b : Builder) (entry : ReadItem) : Prop :=
  ∀ id ∈ entry.hookPromptId?, ∀ pending ∈ b.currentTurn, id ∉ pending.turn.itemIds

/-- The step keeps the ids distinct. -/
def KeepsIds (b : Builder) (entry : ReadItem) : Prop :=
  b.RollsBackInOrder entry.item ∧ b.PromptIsNew entry

instance (b : Builder) (item : RolloutItem) : Decidable (b.RollsBackInOrder item) := by
  unfold RollsBackInOrder
  split <;> infer_instance

instance (b : Builder) (entry : ReadItem) : Decidable (b.PromptIsNew entry) := by
  unfold PromptIsNew
  infer_instance

instance (b : Builder) (entry : ReadItem) : Decidable (b.KeepsIds entry) :=
  inferInstanceAs (Decidable (_ ∧ _))

/-- A finished turn that is not the last one, the open turn counted in. -/
def NamesEarlier (b : Builder) (turnId : Option Str) : Prop :=
  ∃ id ∈ turnId, id ∈ b.view.dropLast.map Turn.id ∧ b.currentWithId id = none

/-- A review mode event that brings no id for its item, but the id of an earlier turn. -/
def LateReview (b : Builder) (item : RolloutItem) : Prop :=
  match item with
  | .eventMsg (.enteredReviewMode turnId none _) | .eventMsg (.exitedReviewMode turnId none _) =>
    b.NamesEarlier turnId
  | _ => False

instance (b : Builder) (turnId : Option Str) : Decidable (b.NamesEarlier turnId) :=
  inferInstanceAs (Decidable (∃ id ∈ turnId, _))

instance (b : Builder) (item : RolloutItem) : Decidable (b.LateReview item) := by
  unfold LateReview
  split <;> infer_instance

end Builder

namespace Builder

variable {b b' : Builder} {pending : PendingTurn} {item : ThreadItem}

/-- The ids in the thread are distinct, and below the next number. -/
def Numbered (b : Builder) : Prop :=
  FreshIds.Numbered itemNumber? b.nextItemIndex (itemIds b.view)

/-- No number is above the count of the items up to the end of its turn. -/
def Counted (b : Builder) : Prop :=
  FreshIds.Counted itemNumber? b.nextItemIndex (itemIds b.view)

/-- Ids are put into turns. A new number goes to the last turn, unless `late` holds. -/
def Grows (late : Prop) (b b' : Builder) : Prop :=
  FreshIds.Grows itemNumber? late b.nextItemIndex (itemIds b.view) b'.nextItemIndex
    (itemIds b'.view)

/-! ## Steps that bring no item -/

/-- No item comes or goes. -/
structure SameItems (b b' : Builder) : Prop where
  next : b'.nextItemIndex = b.nextItemIndex
  ids : FreshIds.Same (itemIds b.view) (itemIds b'.view)

theorem SameItems.refl (b : Builder) : SameItems b b := ⟨rfl, FreshIds.Same.refl _⟩

theorem SameItems.trans {b'' : Builder} (h : SameItems b b') (h' : SameItems b' b'') :
    SameItems b b'' :=
  ⟨h'.next.trans h.next, h.ids.trans h'.ids⟩

theorem SameItems.grows {late : Prop} (h : SameItems b b') : Grows late b b' := by
  unfold Grows
  rw [h.next]
  exact .same h.ids

theorem itemIds_append (turns turns' : List Turn) :
    itemIds (turns ++ turns') = itemIds turns ++ itemIds turns' := map_append

theorem itemIds_current (h : b.currentTurn = some pending) :
    itemIds b.view = itemIds b.turns ++ [pending.turn.itemIds] := by
  rw [view_of_current h, itemIds_append]
  rfl

/-- The open turn is replaced by one with its items. -/
theorem SameItems.setCurrent {pending' : PendingTurn} (hcur : b.currentTurn = some pending)
    (hcur' : b'.currentTurn = some pending') (hturns : b'.turns = b.turns)
    (hnext : b'.nextItemIndex = b.nextItemIndex)
    (hids : pending'.turn.itemIds = pending.turn.itemIds) : SameItems b b' := by
  refine ⟨hnext, ?_⟩
  rw [itemIds_current hcur, itemIds_current hcur', hturns, hids]
  exact FreshIds.Same.refl _

theorem finishCurrentTurn_sameItems (b : Builder) : SameItems b b.finishCurrentTurn := by
  cases hcur : b.currentTurn with
  | none =>
    have hsame : b.finishCurrentTurn = b := by simp [finishCurrentTurn, hcur]
    rw [hsame]
    exact SameItems.refl b
  | some pending =>
    have hview := itemIds_current hcur
    unfold finishCurrentTurn
    simp only [hcur]
    split
    · next hdrop =>
      refine ⟨rfl, ?_⟩
      have hitems : pending.turn.itemIds = [] := by simp_all [Turn.itemIds]
      rw [hview, hitems, view_of_none rfl]
      exact (FreshIds.same_concat_nil _).symm
    · refine ⟨rfl, ?_⟩
      rw [hview, view_of_none rfl, itemIds_append]
      exact FreshIds.Same.refl _

theorem openTurn_sameItems (hnone : b.currentTurn = none) (hitems : pending.turn.items = []) :
    SameItems b (b.openTurn pending) := by
  refine ⟨rfl, ?_⟩
  have hids : itemIds [pending.turn] = [[]] := by simp [itemIds, Turn.itemIds, hitems]
  rw [openTurn_view hnone, itemIds_append, hids]
  exact FreshIds.same_concat_nil _

theorem ensureTurn_sameItems (b : Builder) : SameItems b b.ensureTurn.1 := by
  unfold ensureTurn
  split
  · exact SameItems.refl b
  · next hnone => exact openTurn_sameItems hnone rfl

theorem changeCurrentTurn_sameItems (hcur : b.currentTurn = some pending)
    (change : TurnMeta → TurnMeta) : SameItems b (b.changeCurrentTurn pending change) :=
  SameItems.setCurrent hcur rfl rfl rfl rfl

theorem changeFinishedTurn_sameItems (b : Builder) (turnId : Str) (change : TurnMeta → TurnMeta) :
    SameItems b (b.changeFinishedTurn turnId change) := by
  unfold changeFinishedTurn
  split
  · refine ⟨rfl, ?_⟩
    have hturns : (b.modifyTurn turnId (Turn.changeInfo change)).turns.map Turn.itemIds =
        b.turns.map Turn.itemIds := Keyed.map_modify fun _ _ => rfl
    have hids : itemIds ((b.modifyTurn turnId (Turn.changeInfo change)).view) = itemIds b.view := by
      rw [view, view, itemIds_append, itemIds_append, itemIds, hturns]
      rfl
    exact (congrArg (FreshIds.Same (itemIds b.view)) hids).mpr (FreshIds.Same.refl _)
  · exact SameItems.refl b

theorem handleError_sameItems (b : Builder) (affectsTurnStatus : Bool) (error : Carried) :
    SameItems b (b.handleError affectsTurnStatus error) := by
  unfold handleError
  split
  · split
    · next pending hcur => exact changeCurrentTurn_sameItems hcur _
    · exact SameItems.refl b
  · exact SameItems.refl b

theorem handleTurnAborted_sameItems (b : Builder) (turnId : Option Str)
    (completedAt durationMs : Option Int) :
    SameItems b (b.handleTurnAborted turnId completedAt durationMs) := by
  unfold handleTurnAborted
  extract_lets abort fallback
  have hfallback : SameItems b fallback := by
    unfold fallback
    split
    · next pending hcur => exact changeCurrentTurn_sameItems hcur abort
    · exact SameItems.refl b
  cases turnId with
  | none => exact hfallback
  | some turnId =>
    dsimp only
    split
    · next pending hcur => exact changeCurrentTurn_sameItems (currentWithId_eq_some.1 hcur).1 abort
    · split
      · exact changeFinishedTurn_sameItems b turnId abort
      · exact hfallback

theorem handleTurnStarted_sameItems (b : Builder) (turnId : Str) (startedAt : Option Int) :
    SameItems b (b.handleTurnStarted turnId startedAt) :=
  (finishCurrentTurn_sameItems b).trans (openTurn_sameItems finishCurrentTurn_current rfl)

theorem handleTurnComplete_sameItems (b : Builder) (turnId : Str)
    (completedAt durationMs : Option Int) :
    SameItems b (b.handleTurnComplete turnId completedAt durationMs) := by
  unfold handleTurnComplete
  extract_lets markCompleted
  have hcomplete {pending : PendingTurn} (hcur : b.currentTurn = some pending) :
      SameItems b (b.changeCurrentTurn pending markCompleted).finishCurrentTurn :=
    (changeCurrentTurn_sameItems hcur markCompleted).trans (finishCurrentTurn_sameItems _)
  split
  · next pending hcur => exact hcomplete (currentWithId_eq_some.1 hcur).1
  · split
    · exact changeFinishedTurn_sameItems b turnId markCompleted
    · split
      · next pending hcur => exact hcomplete hcur
      · exact SameItems.refl b

theorem handleCompacted_sameItems (b : Builder) : SameItems b b.handleCompacted :=
  (ensureTurn_sameItems b).trans (SameItems.setCurrent ensureTurn_current rfl rfl rfl rfl)

/-! ## Steps that put an item into a turn -/

theorem itemIds_upsertItem (item : ThreadItem) (turn : Turn) :
    (turn.upsertItem item).itemIds = FreshIds.put item.id turn.itemIds := by
  unfold FreshIds.put
  split
  · next hmem =>
    rw [Turn.itemIds, Turn.upsertItem, upsertTurnItem, Keyed.upsert_of_mem hmem]
    exact Keyed.keys_modify fun _ _ => rfl
  · next hnew =>
    rw [Turn.itemIds, Turn.upsertItem, upsertTurnItem, Keyed.upsert_of_notMem hnew, map_append]
    rfl

theorem itemIds_pushItem (item : ThreadItem) (turn : Turn) :
    (pushItem item turn).itemIds = turn.itemIds ++ [item.id] := map_append

/-- The id is put into a turn, which is the last one unless `late` holds. -/
structure Puts (late : Prop) (b : Builder) (id : Str) (b' : Builder) : Prop where
  next : b'.nextItemIndex = b.nextItemIndex
  ids : ∃ before block after, FreshIds.Same (itemIds b.view) (before ++ block :: after) ∧
    itemIds b'.view = before ++ FreshIds.put id block :: after ∧ (after = [] ∨ late)

section Puts

variable {late late' : Prop} {id : Str}

theorem Puts.of_sameItems {b'' : Builder} (hsame : SameItems b b') (h : Puts late b' id b'') :
    Puts late b id b'' := by
  obtain ⟨before, block, after, hids, hput, hplace⟩ := h.ids
  exact ⟨h.next.trans hsame.next, before, block, after, hsame.ids.trans hids, hput, hplace⟩

theorem Puts.mono (h : Puts late b id b') (himp : late → late') : Puts late' b id b' := by
  obtain ⟨before, block, after, hids, hput, hplace⟩ := h.ids
  exact ⟨h.next, before, block, after, hids, hput, hplace.imp_right himp⟩

/-- An id from outside may go anywhere. -/
theorem Puts.outside (h : Puts late b id b') (hid : itemNumber? id = none) : Grows late' b b' := by
  obtain ⟨before, block, after, hids, hput, -⟩ := h.ids
  unfold Grows
  rw [h.next, hput]
  exact .trans (.same hids) (.outside hid)

theorem itemNumber?_nextItemId (b : Builder) : itemNumber? b.nextItemId = some b.nextItemIndex :=
  itemNumber?_eq_some.2 rfl

theorem Puts.fresh (h : Puts late b.takeItemId b.nextItemId b') : Grows late b b' := by
  obtain ⟨before, block, after, hids, hput, hplace⟩ := h.ids
  unfold Grows
  rw [h.next, hput]
  exact .trans (.same hids) (.fresh b.itemNumber?_nextItemId hplace)

/-- The open turn is replaced by one with the id. -/
theorem Puts.current {pending' : PendingTurn} (hcur : b.currentTurn = some pending)
    (hcur' : b'.currentTurn = some pending') (hturns : b'.turns = b.turns)
    (hnext : b'.nextItemIndex = b.nextItemIndex)
    (hids : pending'.turn.itemIds = FreshIds.put id pending.turn.itemIds) : Puts late b id b' := by
  refine ⟨hnext, itemIds b.turns, pending.turn.itemIds, [], ?_, ?_, .inl rfl⟩
  · rw [itemIds_current hcur]
    exact FreshIds.Same.refl _
  · rw [itemIds_current hcur', hturns, hids]

theorem upsertCurrent_puts (b : Builder) (item : ThreadItem) :
    Puts late b item.id (b.upsertItemInCurrentTurn item) := by
  refine Puts.of_sameItems (ensureTurn_sameItems b) ?_
  exact Puts.current ensureTurn_current rfl rfl rfl (itemIds_upsertItem _ _)

/-- The open turn after `ensure_turn` has the ids that the open turn had. -/
theorem notMem_ensureTurn (hnew : ∀ pending ∈ b.currentTurn, id ∉ pending.turn.itemIds) :
    id ∉ b.ensureTurn.2.turn.itemIds := by
  unfold ensureTurn
  split
  · next pending hcur => exact hnew pending hcur
  · exact not_mem_nil

theorem pushCurrent_puts (hnew : ∀ pending ∈ b.currentTurn, item.id ∉ pending.turn.itemIds) :
    Puts late b item.id (b.pushItemInCurrentTurn item) := by
  refine Puts.of_sameItems (ensureTurn_sameItems b) ?_
  refine Puts.current ensureTurn_current rfl rfl rfl ?_
  rw [FreshIds.put_of_notMem (notMem_ensureTurn hnew)]
  exact itemIds_pushItem _ _

theorem upsertTurnId_puts {turnId : Str} (item : ThreadItem)
    (hthere : turnId ∈ b.view.map Turn.id) :
    Puts (b.NamesEarlier (some turnId)) b item.id (b.upsertItemInTurnId turnId item) := by
  unfold upsertItemInTurnId
  split
  · next pending hcur =>
    exact Puts.current (currentWithId_eq_some.1 hcur).1 rfl rfl rfl (itemIds_upsertItem _ _)
  · next hcur =>
    have hmem : turnId ∈ b.turns.map Turn.id :=
      (mem_view.1 hthere).resolve_right fun hopen => hopen hcur
    rw [if_pos hmem]
    obtain ⟨before, turn, after, hid, hturns, hmodify⟩ :=
      Keyed.exists_modify hmem (Turn.upsertItem item)
    have hview : b.view = before ++ turn :: (after ++ (b.currentTurn.map (·.turn)).toList) := by
      rw [view, hturns, List.append_assoc, cons_append]
    refine ⟨rfl, itemIds before, turn.itemIds,
      itemIds (after ++ (b.currentTurn.map (·.turn)).toList), ?_, ?_, ?_⟩
    · rw [view, hturns, List.append_assoc, cons_append, itemIds_append]
      exact FreshIds.Same.refl _
    · rw [view]
      change itemIds (Keyed.modify Turn.id turnId (Turn.upsertItem item) b.turns ++ _) = _
      rw [hmodify, List.append_assoc, cons_append, itemIds_append, ← itemIds_upsertItem]
      rfl
    · rcases eq_nil_or_concat (after ++ (b.currentTurn.map (·.turn)).toList) with
        hlast | ⟨rest, last, hrest⟩
      · exact .inl (congrArg itemIds hlast)
      · refine .inr ⟨turnId, rfl, ?_, hcur⟩
        rw [hview, hrest, concat_eq_append, ← cons_append, ← List.append_assoc,
          dropLast_concat, map_append, map_cons, hid]
        exact mem_append_right _ mem_cons_self

theorem upsertTurnId_of_notMem {turnId : Str} (item : ThreadItem)
    (hnot : turnId ∉ b.view.map Turn.id) : b.upsertItemInTurnId turnId item = b := by
  rw [mem_view, not_or, not_not] at hnot
  simp only [upsertItemInTurnId, hnot.2, if_neg hnot.1]

/-- A review mode item always finds its turn, since the turn is opened if it is not there. -/
theorem upsertReview_puts (b : Builder) (turnId : Option Str) (item : ThreadItem) :
    Puts (b.NamesEarlier turnId) b item.id (b.upsertReviewModeItem turnId item) := by
  cases turnId with
  | none => exact upsertCurrent_puts b item
  | some turnId =>
    unfold upsertReviewModeItem
    dsimp only
    split
    · have hopen : SameItems b
          (b.finishCurrentTurn.openTurn (b.finishCurrentTurn.newTurn (some turnId))) :=
        (finishCurrentTurn_sameItems b).trans (openTurn_sameItems finishCurrentTurn_current rfl)
      have hcur : (b.finishCurrentTurn.openTurn
          (b.finishCurrentTurn.newTurn (some turnId))).currentWithId turnId =
            some (b.finishCurrentTurn.newTurn (some turnId)) :=
        currentWithId_eq_some.2 ⟨rfl, rfl⟩
      have hput := upsertTurnId_puts item (mem_view.2 (.inr (by rw [hcur]; nofun)))
      refine Puts.of_sameItems hopen (hput.mono ?_)
      rintro ⟨id, hid, -, hnone⟩
      rw [Option.mem_some_iff] at hid
      subst hid
      rw [hcur] at hnone
      cases hnone
    · next hthere =>
      refine upsertTurnId_puts item (mem_view.2 ?_)
      rw [Bool.and_eq_true, not_and_or] at hthere
      rcases hthere with hopen | hfinished
      · exact .inr (by simpa using hopen)
      · exact .inl (by simpa using hfinished)

end Puts

/-! ## What a step does to the ids -/

variable {late : Prop}

theorem pushNext_grows (hid : item.id = b.nextItemId) (hb : b.Numbered) :
    Grows late b (b.takeItemId.pushItemInCurrentTurn item) := by
  refine Puts.fresh ?_
  rw [← hid]
  refine pushCurrent_puts fun pending hcur hmem => ?_
  have hopen : b.currentTurn = some pending := hcur
  refine Nat.lt_irrefl b.nextItemIndex (hb.below item.id ?_ _ ?_)
  · rw [itemIds_current hopen, flatten_append, flatten_singleton]
    exact mem_append_right _ hmem
  · rw [hid]
    exact b.itemNumber?_nextItemId

theorem upsertTurnId_grows (hid : itemNumber? item.id = none) (turnId : Str) :
    Grows late b (b.upsertItemInTurnId turnId item) := by
  by_cases hthere : turnId ∈ b.view.map Turn.id
  · exact (upsertTurnId_puts item hthere).outside hid
  · rw [upsertTurnId_of_notMem item hthere]
    exact (SameItems.refl b).grows

theorem upsertOptional_grows (hid : itemNumber? item.id = none) (turnId : Str) :
    Grows late b (b.upsertItemInOptionalTurn turnId item) := by
  unfold upsertItemInOptionalTurn
  split
  · have hput : Puts late b item.id (b.upsertItemInCurrentTurn item) := upsertCurrent_puts b item
    exact hput.outside hid
  · exact upsertTurnId_grows hid turnId

theorem Grows.trans {b'' : Builder} (h : Grows late b b') (h' : Grows late b' b'') :
    Grows late b b'' := FreshIds.Grows.trans h h'

theorem Grows.mono {late' : Prop} (h : Grows late b b') (himp : late → late') : Grows late' b b' :=
  FreshIds.Grows.mono h himp

theorem Grows.numbered (h : Grows late b b') (hb : b.Numbered) : b'.Numbered :=
  FreshIds.Grows.numbered h hb

theorem SameItems.numbered (h : SameItems b b') (hb : b.Numbered) : b'.Numbered := by
  have hgrows : Grows False b b' := h.grows
  exact hgrows.numbered hb

theorem handleUserMessage_grows (hb : b.Numbered) (content : Carried) :
    Grows late b (b.handleUserMessage content) := by
  unfold handleUserMessage
  extract_lets started
  have hstarted : SameItems b started := by
    unfold started
    split
    · split
      · exact finishCurrentTurn_sameItems b
      · exact SameItems.refl b
    · exact SameItems.refl b
  exact hstarted.grows.trans (pushNext_grows rfl (hstarted.numbered hb))

theorem handleAgentMessage_grows (hb : b.Numbered) (text : Str) (rest : Carried) :
    Grows late b (b.handleAgentMessage text rest) := by
  unfold handleAgentMessage
  split
  · exact (SameItems.refl b).grows
  · exact pushNext_grows rfl hb

theorem appendReasoning_grows (hb : b.Numbered) (text : Str)
    (extend : List Str → List Str → List Str × List Str) :
    Grows late b (b.appendReasoning text extend) := by
  unfold appendReasoning
  split
  · exact (SameItems.refl b).grows
  · have hensured : Grows late b b.ensureTurn.1 := (ensureTurn_sameItems b).grows
    have hcur := b.ensureTurn_current
    generalize b.ensureTurn = ensured at hensured hcur ⊢
    obtain ⟨e, pending⟩ := ensured
    dsimp only at hensured hcur ⊢
    split
    · next id summary content hlast =>
      refine hensured.trans (SameItems.grows (b := e) ?_)
      refine SameItems.setCurrent hcur rfl rfl rfl ?_
      have hsplit := getLast?_eq_some hlast
      rw [setTurn, Turn.itemIds, Turn.itemIds, hsplit, dropLast_concat, map_append,
        map_append]
      rfl
    · exact hensured.trans (pushNext_grows rfl (hensured.numbered hb))

/-- Review mode items bring their id, or take the next one. -/
theorem reviewMode_grows (turnId itemId : Option Str) {make : Str → ThreadItem}
    (hb' : b' = match itemId with
      | some id => b.upsertReviewModeItem turnId (make id)
      | none => b.takeItemId.upsertReviewModeItem turnId (make b.nextItemId))
    (hmake : ∀ id, (make id).id = id) (houtside : ∀ id ∈ itemId, itemNumber? id = none) :
    Grows (itemId = none ∧ b.NamesEarlier turnId) b b' := by
  subst hb'
  cases itemId with
  | some id =>
    refine (upsertReview_puts b turnId (make id)).outside ?_
    rw [hmake]
    exact houtside id rfl
  | none =>
    have hput := upsertReview_puts b.takeItemId turnId (make b.nextItemId)
    rw [hmake] at hput
    exact (hput.mono fun hearlier => ⟨rfl, hearlier⟩).fresh

theorem itemLifecycle_grows (turnId : Str) {item : TurnItem}
    (houtside : ∀ id ∈ item.ids, itemNumber? id = none) :
    Grows late b (b.handleMaterializedItemLifecycle turnId item) := by
  cases item with
  | plan id text =>
    unfold handleMaterializedItemLifecycle
    dsimp only
    split
    · exact (SameItems.refl b).grows
    · refine upsertTurnId_grows ?_ turnId
      exact houtside id (mem_singleton_self _)
  | shown kind id body | hookPrompt id fragments =>
    refine upsertTurnId_grows ?_ turnId
    exact houtside id (mem_singleton_self _)
  | enteredReviewMode id review =>
    refine (upsertReview_puts b (some turnId) (.enteredReviewMode id review)).outside ?_
    exact houtside id (mem_singleton_self _)
  | exitedReviewMode id review =>
    refine (upsertReview_puts b (some turnId) (.exitedReviewMode id review)).outside ?_
    exact houtside id (mem_singleton_self _)
  | shownElsewhere => exact (SameItems.refl b).grows

/-- Every event but a rollback. -/
theorem handleEvent_grows (hb : b.Numbered) {event : EventMsg}
    (houtside : ∀ id ∈ event.ids, itemNumber? id = none)
    (hroll : ∀ numTurns, event ≠ .threadRolledBack numTurns) :
    Grows (b.LateReview (.eventMsg event)) b (b.handleEvent event) := by
  cases event with
  | userMessage content => exact handleUserMessage_grows hb content
  | agentMessage text rest => exact handleAgentMessage_grows hb text rest
  | agentReasoning text | agentReasoningRawContent text => exact appendReasoning_grows hb text _
  | inCurrentTurn event id body =>
    have hput : Puts False b id (b.upsertItemInCurrentTurn (.call event.kind id body)) :=
      upsertCurrent_puts b (.call event.kind id body)
    exact hput.outside (houtside id (mem_singleton_self _))
  | inNamedTurn event turnId id body =>
    refine upsertTurnId_grows ?_ turnId
    exact houtside id (mem_singleton_self _)
  | inOptionalTurn event turnId shown =>
    cases shown with
    | none => exact (SameItems.refl b).grows
    | some shown =>
      obtain ⟨id, body⟩ := shown
      refine upsertOptional_grows ?_ turnId
      exact houtside id (mem_singleton_self _)
  | contextCompacted => exact pushNext_grows rfl hb
  | enteredReviewMode turnId itemId hint =>
    have hgrows : Grows (itemId = none ∧ b.NamesEarlier turnId) b
        (b.handleEnteredReviewMode turnId itemId hint) := by
      refine reviewMode_grows turnId itemId rfl (fun _ => rfl) fun id hid => ?_
      exact houtside id (Option.mem_toList.2 hid)
    cases itemId with
    | some id => exact hgrows.mono (by rintro ⟨hnone, -⟩; cases hnone)
    | none => exact hgrows.mono And.right
  | exitedReviewMode turnId itemId review =>
    have hgrows : Grows (itemId = none ∧ b.NamesEarlier turnId) b
        (b.handleExitedReviewMode turnId itemId review) := by
      refine reviewMode_grows turnId itemId rfl (fun _ => rfl) fun id hid => ?_
      exact houtside id (Option.mem_toList.2 hid)
    cases itemId with
    | some id => exact hgrows.mono (by rintro ⟨hnone, -⟩; cases hnone)
    | none => exact hgrows.mono And.right
  | itemLifecycle turnId item => exact itemLifecycle_grows turnId houtside
  | error affectsTurnStatus error => exact (handleError_sameItems b _ _).grows
  | threadRolledBack numTurns => exact absurd rfl (hroll numTurns)
  | turnAborted turnId completedAt durationMs =>
    exact (handleTurnAborted_sameItems b _ _ _).grows
  | turnStarted turnId startedAt => exact (handleTurnStarted_sameItems b _ _).grows
  | turnComplete turnId completedAt durationMs =>
    exact (handleTurnComplete_sameItems b _ _ _).grows
  | other event => exact (SameItems.refl b).grows

/-- The hook prompt that a response item shows is appended to the open turn. -/
theorem handleResponseItem_cases (b : Builder)
    (parseHookPrompt : Option Str → List ContentItem → Option (Str × Carried))
    (item : ResponseItem) :
    ((⟨parseHookPrompt, .responseItem item⟩ : ReadItem).hookPromptId? = none ∧
      b.handleResponseItem parseHookPrompt item = b) ∨
    ∃ id fragments, (⟨parseHookPrompt, .responseItem item⟩ : ReadItem).hookPromptId? = some id ∧
      b.handleResponseItem parseHookPrompt item =
        b.pushItemInCurrentTurn (.hookPrompt id fragments) := by
  rw [handleResponseItem_eq, ReadItem.hookPromptId?]
  cases (ReadItem.mk parseHookPrompt (.responseItem item)).hookPrompt? with
  | none => exact .inl ⟨rfl, rfl⟩
  | some prompt => exact .inr ⟨prompt.1, prompt.2, rfl, rfl⟩

variable {entry : ReadItem} {numTurns : ℕ}

/-- **What a step does to the ids, unless it is a rollback.** -/
theorem readItem_grows (hb : b.Numbered) (houtside : ∀ id ∈ entry.ids, itemNumber? id = none)
    (hnew : b.PromptIsNew entry)
    (hroll : ∀ numTurns, entry.item ≠ .eventMsg (.threadRolledBack numTurns)) :
    Grows (b.LateReview entry.item) b (b.readItem entry) := by
  obtain ⟨parseHookPrompt, item⟩ := entry
  unfold readItem handleRolloutItem
  extract_lets indexed
  have hsame : SameItems b indexed := ⟨rfl, FreshIds.Same.refl _⟩
  have hindexed {late : Prop} : Grows late b indexed := hsame.grows
  cases item with
  | eventMsg event =>
    refine hindexed.trans (handleEvent_grows (hsame.numbered hb) houtside ?_)
    rintro numTurns rfl
    exact hroll numTurns rfl
  | compacted item => exact hindexed.trans (handleCompacted_sameItems indexed).grows
  | responseItem item =>
    dsimp only
    rcases handleResponseItem_cases indexed parseHookPrompt item with
      ⟨-, hnone⟩ | ⟨id, fragments, hid, hpush⟩
    · rw [hnone]
      exact hindexed
    · rw [hpush]
      have hput : Puts False indexed (ThreadItem.hookPrompt id fragments).id
          (indexed.pushItemInCurrentTurn (.hookPrompt id fragments)) :=
        pushCurrent_puts (hnew id hid)
      refine hindexed.trans (hput.outside (houtside id ?_))
      exact Option.mem_toList.2 hid
  | _ => exact hindexed

/-! ## Rollbacks -/

theorem itemCount_eq (turns : List Turn) : itemCount turns = (itemIds turns).flatten.length := by
  simp [itemCount, itemIds, Turn.itemIds, length_flatten, Function.comp_def]

/-- A rollback keeps a part of the turns, and starts anew after the count of their items. -/
structure RolledBack (numTurns : ℕ) (b b' : Builder) : Prop where
  turns : b'.turns = b.keptTurns numTurns
  current : b'.currentTurn = none
  next : b'.nextItemIndex = itemCount (b.keptTurns numTurns) + 1

theorem readItem_rolledBack (b : Builder)
    (hitem : entry.item = .eventMsg (.threadRolledBack numTurns)) :
    RolledBack numTurns b (b.readItem entry) := by
  have hkept (indexed : Builder) (hcur : indexed.currentTurn = b.currentTurn)
      (hturns : indexed.turns = b.turns) :
      RolledBack numTurns b (indexed.handleThreadRollback numTurns) := by
    have hfinished : indexed.finishCurrentTurn.turns = b.finishCurrentTurn.turns := by
      unfold finishCurrentTurn
      rw [hcur]
      split
      · split
        · exact hturns
        · exact congrArg (· ++ _) hturns
      · exact hturns
    have hsame : indexed.keptTurns numTurns = b.keptTurns numTurns := by
      rw [keptTurns, keptTurns, hfinished]
    refine ⟨hsame, finishCurrentTurn_current, ?_⟩
    exact congrArg (fun turns => itemCount turns + 1) hsame
  obtain ⟨parseHookPrompt, _⟩ := entry
  cases hitem
  exact hkept _ rfl rfl

theorem keptTurns_append (b : Builder) (numTurns : ℕ) :
    ∃ removed, b.finishCurrentTurn.view = b.keptTurns numTurns ++ removed := by
  rw [view_of_none finishCurrentTurn_current]
  exact ⟨_, (take_append_drop _ _).symm⟩

theorem RolledBack.numbered (h : RolledBack numTurns b b') (hb : b.Numbered)
    (hcovers : ∀ id ∈ (itemIds (b.keptTurns numTurns)).flatten,
      ∀ n ∈ itemNumber? id, n ≤ itemCount (b.keptTurns numTurns)) : b'.Numbered := by
  have hfinished : b.finishCurrentTurn.Numbered := (finishCurrentTurn_sameItems b).numbered hb
  obtain ⟨removed, hsplit⟩ := keptTurns_append b numTurns
  unfold Numbered at hfinished ⊢
  rw [hsplit, itemIds_append] at hfinished
  rw [view_of_none h.current, h.turns, h.next]
  exact hfinished.reset fun id hid n hn => Nat.lt_succ_of_le (hcovers id hid n hn)

/-- **A step that keeps the ids.** -/
theorem Numbered.readItem (hb : b.Numbered) (houtside : ∀ id ∈ entry.ids, itemNumber? id = none)
    (hkeeps : b.KeepsIds entry) : (b.readItem entry).Numbered := by
  by_cases hroll : ∃ numTurns, entry.item = .eventMsg (.threadRolledBack numTurns)
  · obtain ⟨numTurns, hitem⟩ := hroll
    have hcovers := hkeeps.1
    rw [hitem] at hcovers
    exact (readItem_rolledBack b hitem).numbered hb hcovers
  · rw [not_exists] at hroll
    exact (readItem_grows hb houtside hkeeps.2 hroll).numbered hb

/-- **A run whose steps keep the ids.** -/
theorem Numbered.readItems {entries : List ReadItem} (hb : b.Numbered)
    (houtside : ∀ entry ∈ entries, ∀ id ∈ entry.ids, itemNumber? id = none)
    (hkeeps : Machine.AllMeet readStep KeepsIds b entries) : (b.readItems entries).Numbered := by
  have hmeet := hkeeps.and_of_forall houtside
  refine Machine.run_invariant_of_meets ?_ hb hmeet (run_readStep b entries)
  rintro s entry t hs ⟨hout, hkeep⟩ ht
  cases ht
  exact hs.readItem hout hkeep

theorem numbered_empty : Numbered {} := FreshIds.numbered_nil

theorem distinctIds_finish : DistinctIds b.finish ↔ DistinctIds b.view := by
  have hsame := (finishCurrentTurn_sameItems b).ids
  rw [view_of_none finishCurrentTurn_current] at hsame
  exact ⟨fun h => h.same hsame.symm, fun h => h.same hsame⟩

/-! ## Steps that do not keep the ids -/

/-- A hook prompt is put next to the item that has its id. -/
theorem not_distinctIds_of_prompt {id : Str} (hid : entry.hookPromptId? = some id)
    (hcur : b.currentTurn = some pending) (hold : id ∈ pending.turn.itemIds) :
    ¬ DistinctIds (b.readItem entry).finish := by
  rw [distinctIds_finish]
  intro hdistinct
  obtain ⟨parseHookPrompt, item⟩ := entry
  cases item with
  | responseItem item =>
    revert hdistinct
    unfold readItem handleRolloutItem
    extract_lets indexed
    intro hdistinct
    rcases handleResponseItem_cases indexed parseHookPrompt item with
      ⟨hnone, -⟩ | ⟨id', fragments, hid', hpush⟩
    · rw [hnone] at hid
      cases hid
    · obtain rfl : id' = id := Option.some_inj.1 (hid'.symm.trans hid)
      dsimp only at hdistinct
      rw [hpush] at hdistinct
      have hens : indexed.ensureTurn = (indexed, pending) := ensureTurn_of_current hcur
      have hpushed : (indexed.pushItemInCurrentTurn (.hookPrompt id' fragments)).currentTurn =
          some (setTurn pending (pushItem (.hookPrompt id' fragments) pending.turn)) := by
        unfold pushItemInCurrentTurn
        rw [hens]
      have hturn := hdistinct.each (pushItem (.hookPrompt id' fragments) pending.turn).itemIds
        (by rw [itemIds_current hpushed]; exact mem_append_right _ (mem_singleton_self _))
      rw [itemIds_pushItem, nodup_append'] at hturn
      exact hturn.2.2 hold (mem_singleton_self _)
  | _ => cases hid

/-- The agent says something. -/
def saying (text : Str) : ReadItem := ⟨fun _ _ => none, .eventMsg (.agentMessage text [])⟩

/-- What the agent says gets the next id, in the open turn. -/
theorem readItem_saying (b : Builder) {text : Str} (h : text ≠ []) :
    (b.readItem (saying text)).turns = b.turns ∧
      (b.readItem (saying text)).nextItemIndex = b.nextItemIndex + 1 ∧
      ∃ pending, (b.readItem (saying text)).currentTurn = some pending ∧
        itemId b.nextItemIndex ∈ pending.turn.itemIds := by
  have hsay (indexed : Builder) :
      (indexed.handleAgentMessage text []).turns = indexed.turns ∧
        (indexed.handleAgentMessage text []).nextItemIndex = indexed.nextItemIndex + 1 ∧
        ∃ pending, (indexed.handleAgentMessage text []).currentTurn = some pending ∧
          itemId indexed.nextItemIndex ∈ pending.turn.itemIds := by
    rw [handleAgentMessage, if_neg h]
    have hturns : indexed.takeItemId.ensureTurn.1.turns = indexed.turns := by
      unfold ensureTurn
      split <;> rfl
    refine ⟨hturns, (ensureTurn_sameItems indexed.takeItemId).next, _, rfl, ?_⟩
    rw [setTurn, itemIds_pushItem]
    exact mem_append_right _ (mem_singleton_self _)
  exact hsay _

theorem readItems_saying (b : Builder) {texts : List Str} (h : ∀ text ∈ texts, text ≠ []) :
    (b.readItems (texts.map saying)).turns = b.turns ∧
      (b.readItems (texts.map saying)).nextItemIndex = b.nextItemIndex + texts.length := by
  induction texts generalizing b with
  | nil => exact ⟨rfl, rfl⟩
  | cons text texts ih =>
    obtain ⟨hturns, hnext, -⟩ := b.readItem_saying (h text mem_cons_self)
    obtain ⟨hturns', hnext'⟩ :=
      ih (b.readItem (saying text)) fun t ht => h t (mem_cons_of_mem _ ht)
    refine ⟨hturns'.trans hturns, hnext'.trans ?_⟩
    rw [hnext, length_cons]
    omega

/-- The finished turns have a number that is still to come. -/
theorem not_distinctIds_of_ahead {id : Str} {n : ℕ} (hmem : id ∈ (itemIds b.turns).flatten)
    (hn : itemNumber? id = some n) (hahead : b.nextItemIndex ≤ n) :
    ∃ texts : List Str, (∀ text ∈ texts, text ≠ []) ∧
      ¬ DistinctIds (b.readItems (texts.map saying)).finish := by
  have hword : ∀ (k : ℕ), ∀ text ∈ List.replicate k "go on".toList, text ≠ [] := by
    intro k text htext
    rw [eq_of_mem_replicate htext]
    decide
  obtain ⟨hturns, hnext⟩ := b.readItems_saying (hword (n - b.nextItemIndex))
  rw [length_replicate, Nat.add_sub_cancel' hahead] at hnext
  refine ⟨List.replicate (n - b.nextItemIndex + 1) "go on".toList, hword _, fun hdistinct => ?_⟩
  rw [distinctIds_finish, replicate_succ', map_append, readItems_append] at hdistinct
  generalize b.readItems ((List.replicate (n - b.nextItemIndex) "go on".toList).map saying) = last
    at hturns hnext hdistinct
  obtain ⟨hturns', -, pending, hcur, hlast⟩ :=
    last.readItem_saying (hword 1 "go on".toList (mem_singleton_self _))
  have hview : itemIds (last.readItems (["go on".toList].map saying)).view =
      itemIds b.turns ++ [pending.turn.itemIds] := by
    refine (itemIds_current hcur).trans ?_
    rw [hturns', hturns]
  rw [hnext, ← itemNumber?_eq_some.1 hn] at hlast
  have honce := hdistinct.once
  rw [hview, flatten_append, filter_append, nodup_append'] at honce
  have hsome : (itemNumber? id).isSome = true := by rw [hn]; rfl
  refine honce.2.2 (mem_filter.2 ⟨hmem, hsome⟩) (mem_filter.2 ⟨?_, hsome⟩)
  rw [flatten_singleton]
  exact hlast

theorem not_distinctIds_of_rollback {id : Str} {n : ℕ}
    (hitem : entry.item = .eventMsg (.threadRolledBack numTurns))
    (hmem : id ∈ (itemIds (b.keptTurns numTurns)).flatten) (hn : itemNumber? id = some n)
    (habove : itemCount (b.keptTurns numTurns) < n) :
    ∃ texts : List Str, (∀ text ∈ texts, text ≠ []) ∧
      ¬ DistinctIds (b.readItems (entry :: texts.map saying)).finish := by
  have hback := readItem_rolledBack b hitem
  refine not_distinctIds_of_ahead (b := b.readItem entry) ?_ hn ?_
  · rwa [hback.turns]
  · rw [hback.next]
    exact habove

end Builder

/-! ## The ids stay distinct -/

/-- **Whatever the agent says after a part of the run, the ids are distinct, exactly if every step
of the run keeps them.** -/
theorem distinctIds_iff {entries : List ReadItem}
    (houtside : ∀ entry ∈ entries, ∀ id ∈ entry.ids, itemNumber? id = none) :
    Machine.AllMeet Builder.readStep Builder.KeepsIds {} entries ↔
      ∀ before, before <+: entries → ∀ texts : List Str, (∀ text ∈ texts, text ≠ []) →
        DistinctIds (buildTurnsFromRolloutItems (before ++ texts.map Builder.saying)) := by
  constructor
  · rintro hkeeps before ⟨after, rfl⟩ texts -
    have hbefore : (Builder.readItems {} before).Numbered := by
      refine Builder.numbered_empty.readItems (fun entry hentry => ?_) hkeeps.of_append
      exact houtside entry (mem_append_left _ hentry)
    have hall : ((Builder.readItems {} before).readItems (texts.map Builder.saying)).Numbered := by
      refine hbefore.readItems (fun entry hentry => ?_) fun first entry rest t hsplit hrun => ?_
      · obtain ⟨text, -, rfl⟩ := mem_map.1 hentry
        exact nofun
      · have hentry : entry ∈ texts.map Builder.saying := by rw [hsplit]; simp
        obtain ⟨text, -, rfl⟩ := mem_map.1 hentry
        exact ⟨trivial, nofun⟩
    rw [buildTurnsFromRolloutItems, Builder.readItems_append, Builder.distinctIds_finish]
    exact hall.toDistinct
  · intro hdistinct before entry after t hsplit hrun
    rw [Builder.run_readStep, Option.some_inj] at hrun
    subst hrun
    have hpre : before ++ [entry] <+: entries := ⟨after, by rw [hsplit]; simp⟩
    refine ⟨?_, fun id hid pending hcur hold => ?_⟩
    · unfold Builder.RollsBackInOrder
      split
      · next numTurns hitem =>
        intro id hid n hn
        by_contra habove
        obtain ⟨texts, htexts, hnot⟩ :=
          Builder.not_distinctIds_of_rollback hitem hid hn (Nat.lt_of_not_le habove)
        have hafter := hdistinct _ hpre texts htexts
        rw [buildTurnsFromRolloutItems, List.append_assoc, Builder.readItems_append] at hafter
        exact hnot hafter
      · trivial
    · have hafter := hdistinct _ hpre [] nofun
      rw [buildTurnsFromRolloutItems, map_nil, append_nil, Builder.readItems_append] at hafter
      exact Builder.not_distinctIds_of_prompt hid hcur hold hafter

/-! ### Runs in which no review comes late -/

namespace Builder

variable {b b' : Builder}

theorem Grows.counted {late : Prop} (h : Grows late b b') (hlate : ¬ late) (hb : b.Numbered)
    (hc : b.Counted) : b'.Counted := FreshIds.Grows.counted h hlate hb hc

/-- The kept turns, as first turns, have no number above the count of their items. -/
theorem Counted.kept (hc : b.Counted) (hb : b.Numbered) (numTurns : ℕ) :
    FreshIds.Counted itemNumber? (itemCount (b.keptTurns numTurns) + 1)
      (itemIds (b.keptTurns numTurns)) := by
  have hfinished : b.finishCurrentTurn.Counted :=
    (finishCurrentTurn_sameItems b).grows.counted not_false hb hc
  obtain ⟨removed, hsplit⟩ := keptTurns_append b numTurns
  unfold Counted at hfinished
  rw [hsplit, itemIds_append] at hfinished
  rw [itemCount_eq]
  exact hfinished.reset

theorem Counted.rollsBackInOrder (hc : b.Counted) (hb : b.Numbered) (item : RolloutItem) :
    b.RollsBackInOrder item := by
  unfold RollsBackInOrder
  split
  · next numTurns =>
    intro id hid n hn
    rw [itemCount_eq]
    exact Nat.lt_succ_iff.1 ((hc.kept hb numTurns).covers _ prefix_rfl id hid n hn)
  · trivial

theorem Counted.readItem (hc : b.Counted) (hb : b.Numbered) {entry : ReadItem}
    (houtside : ∀ id ∈ entry.ids, itemNumber? id = none) (hnew : b.PromptIsNew entry)
    (hlate : ¬ b.LateReview entry.item) : (b.readItem entry).Counted := by
  by_cases hroll : ∃ numTurns, entry.item = .eventMsg (.threadRolledBack numTurns)
  · obtain ⟨numTurns, hitem⟩ := hroll
    have hback := readItem_rolledBack b hitem
    unfold Counted
    rw [view_of_none hback.current, hback.turns, hback.next]
    exact hc.kept hb numTurns
  · rw [not_exists] at hroll
    exact (readItem_grows hb houtside hnew hroll).counted hlate hb hc

theorem counted_empty : Counted {} := FreshIds.counted_nil

/-- **Only a review item that gets its number in an earlier turn can make a rollback count too
low.** -/
theorem keepsIds_of_inOrder {entries : List ReadItem}
    (houtside : ∀ entry ∈ entries, ∀ id ∈ entry.ids, itemNumber? id = none)
    (h : Machine.AllMeet readStep (fun b entry => ¬ b.LateReview entry.item ∧ b.PromptIsNew entry)
      {} entries) : Machine.AllMeet readStep KeepsIds {} entries := by
  have hmeet := h.and_of_forall houtside
  have hstep (b : Builder) (entry : ReadItem) (t : Builder) (hb : b.Numbered ∧ b.Counted)
      (hok : (∀ id ∈ entry.ids, itemNumber? id = none) ∧
        ¬ b.LateReview entry.item ∧ b.PromptIsNew entry)
      (ht : readStep b entry = some t) : t.Numbered ∧ t.Counted := by
    obtain ⟨hout, hlate, hnew⟩ := hok
    obtain ⟨hn, hc⟩ := hb
    cases ht
    exact ⟨hn.readItem hout ⟨hc.rollsBackInOrder hn _, hnew⟩, hc.readItem hn hout hnew hlate⟩
  intro before entry after t hsplit hrun
  have hbefore : Machine.AllMeet readStep _ {} before :=
    Machine.AllMeet.of_append (hsplit ▸ hmeet)
  obtain ⟨hn, hc⟩ :=
    Machine.run_invariant_of_meets hstep ⟨numbered_empty, counted_empty⟩ hbefore hrun
  exact ⟨hc.rollsBackInOrder hn _, (h before entry after t hsplit hrun).2⟩

end Builder

/-! ### Three runs -/

def readFresh : RolloutItem → ReadItem := ReadItem.mk (readPrompt "fresh".toList)

/-- A rollback and a hook prompt that keep the ids. -/
def rolledBackRun : List ReadItem :=
  [.eventMsg (.turnStarted "a".toList none), .eventMsg (.userMessage "hello".toList),
    .responseItem (promptMessage (some "p".toList)), .eventMsg (.turnStarted "b".toList none),
    .eventMsg (.agentReasoning "hm".toList),
    .eventMsg (.inNamedTurn .execCommandEnd "a".toList "late".toList "ls".toList),
    .eventMsg (.threadRolledBack 1), .eventMsg (.userMessage "again".toList)].map
      readFresh

theorem distinctIds_iff_rolledBack :
    DistinctIds (buildTurnsFromRolloutItems (rolledBackRun ++ ["more".toList].map Builder.saying)) :=
  (distinctIds_iff (by decide +kernel)).1 (by decide +kernel) rolledBackRun prefix_rfl
    ["more".toList] (forall_mem_singleton.2 nofun)

theorem keepsIds_of_inOrder_rolledBack :
    Machine.AllMeet Builder.readStep Builder.KeepsIds {} rolledBackRun :=
  Builder.keepsIds_of_inOrder (by decide +kernel) (by decide +kernel)

/-- A review item without an id comes late to the first turn, where it gets the number 4. After a
rollback the numbers go on from 3. -/
def lateReview : List ReadItem :=
  [.eventMsg (.turnStarted "a".toList none), .eventMsg (.userMessage "hello".toList),
    .eventMsg (.turnStarted "b".toList none), .eventMsg (.userMessage "more".toList),
    .eventMsg (.agentMessage "yes".toList []),
    .eventMsg (.exitedReviewMode (some "a".toList) none "fine".toList),
    .eventMsg (.threadRolledBack 1), .eventMsg (.userMessage "again".toList),
    .eventMsg (.agentMessage "yes".toList [])].map readFresh

/-- A hook prompt is completed before its message is recorded. -/
def completedPrompt : List ReadItem :=
  [.eventMsg (.turnStarted "a".toList none),
    .eventMsg (.itemLifecycle "a".toList (.hookPrompt "p".toList "Retry.".toList)),
    .responseItem (promptMessage (some "p".toList))].map readFresh

/-- In both rollouts an id stands twice, though none comes in the form of a generated one. -/
theorem ids_repeat :
    ((∀ entry ∈ lateReview, ∀ id ∈ entry.ids, itemNumber? id = none) ∧
      ¬ DistinctIds (buildTurnsFromRolloutItems lateReview)) ∧
    (∀ entry ∈ completedPrompt, ∀ id ∈ entry.ids, itemNumber? id = none) ∧
      ¬ DistinctIds (buildTurnsFromRolloutItems completedPrompt) := by
  decide +kernel

end Codex.ThreadHistory
