import Codex.Base.Coalesce
import Codex.ThreadHistory.Builder

/-!
# Change sets

`handle_rollout_items_with_changes` collects the change sets of a batch of
rollout items in a `ThreadHistoryChangeAccumulator`. `ChangeSet.apply` is the
projection that a change set is made for: delete turns, create or update turns,
append or replace items. To apply what the accumulator has collected is to apply
the change sets one after the other (`apply_push`), as long as changed items are
items of turns that are there.
-/

namespace Codex.ThreadHistory

open List Codex.Text Codex.Rollout Keyed

/-! ## The projection -/

def removeTurns (ids : List Str) (turns : List Turn) : List Turn :=
  turns.filter fun turn => turn.id ∉ ids

/-- Update the turn, or create it without items. -/
def applyTurn (turns : List Turn) (info : TurnMeta) : List Turn :=
  upsert Turn.id info.id ⟨info, []⟩ (Turn.changeInfo fun _ => info) turns

/-- Replace the item of the turn, or append it. -/
def applyItem (turns : List Turn) (change : ItemChange) : List Turn :=
  modify Turn.id change.turnId (Turn.upsertItem change.item) turns

def ChangeSet.apply (changes : ChangeSet) (turns : List Turn) : List Turn :=
  changes.changedItems.foldl applyItem
    (changes.changedTurns.foldl applyTurn (removeTurns changes.removedTurnIds turns))

/-! ## The accumulator -/

def ItemChange.key (change : ItemChange) : Str × Str := (change.turnId, change.item.id)

/-- `ThreadHistoryChangeAccumulator`. -/
structure Accumulator where
  changedItems : Slots (Str × Str) ItemChange := {}
  changedTurns : Slots Str TurnMeta := {}
  removedTurnIds : List Str := []

namespace Accumulator

def pushItemChange (acc : Accumulator) (change : ItemChange) : Accumulator :=
  { acc with changedItems := acc.changedItems.put ItemChange.key change }

def pushTurnChange (acc : Accumulator) (change : TurnMeta) : Accumulator :=
  { acc with changedTurns := acc.changedTurns.put TurnMeta.id change }

def pushRemovedTurnId (acc : Accumulator) (turnId : Str) : Accumulator where
  removedTurnIds :=
    if turnId ∈ acc.removedTurnIds then acc.removedTurnIds else acc.removedTurnIds ++ [turnId]
  changedTurns := acc.changedTurns.dropKey turnId
  changedItems :=
    (acc.changedItems.indexes.keys.filter fun key => key.1 = turnId).foldl Slots.dropKey
      acc.changedItems

def push (acc : Accumulator) (changes : ChangeSet) : Accumulator :=
  changes.changedTurns.foldl pushTurnChange
    (changes.changedItems.foldl pushItemChange
      (changes.removedTurnIds.foldl pushRemovedTurnId acc))

def finish (acc : Accumulator) : ChangeSet where
  changedItems := acc.changedItems.compact
  changedTurns := acc.changedTurns.compact
  removedTurnIds := acc.removedTurnIds

end Accumulator

namespace Builder

/-- `handle_rollout_item_with_changes`. -/
def handleRolloutItemWithChanges (b : Builder) (entry : ReadItem) : Builder × ChangeSet :=
  let b := { b with activeChangeSet := some {} }.readItem entry
  ({ b with activeChangeSet := none }, b.activeChangeSet.getD {})

/-- The loop of `handle_rollout_items_with_changes`. -/
def collectChanges (b : Builder) (acc : Accumulator) : List ReadItem → Builder × Accumulator
  | [] => (b, acc)
  | entry :: entries =>
    let (b, changes) := b.handleRolloutItemWithChanges entry
    b.collectChanges (acc.push changes) entries

/-- `handle_rollout_items_with_changes`. -/
def handleRolloutItemsWithChanges (b : Builder) (entries : List ReadItem) : Builder × ChangeSet :=
  let (b, acc) := b.collectChanges {} entries
  (b, acc.finish)

/-- A projection that follows the builder through batches. -/
def projectBatches (b : Builder) (turns : List Turn) : List (List ReadItem) → List Turn
  | [] => turns
  | batch :: batches =>
    let (b, changes) := b.handleRolloutItemsWithChanges batch
    b.projectBatches (changes.apply turns) batches

end Builder

/-! ## Changes overwrite each other -/

theorem keeps_info (info : TurnMeta) :
    Keyed.Keeps Turn.id info.id (Turn.changeInfo fun _ => info) := fun _ _ => rfl

theorem keeps_items (id : Str) (item : ThreadItem) :
    Keyed.Keeps Turn.id id (Turn.upsertItem item) := fun _ h => h

section Items

variable {items : List ThreadItem} {item item' : ThreadItem}

theorem keeps_item (item : ThreadItem) : Keyed.Keeps ThreadItem.id item.id fun _ => item :=
  fun _ _ => rfl

theorem mem_upsertTurnItem {id : Str} :
    id ∈ (upsertTurnItem items item).map ThreadItem.id ↔
      id = item.id ∨ id ∈ items.map ThreadItem.id :=
  mem_keys_upsert (keeps_item item) rfl

theorem upsertTurnItem_overwrite (h : item.id = item'.id) :
    upsertTurnItem (upsertTurnItem items item) item' =
      upsertTurnItem items item' := by
  unfold upsertTurnItem
  rw [h]
  exact upsert_upsert (fun _ _ => h) h rfl fun _ => rfl

theorem upsertTurnItem_comm (hne : item.id ≠ item'.id) (h : item'.id ∈ items.map ThreadItem.id) :
    upsertTurnItem (upsertTurnItem items item) item' =
      upsertTurnItem (upsertTurnItem items item') item := by
  have h' : item'.id ∈ (upsertTurnItem items item).map ThreadItem.id :=
    mem_upsertTurnItem.2 (.inr h)
  unfold upsertTurnItem at h' ⊢
  rw [upsert_of_mem h', upsert_of_mem h,
    upsert_comm_modify hne h (keeps_item item) (keeps_item item')]

end Items

theorem mem_applyTurn {id : Str} {turns : List Turn} {info : TurnMeta} :
    id ∈ (applyTurn turns info).map Turn.id ↔ id = info.id ∨ id ∈ turns.map Turn.id :=
  mem_keys_upsert (keeps_info info) rfl

theorem keys_applyItem (turns : List Turn) (change : ItemChange) :
    (applyItem turns change).map Turn.id = turns.map Turn.id :=
  keys_modify (keeps_items _ _)

theorem applyTurn_overwrites :
    Overwrites applyTurn TurnMeta.id fun id turns => id ∈ turns.map Turn.id where
  present _ _ := mem_applyTurn.2 (.inl rfl)
  present_mono _ _ _ h := mem_applyTurn.2 (.inr h)
  overwrite turns info info' h := by
    unfold applyTurn
    rw [h]
    exact upsert_upsert (h ▸ keeps_info info) h rfl fun _ => rfl
  comm turns info info' hne hpresent := by
    have hpresent' : info'.id ∈ (applyTurn turns info).map Turn.id :=
      mem_applyTurn.2 (.inr hpresent)
    unfold applyTurn at hpresent' ⊢
    rw [upsert_of_mem hpresent', upsert_of_mem hpresent,
      upsert_comm_modify hne hpresent (keeps_info info) (keeps_info info')]

/-- The first turn with an id has the item, if there is such a turn. -/
def HasItem (key : Str × Str) (turns : List Turn) : Prop :=
  ∀ turn ∈ turns.find? fun turn => turn.id = key.1, key.2 ∈ turn.items.map ThreadItem.id

theorem hasItem_applyItem {key : Str × Str} {turns : List Turn} {change : ItemChange}
    (h : change.key = key ∨ HasItem key turns) : HasItem key (applyItem turns change) := by
  intro turn hturn
  rw [applyItem, find?_modify (keeps_items _ _)] at hturn
  split at hturn
  · next hid =>
    obtain ⟨old, hold, rfl⟩ := Option.map_eq_some_iff.1 hturn
    rw [Turn.upsertItem, mem_upsertTurnItem]
    rcases h with rfl | h
    · exact .inl rfl
    · refine .inr (h old ?_)
      rw [hid]
      exact hold
  · next hid =>
    rcases h with rfl | h
    · exact absurd rfl hid
    · exact h turn hturn

theorem applyItem_overwrites : Overwrites applyItem ItemChange.key HasItem where
  present _ _ := hasItem_applyItem (.inl rfl)
  present_mono _ _ _ h := hasItem_applyItem (.inr h)
  overwrite turns change change' h := by
    obtain ⟨hturn, hitem⟩ := Prod.mk.inj h
    unfold applyItem
    rw [hturn, modify_modify (keeps_items _ _)]
    refine modify_congr fun turn _ => ?_
    simp only [Function.comp, Turn.upsertItem, upsertTurnItem_overwrite hitem]
  comm turns change change' hne hpresent := by
    unfold applyItem
    by_cases hturn : change.turnId = change'.turnId
    · have hitem : change.item.id ≠ change'.item.id :=
        fun h => hne (Prod.ext hturn h)
      rw [hturn, modify_modify (keeps_items _ _), modify_modify (keeps_items _ _)]
      refine modify_congr fun turn hfound => ?_
      simp only [Function.comp, Turn.upsertItem, upsertTurnItem_comm hitem (hpresent turn hfound)]
    · exact modify_comm (Ne.symm hturn) (keeps_items _ _) (keeps_items _ _)

/-- A turn change and an item change can be swapped if the item's turn is there. -/
theorem applyTurn_applyItem {turns : List Turn} {info : TurnMeta} {change : ItemChange}
    (h : change.turnId ∈ turns.map Turn.id) :
    applyItem (applyTurn turns info) change = applyTurn (applyItem turns change) info := by
  unfold applyItem applyTurn
  by_cases hid : info.id = change.turnId
  · have hmem : info.id ∈ turns.map Turn.id := hid ▸ h
    have hmem' : info.id ∈ (applyItem turns change).map Turn.id := by rwa [keys_applyItem]
    unfold applyItem at hmem'
    rw [upsert_of_mem hmem, upsert_of_mem hmem', ← hid,
      modify_modify (keeps_info info), modify_modify (keeps_items _ _)]
    rfl
  · exact upsert_comm_modify hid h (keeps_info info) (keeps_items _ _)

theorem foldl_applyItem_applyTurn {turns : List Turn} {info : TurnMeta} {changes : List ItemChange}
    (h : ∀ change ∈ changes, change.turnId ∈ turns.map Turn.id) :
    changes.foldl applyItem (applyTurn turns info) =
      applyTurn (changes.foldl applyItem turns) info := by
  induction changes generalizing turns with
  | nil => rfl
  | cons change changes ih =>
    rw [foldl_cons, foldl_cons, applyTurn_applyItem (h change (by simp)), ih]
    intro c hc
    rw [keys_applyItem]
    exact h c (mem_cons_of_mem _ hc)

/-! ## Removal -/

theorem removeTurns_applyTurn (ids : List Str) (turns : List Turn) (info : TurnMeta) :
    removeTurns ids (applyTurn turns info) =
      if info.id ∉ ids then applyTurn (removeTurns ids turns) info else removeTurns ids turns := by
  have hfresh : Turn.id ⟨info, []⟩ = info.id := rfl
  have h := filter_upsert (l := turns) (fun id => decide (id ∉ ids)) (keeps_info info) hfresh
  simpa [removeTurns, applyTurn] using h

theorem removeTurns_applyItem (ids : List Str) (turns : List Turn) (change : ItemChange) :
    removeTurns ids (applyItem turns change) =
      if change.turnId ∉ ids then applyItem (removeTurns ids turns) change
      else removeTurns ids turns := by
  have h := filter_modify (l := turns) (fun id => decide (id ∉ ids))
    (keeps_items change.turnId change.item)
  simpa [removeTurns, applyItem] using h

theorem removeTurns_foldl_applyTurn (ids : List Str) (turns : List Turn) (infos : List TurnMeta) :
    removeTurns ids (infos.foldl applyTurn turns) =
      (infos.filter fun info => info.id ∉ ids).foldl applyTurn (removeTurns ids turns) := by
  induction infos generalizing turns with
  | nil => rfl
  | cons info infos ih =>
    rw [foldl_cons, ih, removeTurns_applyTurn, filter_cons]
    by_cases h : info.id ∈ ids
    · simp [h]
    · simp [h]

theorem removeTurns_foldl_applyItem (ids : List Str) (turns : List Turn)
    (changes : List ItemChange) :
    removeTurns ids (changes.foldl applyItem turns) =
      (changes.filter fun change => change.turnId ∉ ids).foldl applyItem
        (removeTurns ids turns) := by
  induction changes generalizing turns with
  | nil => rfl
  | cons change changes ih =>
    rw [foldl_cons, ih, removeTurns_applyItem, filter_cons]
    by_cases h : change.turnId ∈ ids
    · simp [h]
    · simp [h]

theorem removeTurns_append (ids ids' : List Str) (turns : List Turn) :
    removeTurns (ids ++ ids') turns = removeTurns ids' (removeTurns ids turns) := by
  simp only [removeTurns, filter_filter]
  refine filter_congr fun turn _ => ?_
  simp [Bool.and_comm]

theorem removeTurns_nil (turns : List Turn) : removeTurns [] turns = turns := by
  simp [removeTurns]

theorem keys_foldl_applyItem (changes : List ItemChange) (turns : List Turn) :
    (changes.foldl applyItem turns).map Turn.id = turns.map Turn.id := by
  induction changes generalizing turns with
  | nil => rfl
  | cons change changes ih => rw [foldl_cons, ih, keys_applyItem]

/-! ## The accumulator applies changes one after the other -/

namespace Accumulator

variable {acc : Accumulator} {turns : List Turn}

structure Indexed (acc : Accumulator) : Prop where
  items : acc.changedItems.Indexed ItemChange.key
  turns : acc.changedTurns.Indexed TurnMeta.id

/-- The changed items are items of turns that are there. -/
def Anchored (acc : Accumulator) (turns : List Turn) : Prop :=
  ∀ change ∈ acc.changedItems.compact, change.turnId ∈ (acc.finish.apply turns).map Turn.id

theorem indexed_empty : ({} : Accumulator).Indexed :=
  ⟨Slots.indexed_empty _, Slots.indexed_empty _⟩

theorem apply_empty (turns : List Turn) : ({} : Accumulator).finish.apply turns = turns := by
  simp [finish, Slots.compact_empty, ChangeSet.apply, removeTurns_nil]

theorem apply_pushItemChange (h : acc.Indexed) (turns : List Turn) (change : ItemChange) :
    (acc.pushItemChange change).finish.apply turns =
      applyItem (acc.finish.apply turns) change :=
  h.items.foldl_put applyItem_overwrites _

theorem apply_pushTurnChange (h : acc.Indexed) (hanch : acc.Anchored turns) (info : TurnMeta) :
    (acc.pushTurnChange info).finish.apply turns = applyTurn (acc.finish.apply turns) info := by
  have hput := h.turns.foldl_put (b := info) applyTurn_overwrites
    (removeTurns acc.removedTurnIds turns)
  simp only [ChangeSet.apply, finish, pushTurnChange] at hput ⊢
  rw [hput]
  refine foldl_applyItem_applyTurn fun change hchange => ?_
  have hmem := hanch change hchange
  rwa [ChangeSet.apply, keys_foldl_applyItem] at hmem

theorem compact_pushRemovedTurnId (h : acc.Indexed) (id : Str) :
    (acc.pushRemovedTurnId id).changedItems.compact =
      acc.changedItems.compact.filter fun change => change.turnId ≠ id := by
  rw [pushRemovedTurnId, h.items.compact_dropKeys]
  refine filter_congr fun change hchange => ?_
  have hkey : (change.turnId, change.item.id) ∈ acc.changedItems.indexes.keys :=
    h.items.mem_keys.1 (mem_map_of_mem hchange)
  simp only [mem_filter, hkey, true_and, decide_eq_true_eq, ItemChange.key]

theorem apply_pushRemovedTurnId (h : acc.Indexed) (turns : List Turn) (id : Str) :
    (acc.pushRemovedTurnId id).finish.apply turns = removeTurns [id] (acc.finish.apply turns) := by
  have hremoved : removeTurns (acc.pushRemovedTurnId id).removedTurnIds turns =
      removeTurns [id] (removeTurns acc.removedTurnIds turns) := by
    simp only [pushRemovedTurnId]
    split
    · next hmem =>
      simp only [removeTurns, filter_filter]
      refine filter_congr fun turn _ => ?_
      by_cases hid : turn.id = id
      · simp [hid, hmem]
      · simp [hid]
    · rw [removeTurns_append]
  simp only [ChangeSet.apply, finish, hremoved, compact_pushRemovedTurnId h]
  rw [removeTurns_foldl_applyItem, removeTurns_foldl_applyTurn, pushRemovedTurnId,
    h.turns.compact_dropKey]
  simp

theorem Indexed.pushItemChange (h : acc.Indexed) (change : ItemChange) :
    (acc.pushItemChange change).Indexed := ⟨h.items.put change, h.turns⟩

theorem Indexed.pushTurnChange (h : acc.Indexed) (info : TurnMeta) :
    (acc.pushTurnChange info).Indexed := ⟨h.items, h.turns.put info⟩

theorem Indexed.pushRemovedTurnId (h : acc.Indexed) (id : Str) :
    (acc.pushRemovedTurnId id).Indexed := ⟨h.items.dropKeys _, h.turns.dropKey id⟩

theorem pushItemChanges_eq (changes : List ItemChange) :
    changes.foldl pushItemChange acc =
      { acc with changedItems := changes.foldl (Slots.put ItemChange.key) acc.changedItems } := by
  induction changes generalizing acc with
  | nil => rfl
  | cons change changes ih => rw [foldl_cons, ih]; rfl

theorem pushTurnChanges_eq (infos : List TurnMeta) :
    infos.foldl pushTurnChange acc =
      { acc with changedTurns := infos.foldl (Slots.put TurnMeta.id) acc.changedTurns } := by
  induction infos generalizing acc with
  | nil => rfl
  | cons info infos ih => rw [foldl_cons, ih]; rfl

/-- The two kinds of changes go to different slots, so turns might as well come first. -/
theorem push_eq (changes : ChangeSet) :
    acc.push changes =
      changes.changedItems.foldl pushItemChange
        (changes.changedTurns.foldl pushTurnChange
          (changes.removedTurnIds.foldl pushRemovedTurnId acc)) := by
  rw [push, pushTurnChanges_eq, pushItemChanges_eq, pushItemChanges_eq, pushTurnChanges_eq]

theorem removed_spec (h : acc.Indexed) (hanch : acc.Anchored turns) (ids : List Str) :
    (ids.foldl pushRemovedTurnId acc).Indexed ∧ (ids.foldl pushRemovedTurnId acc).Anchored turns ∧
      (ids.foldl pushRemovedTurnId acc).finish.apply turns =
        removeTurns ids (acc.finish.apply turns) := by
  induction ids generalizing acc with
  | nil => exact ⟨h, hanch, (removeTurns_nil _).symm⟩
  | cons id ids ih =>
    have happly := apply_pushRemovedTurnId h turns id
    have hanch' : (acc.pushRemovedTurnId id).Anchored turns := by
      intro change hchange
      rw [compact_pushRemovedTurnId h, mem_filter, decide_eq_true_eq] at hchange
      rw [happly]
      simpa [removeTurns] using (mem_keys_filter Turn.id fun i => decide (i ∉ [id])).2
        ⟨hanch change hchange.1, by simpa using hchange.2⟩
    obtain ⟨hind, hanch'', hrest⟩ := ih (h.pushRemovedTurnId id) hanch'
    refine ⟨hind, hanch'', ?_⟩
    rw [foldl_cons, hrest, happly, ← removeTurns_append]
    rfl

theorem turns_spec (h : acc.Indexed) (hanch : acc.Anchored turns) (infos : List TurnMeta) :
    (infos.foldl pushTurnChange acc).Indexed ∧ (infos.foldl pushTurnChange acc).Anchored turns ∧
      (infos.foldl pushTurnChange acc).finish.apply turns =
        infos.foldl applyTurn (acc.finish.apply turns) := by
  induction infos generalizing acc with
  | nil => exact ⟨h, hanch, rfl⟩
  | cons info infos ih =>
    have happly := apply_pushTurnChange h hanch info
    have hanch' : (acc.pushTurnChange info).Anchored turns := by
      intro change hchange
      rw [happly, mem_applyTurn]
      exact .inr (hanch change hchange)
    obtain ⟨hind, hanch'', hrest⟩ := ih (h.pushTurnChange info) hanch'
    exact ⟨hind, hanch'', by rw [foldl_cons, hrest, happly, foldl_cons]⟩

theorem items_spec (h : acc.Indexed) (hanch : acc.Anchored turns) {changes : List ItemChange}
    (hthere : ∀ change ∈ changes, change.turnId ∈ (acc.finish.apply turns).map Turn.id) :
    (changes.foldl pushItemChange acc).Indexed ∧
      (changes.foldl pushItemChange acc).Anchored turns ∧
      (changes.foldl pushItemChange acc).finish.apply turns =
        changes.foldl applyItem (acc.finish.apply turns) := by
  induction changes generalizing acc with
  | nil => exact ⟨h, hanch, rfl⟩
  | cons change changes ih =>
    have happly := apply_pushItemChange h turns change
    have hkeys : ((acc.pushItemChange change).finish.apply turns).map Turn.id =
        (acc.finish.apply turns).map Turn.id := by rw [happly, keys_applyItem]
    have hanch' : (acc.pushItemChange change).Anchored turns := by
      intro c hc
      rw [hkeys]
      have hput : c ∈ (acc.changedItems.put ItemChange.key change).compact := hc
      rw [h.items.compact_put] at hput
      split at hput
      · rw [replaceKey] at hput
        obtain ⟨d, hd, rfl⟩ := mem_map.1 hput
        split
        · exact hthere change (by simp)
        · exact hanch d hd
      · rcases mem_append.1 hput with hc | hc
        · exact hanch c hc
        · rw [mem_singleton.1 hc]
          exact hthere change (by simp)
    obtain ⟨hind, hanch'', hrest⟩ := ih (h.pushItemChange change) hanch' fun c hc => by
      rw [hkeys]
      exact hthere c (mem_cons_of_mem _ hc)
    exact ⟨hind, hanch'', by rw [foldl_cons, hrest, happly, foldl_cons]⟩

/-- **What is collected is what the change sets do one after the other.** -/
theorem push_spec (h : acc.Indexed) (hanch : acc.Anchored turns) {changes : ChangeSet}
    (hthere : ∀ change ∈ changes.changedItems,
      change.turnId ∈ (changes.apply (acc.finish.apply turns)).map Turn.id) :
    (acc.push changes).Indexed ∧ (acc.push changes).Anchored turns ∧
      (acc.push changes).finish.apply turns = changes.apply (acc.finish.apply turns) := by
  rw [push_eq]
  obtain ⟨h₁, ha₁, happly₁⟩ := removed_spec h hanch changes.removedTurnIds
  obtain ⟨h₂, ha₂, happly₂⟩ := turns_spec h₁ ha₁ changes.changedTurns
  have happly : (changes.changedTurns.foldl pushTurnChange
      (changes.removedTurnIds.foldl pushRemovedTurnId acc)).finish.apply turns =
        changes.changedTurns.foldl applyTurn
          (removeTurns changes.removedTurnIds (acc.finish.apply turns)) := by
    rw [happly₂, happly₁]
  obtain ⟨h₃, ha₃, happly₃⟩ := items_spec h₂ ha₂ fun change hchange => by
    have hmem := hthere change hchange
    rwa [ChangeSet.apply, keys_foldl_applyItem, ← happly] at hmem
  refine ⟨h₃, ha₃, ?_⟩
  rw [happly₃, happly]
  rfl

end Accumulator

end Codex.ThreadHistory
