import Codex.Rollout.MergePatch

/-!
# World state

The comparison state of the model-visible context
(`core/src/context/world_state/mod.rs`). A snapshot is recorded in the rollout
in full, or as the merge patch from the one before
(`ContextManager::update_world_state`); a resume replays the records
(`core/src/session/rollout_reconstruction.rs`). `replay_eq_baseline` says that
the replay of what was recorded gives the baseline that is held.
-/

namespace Codex.Rollout

open Codex.Text

variable {key : Str}

/-! ## Snapshots -/

/-- The snapshot of all sections: a map from their ids to values. `remove_null_object_fields` has
taken the null fields out of each. -/
structure WorldStateSnapshot where
  sections : Object
  canonical : sections.Canonical
  nullFree : sections.NullFree

namespace WorldStateSnapshot

def intoValue (snapshot : WorldStateSnapshot) : Value := .object snapshot.sections

end WorldStateSnapshot

/-! ## Recording and replaying -/

/-- `WorldStateItem`, with its state as a value; the items of a rollout carry it as text. -/
structure WorldStateRecord where
  full : Bool
  state : Value
  deriving DecidableEq

/-- The records that a resume replays. -/
inductive ReplayRecord where
  | compacted
  | worldState (item : WorldStateRecord)
  deriving DecidableEq

def mergePatchFrom (snapshot previous : Object) : Option Value :=
  createMergePatch (.object previous) (.object snapshot)

/-- `apply_merge_patch` of a snapshot; there is none if the result is not an object. -/
def applyMergePatch (snapshot : Object) (patch : Value) : Option Object :=
  (applyMergePatchValue (.object snapshot) patch).asObject

/-- What is held in memory, and what has been recorded. -/
structure WorldStateHistory where
  baseline : Option Object := none
  records : List ReplayRecord := []

/-- `ContextManager::update_world_state`: the item to record. -/
def updateItem (baseline : Option Object) (snapshot : WorldStateSnapshot) :
    Option WorldStateRecord :=
  match baseline with
  | none => some ⟨true, snapshot.intoValue⟩
  | some previous => (mergePatchFrom snapshot.sections previous).map fun patch => ⟨false, patch⟩

inductive WorldStateEvent where
  | update (snapshot : WorldStateSnapshot)
  /-- The history is replaced; the new one may come with a baseline. -/
  | compact (baseline : Option WorldStateSnapshot)

def WorldStateHistory.step (history : WorldStateHistory) : WorldStateEvent → WorldStateHistory
  | .update snapshot =>
    { baseline := some snapshot.sections
      records := history.records ++
        ((updateItem history.baseline snapshot).map ReplayRecord.worldState).toList }
  | .compact baseline =>
    { baseline := baseline.map (·.sections)
      records := history.records ++ [.compacted] ++
        (baseline.map fun snapshot => .worldState ⟨true, snapshot.intoValue⟩).toList }

def runWorldState (events : List WorldStateEvent) : WorldStateHistory :=
  events.foldl WorldStateHistory.step {}

/-- One record of the replay of `reconstruct_history_from_rollout`. -/
def replayRecord (baseline : Option Object) : ReplayRecord → Option Object
  | .compacted => none
  | .worldState item =>
    if item.full then item.state.asObject
    else baseline.bind fun snapshot => applyMergePatch snapshot item.state

def replayWorldState (records : List ReplayRecord) : Option Object :=
  records.foldl replayRecord none

theorem replayWorldState_append (records more : List ReplayRecord) :
    replayWorldState (records ++ more) = more.foldl replayRecord (replayWorldState records) :=
  List.foldl_append

/-- The baseline that is held is one of a snapshot. -/
def HeldCanonical (baseline : Option Object) : Prop :=
  ∀ sections, baseline = some sections → sections.Canonical

theorem WorldStateHistory.heldCanonical_step (history : WorldStateHistory)
    (event : WorldStateEvent) : HeldCanonical (history.step event).baseline := by
  intro sections h
  cases event with
  | update snapshot =>
    cases h
    exact snapshot.canonical
  | compact baseline =>
    obtain ⟨snapshot, -, rfl⟩ := Option.map_eq_some_iff.1 h
    exact snapshot.canonical

/-- The record of an update turns the baseline before it into the snapshot. -/
theorem replay_updateItem {baseline : Option Object} (h : HeldCanonical baseline)
    (snapshot : WorldStateSnapshot) :
    ((updateItem baseline snapshot).map ReplayRecord.worldState).toList.foldl replayRecord
      baseline = some snapshot.sections := by
  cases baseline with
  | none => rfl
  | some previous =>
    have hprevious : Json.Canonical (.object previous) := h previous rfl
    have hcurrent : Json.Canonical (.object snapshot.sections) := snapshot.canonical
    have hnull : Json.NullFree (.object snapshot.sections) := snapshot.nullFree
    have happly := apply_createMergePatch hprevious hcurrent hnull
    have hitem : updateItem (some previous) snapshot =
        (createMergePatch (.object previous) (.object snapshot.sections)).map
          fun patch => ⟨false, patch⟩ := rfl
    rw [hitem]
    cases hpatch : createMergePatch (.object previous) (.object snapshot.sections) with
    | none =>
      rw [hpatch] at happly
      exact congrArg Json.asObject happly
    | some patch =>
      rw [hpatch] at happly
      show applyMergePatch previous patch = _
      exact congrArg Json.asObject happly

theorem replay_eq_baseline (events : List WorldStateEvent) :
    replayWorldState (runWorldState events).records = (runWorldState events).baseline := by
  have hrun : ∀ history : WorldStateHistory, HeldCanonical history.baseline →
      replayWorldState history.records = history.baseline →
      replayWorldState (events.foldl WorldStateHistory.step history).records =
        (events.foldl WorldStateHistory.step history).baseline := by
    induction events with
    | nil => exact fun history _ h => h
    | cons event events ih =>
      intro history hc h
      refine ih _ (history.heldCanonical_step event) ?_
      cases event with
      | update snapshot =>
        show replayWorldState (_ ++ _) = _
        rw [replayWorldState_append, h]
        exact replay_updateItem hc snapshot
      | compact baseline =>
        show replayWorldState (_ ++ _ ++ _) = _
        rw [replayWorldState_append, replayWorldState_append]
        cases baseline <;> rfl
  exact hrun {} (fun _ h => nomatch h) rfl

/-- **The replay of the records gives the baseline that is held**, after every event, and a patch
gives the value it was made for. -/
theorem world_state_replay :
    (∀ events, replayWorldState (runWorldState events).records =
      (runWorldState events).baseline) ∧
    ∀ previous current : Value, previous.Canonical → current.Canonical → current.NullFree →
      (match createMergePatch previous current with
        | some patch => applyMergePatchValue previous patch
        | none => previous) = current :=
  ⟨replay_eq_baseline, fun _ _ hp hc hn => apply_createMergePatch hp hc hn⟩

def envKey : Str := "env".toList

/-- A field that holds a flag. -/
def flagValue : Value := .object (.cons envKey (.scalar (.bool true)) .nil)

/-- The same field holds an object. -/
def nestedValue : Value := .object (.cons envKey flagValue .nil)

theorem flag_becomes_object :
    (match createMergePatch flagValue nestedValue with
      | some patch => applyMergePatchValue flagValue patch
      | none => flagValue) = nestedValue := by
  have hnil : ∀ key, (JsonObject.nil : Object).get? key ≠ none → envKey < key :=
    fun _ h => absurd rfl h
  have hflag : flagValue.Canonical := ⟨hnil, trivial, trivial⟩
  have hnested : nestedValue.Canonical := ⟨hnil, hflag, trivial⟩
  have hnull : nestedValue.NullFree := ⟨nofun, ⟨nofun, trivial, trivial⟩, trivial⟩
  exact world_state_replay.2 flagValue nestedValue hflag hnested hnull

end Codex.Rollout
