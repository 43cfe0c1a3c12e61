import Codex.Rollout.History
import Codex.Rollout.Normalize
import Mathlib.Logic.Function.Iterate

/-!
# Removing the oldest item

`ContextManager::remove_first_item`, with which a compaction makes room: the
oldest item goes, and with a call its output, with an output its call
(`normalize.rs`, `remove_corresponding_for`). Calls and outputs that are paired
stay paired (`removeFirstItem_paired`).
-/

namespace Codex.Rollout

open List Codex.Text ResponseItem

def removeFirstMatching (items : List ResponseItem) (predicate : ResponseItem → Bool) :
    List ResponseItem :=
  match items.findIdx? predicate with
  | some pos => items.eraseIdx pos
  | none => items

/-! ## What is looked for -/

def isFunctionCall (callId : Str) : ResponseItem → Bool
  | .functionCall _ _ _ _ existing _ => existing = callId
  | _ => false

def isLocalShellCall (callId : Str) : ResponseItem → Bool
  | .localShellCall _ (some existing) _ _ _ => existing = callId
  | _ => false

def isFunctionCallOutput (callId : Str) : ResponseItem → Bool
  | .functionCallOutput _ existing _ _ => existing = callId
  | _ => false

def isToolSearchCall (callId : Str) : ResponseItem → Bool
  | .toolSearchCall _ (some existing) _ _ _ _ => existing = callId
  | _ => false

def isToolSearchOutput (callId : Str) : ResponseItem → Bool
  | .toolSearchOutput _ (some existing) _ _ _ _ => existing = callId
  | _ => false

def isCustomToolCall (callId : Str) : ResponseItem → Bool
  | .customToolCall _ _ existing _ _ _ _ => existing = callId
  | _ => false

def isCustomToolCallOutput (callId : Str) : ResponseItem → Bool
  | .customToolCallOutput _ existing _ _ _ => existing = callId
  | _ => false

def removeCorrespondingFor (items : List ResponseItem) : ResponseItem → List ResponseItem
  | .functionCall _ _ _ _ callId _ => removeFirstMatching items (isFunctionCallOutput callId)
  | .functionCallOutput _ callId _ _ =>
    match items.findIdx? (isFunctionCall callId) with
    | some pos => items.eraseIdx pos
    | none =>
      match items.findIdx? (isLocalShellCall callId) with
      | some pos => items.eraseIdx pos
      | none => items
  | .toolSearchCall _ (some callId) _ _ _ _ => removeFirstMatching items (isToolSearchOutput callId)
  | .toolSearchOutput _ (some callId) _ _ _ _ => removeFirstMatching items (isToolSearchCall callId)
  | .customToolCall _ _ callId _ _ _ _ => removeFirstMatching items (isCustomToolCallOutput callId)
  | .customToolCallOutput _ callId _ _ _ => removeFirstMatching items (isCustomToolCall callId)
  | .localShellCall _ (some callId) _ _ _ => removeFirstMatching items (isFunctionCallOutput callId)
  | _ => items

/-- The world state baseline, which is cleared as well, is not kept here. -/
def ContextManager.removeFirstItem (history : ContextManager) : ContextManager :=
  match history.items with
  | [] => history
  | removed :: items => { history with items := removeCorrespondingFor items removed }

/-! ## Pairs -/

/-- Every call id occurs in one call and in one output of its kind; local shell calls share the ids
of function calls. -/
def CallsPaired (items : List ResponseItem) : Prop :=
  ∀ key, (∃ item ∈ items, item.call = some key ∨ item.output = some key) →
    items.countP (fun item => item.call = some key) = 1 ∧
      items.countP (fun item => item.output = some key) = 1

/-- The one is a call and the other its output. -/
def Counterpart (item mate : ResponseItem) : Prop :=
  ∃ key, item.call = some key ∧ mate.output = some key ∨
    item.output = some key ∧ mate.call = some key

/-- The first item goes, and with it its counterpart if it belongs to a pair. -/
inductive RemovesFirst : List ResponseItem → List ResponseItem → Prop where
  | empty : RemovesFirst [] []
  | single {item : ResponseItem} {items : List ResponseItem} (hcall : item.call = none)
      (houtput : item.output = none) : RemovesFirst (item :: items) items
  | pair {item mate : ResponseItem} {before after : List ResponseItem}
      (hcounterpart : Counterpart item mate) :
      RemovesFirst (item :: (before ++ mate :: after)) (before ++ after)

variable {items before after : List ResponseItem} {item mate : ResponseItem} {callId : Str}
  {kind : CallKind} {predicate : ResponseItem → Bool} {history : ContextManager}

/-- Calls and outputs as requests and answers; nothing is made up for them here. -/
abbrev calls : Pairing ResponseItem (CallKind × Str) := callPairing fun _ name => name

theorem callsPaired_iff : CallsPaired items ↔ calls.Exact items := by
  rw [Pairing.exact_iff]
  rfl

/-! ## The search -/

theorem findIdx?_unique (hmate : predicate mate = true)
    (hbefore : ∀ item ∈ before, predicate item = false) :
    (before ++ mate :: after).findIdx? predicate = some before.length := by
  rw [findIdx?_append, findIdx?_eq_none_iff.2 hbefore, findIdx?_cons, if_pos hmate]
  simp

theorem eraseIdx_middle (before after : List ResponseItem) (mate : ResponseItem) :
    (before ++ mate :: after).eraseIdx before.length = before ++ after := by
  rw [eraseIdx_append_of_length_le (Nat.le_refl _), Nat.sub_self]
  rfl

theorem removeFirstMatching_unique (hmate : predicate mate = true)
    (hbefore : ∀ item ∈ before, predicate item = false) :
    removeFirstMatching (before ++ mate :: after) predicate = before ++ after := by
  unfold removeFirstMatching
  rw [findIdx?_unique hmate hbefore]
  exact eraseIdx_middle before after mate

/-- What an output of each kind is recognised by. -/
def isOutputFor : CallKind → Str → ResponseItem → Bool
  | .function => isFunctionCallOutput
  | .toolSearch => isToolSearchOutput
  | .customTool => isCustomToolCallOutput

theorem isOutputFor_iff : isOutputFor kind callId item = true ↔ item.output = some (kind, callId) := by
  cases kind with
  | function =>
    cases item with
    | functionCallOutput => simp [isOutputFor, isFunctionCallOutput, output]
    | toolSearchOutput _ existing =>
      cases existing <;> simp [isOutputFor, isFunctionCallOutput, output]
    | _ => simp [isOutputFor, isFunctionCallOutput, output]
  | toolSearch =>
    cases item with
    | toolSearchOutput _ existing =>
      cases existing <;> simp [isOutputFor, isToolSearchOutput, output]
    | _ => simp [isOutputFor, isToolSearchOutput, output]
  | customTool =>
    cases item with
    | toolSearchOutput _ existing =>
      cases existing <;> simp [isOutputFor, isCustomToolCallOutput, output]
    | _ => simp [isOutputFor, isCustomToolCallOutput, output]

/-- The output of a call is looked for by the id of the call. -/
theorem removeCorrespondingFor_call (h : item.call = some (kind, callId)) :
    removeCorrespondingFor items item = removeFirstMatching items (isOutputFor kind callId) := by
  cases item with
  | functionCall | customToolCall =>
    cases h
    rfl
  | localShellCall _ existing | toolSearchCall _ existing =>
    cases existing with
    | none => cases h
    | some existing =>
      cases h
      rfl
  | _ => cases h

/-- What the call of an output of each kind is recognised by. -/
def isCallFor : CallKind → Str → ResponseItem → Bool
  | .function, callId => fun item => isFunctionCall callId item || isLocalShellCall callId item
  | .toolSearch, callId => isToolSearchCall callId
  | .customTool, callId => isCustomToolCall callId

theorem isCallFor_iff : isCallFor kind callId item = true ↔ item.call = some (kind, callId) := by
  cases kind with
  | function =>
    cases item with
    | localShellCall _ existing | toolSearchCall _ existing =>
      cases existing <;> simp [isCallFor, isFunctionCall, isLocalShellCall, call]
    | _ => simp [isCallFor, isFunctionCall, isLocalShellCall, call]
  | toolSearch =>
    cases item with
    | localShellCall _ existing | toolSearchCall _ existing =>
      cases existing <;> simp [isCallFor, isToolSearchCall, call]
    | _ => simp [isCallFor, isToolSearchCall, call]
  | customTool =>
    cases item with
    | localShellCall _ existing | toolSearchCall _ existing =>
      cases existing <;> simp [isCallFor, isCustomToolCall, call]
    | _ => simp [isCallFor, isCustomToolCall, call]

/-- A function call is looked for before a local shell call, wherever they are. -/
theorem removeCorrespondingFor_output (h : item.output = some (kind, callId))
    (hmate : isCallFor kind callId mate = true)
    (hothers : ∀ item ∈ before ++ after, isCallFor kind callId item = false) :
    removeCorrespondingFor (before ++ mate :: after) item = before ++ after := by
  have hbefore : ∀ item ∈ before, isCallFor kind callId item = false :=
    fun item hitem => hothers item (mem_append_left _ hitem)
  cases item with
  | functionCallOutput =>
    cases h
    show (match (before ++ mate :: after).findIdx? (isFunctionCall callId) with
      | some pos => (before ++ mate :: after).eraseIdx pos
      | none => removeFirstMatching (before ++ mate :: after) (isLocalShellCall callId)) = _
    have hneither {item : ResponseItem} (hitem : item ∈ before ++ after) :=
      Bool.or_eq_false_iff.1 (hothers item hitem)
    by_cases hfunction : isFunctionCall callId mate = true
    · rw [findIdx?_unique hfunction fun item hitem => (hneither (mem_append_left _ hitem)).1]
      exact eraseIdx_middle before after mate
    · have hnone : (before ++ mate :: after).findIdx? (isFunctionCall callId) = none := by
        refine findIdx?_eq_none_iff.2 fun item hitem => ?_
        rw [mem_append, mem_cons, or_left_comm, ← mem_append] at hitem
        rcases hitem with rfl | hitem
        · exact Bool.eq_false_iff.2 hfunction
        · exact (hneither hitem).1
      rw [hnone]
      exact removeFirstMatching_unique ((Bool.or_eq_true _ _).mp hmate |>.resolve_left hfunction)
        fun item hitem => (hneither (mem_append_left _ hitem)).2
  | customToolCallOutput =>
    cases h
    exact removeFirstMatching_unique hmate hbefore
  | toolSearchOutput _ existing =>
    cases existing with
    | none => cases h
    | some existing =>
      cases h
      exact removeFirstMatching_unique hmate hbefore
  | _ => cases h

theorem removeCorrespondingFor_unkeyed (hcall : item.call = none) (houtput : item.output = none) :
    removeCorrespondingFor items item = items := by
  cases item with
  | functionCall | customToolCall => cases hcall
  | functionCallOutput | customToolCallOutput => cases houtput
  | localShellCall _ existing | toolSearchCall _ existing =>
    cases existing with
    | none => rfl
    | some existing => cases hcall
  | toolSearchOutput _ existing =>
    cases existing with
    | none => rfl
    | some existing => cases houtput
  | _ => rfl

/-! ## One removal, and many -/

/-- Pairs stay pairs, since a pair leaves as a whole. -/
theorem removesFirst_removeFirstItem (h : CallsPaired history.items) :
    RemovesFirst history.items history.removeFirstItem.items ∧
      CallsPaired history.removeFirstItem.items := by
  unfold ContextManager.removeFirstItem
  rw [callsPaired_iff] at *
  split
  · next hnil =>
    rw [hnil] at h ⊢
    exact ⟨.empty, h⟩
  · next item items hitems =>
    rw [hitems] at h ⊢
    dsimp only
    cases hcall : item.call with
    | some key =>
      obtain ⟨kind, callId⟩ := key
      obtain ⟨before, mate, after, rfl, hmate, hothers⟩ := h.exists_answer hcall
      have hbefore : ∀ item ∈ before, isOutputFor kind callId item = false := by
        intro item hitem
        rw [Bool.eq_false_iff, ne_eq, isOutputFor_iff]
        exact hothers item (mem_append_left _ hitem)
      rw [removeCorrespondingFor_call hcall,
        removeFirstMatching_unique (isOutputFor_iff.2 hmate) hbefore]
      refine ⟨.pair ⟨_, .inl ⟨hcall, hmate⟩⟩, ?_⟩
      exact (h.perm (perm_middle.cons item)).of_pair hcall hmate
    | none =>
      cases houtput : item.output with
      | none =>
        rw [removeCorrespondingFor_unkeyed hcall houtput]
        exact ⟨.single hcall houtput, h.of_unkeyed hcall houtput⟩
      | some key =>
        obtain ⟨kind, callId⟩ := key
        obtain ⟨before, mate, after, rfl, hmate, hothers⟩ := h.exists_request houtput
        rw [removeCorrespondingFor_output houtput (isCallFor_iff.2 hmate) fun item hitem => by
          rw [Bool.eq_false_iff, ne_eq, isCallFor_iff]
          exact hothers item hitem]
        refine ⟨.pair ⟨_, .inr ⟨houtput, hmate⟩⟩, ?_⟩
        have hswap := perm_middle.cons item |>.trans (.swap mate item (before ++ after))
        exact (h.perm hswap).of_pair hmate houtput

/-- **Calls and outputs stay paired** however many items are removed, and each removal takes the
first item, with its counterpart if it has one, and nothing else. -/
theorem removeFirstItem_paired (h : CallsPaired history.items) (n : ℕ) :
    CallsPaired (ContextManager.removeFirstItem^[n] history).items ∧
      RemovesFirst (ContextManager.removeFirstItem^[n] history).items
        (ContextManager.removeFirstItem^[n + 1] history).items := by
  suffices hpaired : CallsPaired (ContextManager.removeFirstItem^[n] history).items by
    rw [Function.iterate_succ_apply']
    exact ⟨hpaired, (removesFirst_removeFirstItem hpaired).1⟩
  induction n with
  | zero => exact h
  | succ n ih =>
    rw [Function.iterate_succ_apply']
    exact (removesFirst_removeFirstItem ih).2

/-- A local shell call goes with its output, between the other call and its output. -/
theorem removeFirstItem_paired_shell :
    let shell : ResponseItem := .localShellCall none (some "a".toList) [] [] none
    let call : ResponseItem := .functionCall none "read".toList none [] "b".toList none
    let output (callId : Str) : ResponseItem := .functionCallOutput none callId (.fromText []) none
    let history : ContextManager := { items := [shell, call, output "a".toList, output "b".toList] }
    (ContextManager.removeFirstItem^[1] history).items = [call, output "b".toList] ∧
      CallsPaired (ContextManager.removeFirstItem^[1] history).items := by
  intro shell call output history
  refine ⟨rfl, (removeFirstItem_paired ?_ 1).1⟩
  rintro key ⟨item, hitem, hkey⟩
  simp only [history, mem_cons, not_mem_nil, or_false] at hitem
  rcases hitem with rfl | rfl | rfl | rfl
  · obtain hcall | houtput := hkey
    · cases hcall
      decide
    · cases houtput
  · obtain hcall | houtput := hkey
    · cases hcall
      decide
    · cases houtput
  · obtain hcall | houtput := hkey
    · cases hcall
    · cases houtput
      decide
  · obtain hcall | houtput := hkey
    · cases hcall
    · cases houtput
      decide

end Codex.Rollout
