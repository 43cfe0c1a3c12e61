import Codex.Base.Pairing
import Codex.Rollout.Item

/-!
# Normalising a history

`core/src/context_manager/normalize.rs`: before a history is sent, every call
gets an output, outputs without a call are dropped, and images are replaced when
the model takes none. `Uuid::new_v5` is a parameter, by namespace and name.
-/

namespace Codex.Rollout

open List Codex.Text

inductive InputModality where
  | text
  | image
  deriving DecidableEq

def imageContentOmittedPlaceholder : Str :=
  "image content omitted because you do not support image input".toList

def syntheticOutputIdNamespace : ℕ := 0x90d38d3e6a5b4d52bfe22f1e634bfac4

def FunctionCallOutputPayload.fromText (content : Str) : FunctionCallOutputPayload :=
  ⟨.text content, none⟩

/-- The ids that the outputs of a kind carry, or the calls of a kind. -/
def functionOutputIds (items : List ResponseItem) : List Str :=
  items.filterMap fun
    | .functionCallOutput _ callId _ _ => some callId
    | _ => none

def toolSearchOutputIds (items : List ResponseItem) : List Str :=
  items.filterMap fun
    | .toolSearchOutput _ (some callId) _ _ _ _ => some callId
    | _ => none

def customToolOutputIds (items : List ResponseItem) : List Str :=
  items.filterMap fun
    | .customToolCallOutput _ callId _ _ _ => some callId
    | _ => none

def functionCallIds (items : List ResponseItem) : List Str :=
  items.filterMap fun
    | .functionCall _ _ _ _ callId _ => some callId
    | _ => none

def toolSearchCallIds (items : List ResponseItem) : List Str :=
  items.filterMap fun
    | .toolSearchCall _ (some callId) _ _ _ _ => some callId
    | _ => none

def localShellCallIds (items : List ResponseItem) : List Str :=
  items.filterMap fun
    | .localShellCall _ (some callId) _ _ _ => some callId
    | _ => none

def customToolCallIds (items : List ResponseItem) : List Str :=
  items.filterMap fun
    | .customToolCall _ _ callId _ _ _ _ => some callId
    | _ => none

section Ensure

variable (newV5 : ℕ → Str → Str)

def syntheticOutputId (kind : Str) (itemId : Option Str) : Option Str :=
  match itemId with
  | some sourceId =>
    if sourceId = [] then none
    else some (kind ++ "_".toList ++
      newV5 syntheticOutputIdNamespace (kind ++ ":".toList ++ sourceId))
  | none => none

/-- The output that is inserted behind a call that has none. -/
def missingOutput (items : List ResponseItem) : ResponseItem → Option ResponseItem
  | .functionCall id _ _ _ callId _ =>
    if callId ∈ functionOutputIds items then none
    else some (.functionCallOutput (syntheticOutputId newV5 "fco".toList id) callId
      (.fromText "aborted".toList) none)
  | .toolSearchCall id (some callId) _ _ _ _ =>
    if callId ∈ toolSearchOutputIds items then none
    else some (.toolSearchOutput (syntheticOutputId newV5 "tso".toList id) (some callId)
      "completed".toList "client".toList [] none)
  | .customToolCall id _ callId _ _ _ _ =>
    if callId ∈ customToolOutputIds items then none
    else some (.customToolCallOutput (syntheticOutputId newV5 "ctco".toList id) callId none
      (.fromText "aborted".toList) none)
  | .localShellCall id (some callId) _ _ _ =>
    if callId ∈ functionOutputIds items then none
    else some (.functionCallOutput (syntheticOutputId newV5 "fco".toList id) callId
      (.fromText "aborted".toList) none)
  | _ => none

def ensureCallOutputsPresent (items : List ResponseItem) : List ResponseItem :=
  let missingOutputsToInsert := items.zipIdx.filterMap fun (item, idx) =>
    (missingOutput newV5 items item).map (idx, ·)
  -- `foldr` starts with the last one.
  missingOutputsToInsert.foldr (fun (idx, output) items => items.insertIdx (idx + 1) output) items

end Ensure

def removeOrphanOutputs (items : List ResponseItem) : List ResponseItem :=
  items.filter fun
    | .functionCallOutput _ callId _ _ =>
      decide (callId ∈ functionCallIds items) || decide (callId ∈ localShellCallIds items)
    | .customToolCallOutput _ callId _ _ _ => decide (callId ∈ customToolCallIds items)
    | .toolSearchOutput _ callId _ execution _ _ =>
      if execution = "server".toList then true
      else
        match callId with
        | some callId => decide (callId ∈ toolSearchCallIds items)
        | none => true
    | _ => true

/-! ## Images -/

def ContentItem.stripImage : ContentItem → ContentItem
  | .inputImage _ _ => .inputText imageContentOmittedPlaceholder
  | item => item

def FunctionCallOutputContentItem.stripImage :
    FunctionCallOutputContentItem → FunctionCallOutputContentItem
  | .inputImage _ _ => .inputText imageContentOmittedPlaceholder
  | item => item

def FunctionCallOutputPayload.stripImages (output : FunctionCallOutputPayload) :
    FunctionCallOutputPayload :=
  match output.body with
  | .text _ => output
  | .contentItems items => { output with body := .contentItems (items.map (·.stripImage)) }

def ResponseItem.stripImages : ResponseItem → ResponseItem
  | .message id role content phase metadata =>
    .message id role (content.map (·.stripImage)) phase metadata
  | .functionCallOutput id callId output metadata =>
    .functionCallOutput id callId output.stripImages metadata
  | .customToolCallOutput id callId name output metadata =>
    .customToolCallOutput id callId name output.stripImages metadata
  | .imageGenerationCall id status revisedPrompt _ metadata =>
    .imageGenerationCall id status revisedPrompt [] metadata
  | item => item

def stripImagesWhenUnsupported (inputModalities : List InputModality)
    (items : List ResponseItem) : List ResponseItem :=
  if .image ∈ inputModalities then items else items.map (·.stripImages)

def normalizeHistory (newV5 : ℕ → Str → Str) (inputModalities : List InputModality)
    (items : List ResponseItem) : List ResponseItem :=
  stripImagesWhenUnsupported inputModalities
    (removeOrphanOutputs (ensureCallOutputsPresent newV5 items))

/-! ## Calls and outputs -/

/-- The three namespaces of call ids. A local shell call is answered by the
output of a function call. -/
inductive CallKind where
  | function
  | toolSearch
  | customTool
  deriving DecidableEq

/-- The id of a call that asks for an output. -/
def ResponseItem.call : ResponseItem → Option (CallKind × Str)
  | .functionCall _ _ _ _ callId _ => some (.function, callId)
  | .localShellCall _ (some callId) _ _ _ => some (.function, callId)
  | .toolSearchCall _ (some callId) _ _ _ _ => some (.toolSearch, callId)
  | .customToolCall _ _ callId _ _ _ _ => some (.customTool, callId)
  | _ => none

/-- The id of the call that an output answers. -/
def ResponseItem.output : ResponseItem → Option (CallKind × Str)
  | .functionCallOutput _ callId _ _ => some (.function, callId)
  | .toolSearchOutput _ (some callId) _ _ _ _ => some (.toolSearch, callId)
  | .customToolCallOutput _ callId _ _ _ => some (.customTool, callId)
  | _ => none

/-- A tool search that ran on the server has no call here. -/
def ResponseItem.isServerOutput : ResponseItem → Bool
  | .toolSearchOutput _ _ _ execution _ _ => decide (execution = "server".toList)
  | _ => false

def ResponseItem.callItemId : ResponseItem → Option Str
  | .functionCall id _ _ _ _ _ => id
  | .localShellCall id _ _ _ _ => id
  | .toolSearchCall id _ _ _ _ _ => id
  | .customToolCall id _ _ _ _ _ _ => id
  | _ => none

/-- The output that stands in for the one that a call never got. -/
def syntheticOutput (newV5 : ℕ → Str → Str) (item : ResponseItem) :
    CallKind × Str → ResponseItem
  | (.function, callId) =>
    .functionCallOutput (syntheticOutputId newV5 "fco".toList item.callItemId) callId
      (.fromText "aborted".toList) none
  | (.toolSearch, callId) =>
    .toolSearchOutput (syntheticOutputId newV5 "tso".toList item.callItemId) (some callId)
      "completed".toList "client".toList [] none
  | (.customTool, callId) =>
    .customToolCallOutput (syntheticOutputId newV5 "ctco".toList item.callItemId) callId none
      (.fromText "aborted".toList) none

/-- Calls and outputs as requests and answers. -/
def callPairing (newV5 : ℕ → Str → Str) : Pairing ResponseItem (CallKind × Str) where
  request := ResponseItem.call
  answer := ResponseItem.output
  standsAlone := ResponseItem.isServerOutput
  makeUp := syntheticOutput newV5
  request_of_answer {item key} h := by
    cases item with
    | functionCallOutput => rfl
    | customToolCallOutput => rfl
    | toolSearchOutput => rfl
    | _ => cases h
  answer_makeUp item key := by
    obtain ⟨kind, callId⟩ := key
    cases kind with
    | function => rfl
    | toolSearch => rfl
    | customTool => rfl

section Pairing

variable (newV5 : ℕ → Str → Str) (items : List ResponseItem) (callId : Str)

/-- The ids that one of the filters collects are the keys of one kind. -/
theorem mem_ids_iff {α : Type} {ids : α → Option Str} {keys : α → Option (CallKind × Str)}
    {kind : CallKind} (h : ∀ item, ids item = some callId ↔ keys item = some (kind, callId))
    (items : List α) : callId ∈ items.filterMap ids ↔ (kind, callId) ∈ items.filterMap keys := by
  rw [mem_filterMap, mem_filterMap]
  exact exists_congr fun item => and_congr_right fun _ => h item

theorem key_iff {kind : CallKind} {a b : Str} : some a = some b ↔ some (kind, a) = some (kind, b) := by
  simp

theorem no_key_iff {kind : CallKind} {b : Str} :
    (none : Option Str) = some b ↔ (none : Option (CallKind × Str)) = some (kind, b) := by
  simp

theorem other_key_iff {kind kind' : CallKind} {a b : Str} (h : kind' ≠ kind) :
    none = some b ↔ some (kind', a) = some (kind, b) := by
  simp [h]

theorem mem_functionOutputIds :
    callId ∈ functionOutputIds items ↔ (.function, callId) ∈ (callPairing newV5).answers items := by
  refine mem_ids_iff callId (fun item => ?_) items
  cases item with
  | functionCallOutput => exact key_iff
  | toolSearchOutput id callId =>
    cases callId with
    | none => exact no_key_iff
    | some callId => exact other_key_iff (by decide)
  | customToolCallOutput => exact other_key_iff (by decide)
  | _ => exact no_key_iff

theorem mem_toolSearchOutputIds :
    callId ∈ toolSearchOutputIds items ↔
      (.toolSearch, callId) ∈ (callPairing newV5).answers items := by
  refine mem_ids_iff callId (fun item => ?_) items
  cases item with
  | functionCallOutput | customToolCallOutput => exact other_key_iff (by decide)
  | toolSearchOutput id callId =>
    cases callId with
    | none => exact no_key_iff
    | some callId => exact key_iff
  | _ => exact no_key_iff

theorem mem_customToolOutputIds :
    callId ∈ customToolOutputIds items ↔
      (.customTool, callId) ∈ (callPairing newV5).answers items := by
  refine mem_ids_iff callId (fun item => ?_) items
  cases item with
  | functionCallOutput => exact other_key_iff (by decide)
  | toolSearchOutput id callId =>
    cases callId with
    | none => exact no_key_iff
    | some callId => exact other_key_iff (by decide)
  | customToolCallOutput => exact key_iff
  | _ => exact no_key_iff

theorem mem_toolSearchCallIds :
    callId ∈ toolSearchCallIds items ↔
      (.toolSearch, callId) ∈ (callPairing newV5).requests items := by
  refine mem_ids_iff callId (fun item => ?_) items
  cases item with
  | functionCall | customToolCall => exact other_key_iff (by decide)
  | toolSearchCall id callId =>
    cases callId with
    | none => exact no_key_iff
    | some callId => exact key_iff
  | localShellCall id callId =>
    cases callId with
    | none => exact no_key_iff
    | some callId => exact other_key_iff (by decide)
  | _ => exact no_key_iff

theorem mem_customToolCallIds :
    callId ∈ customToolCallIds items ↔
      (.customTool, callId) ∈ (callPairing newV5).requests items := by
  refine mem_ids_iff callId (fun item => ?_) items
  cases item with
  | functionCall => exact other_key_iff (by decide)
  | toolSearchCall id callId | localShellCall id callId =>
    cases callId with
    | none => exact no_key_iff
    | some callId => exact other_key_iff (by decide)
  | customToolCall => exact key_iff
  | _ => exact no_key_iff

/-- Function calls and local shell calls share their outputs. -/
theorem mem_functionCallIds_or_localShellCallIds :
    callId ∈ functionCallIds items ∨ callId ∈ localShellCallIds items ↔
      (.function, callId) ∈ (callPairing newV5).requests items := by
  have hleft : ∀ {a : Str}, some a = some callId ∨ none = some callId ↔
      some (CallKind.function, a) = some (CallKind.function, callId) := by simp
  have hright : ∀ {a : Str}, none = some callId ∨ some a = some callId ↔
      some (CallKind.function, a) = some (CallKind.function, callId) := by simp
  have hnone : (none : Option Str) = some callId ∨ (none : Option Str) = some callId ↔
      (none : Option (CallKind × Str)) = some (CallKind.function, callId) := by simp
  have hother : ∀ {kind : CallKind} {a : Str}, kind ≠ .function →
      ((none : Option Str) = some callId ∨ (none : Option Str) = some callId ↔
        some (kind, a) = some (CallKind.function, callId)) := by
    intro kind a hkind
    simp [hkind]
  unfold functionCallIds localShellCallIds Pairing.requests
  rw [mem_filterMap, mem_filterMap, mem_filterMap, ← exists_or]
  refine exists_congr fun item => ?_
  rw [← and_or_left]
  refine and_congr_right fun _ => ?_
  cases item with
  | functionCall => exact hleft
  | toolSearchCall id callId =>
    cases callId with
    | none => exact hnone
    | some callId => exact hother (by decide)
  | localShellCall id callId =>
    cases callId with
    | none => exact hnone
    | some callId => exact hright
  | customToolCall => exact hother (by decide)
  | _ => exact hnone

variable {newV5 items callId} in
theorem if_mem_eq_missing {ids : List Str} (item : ResponseItem) {key : CallKind × Str}
    (hkey : (callPairing newV5).request item = some key)
    (hids : callId ∈ ids ↔ key ∈ (callPairing newV5).answers items) :
    (if callId ∈ ids then none else some (syntheticOutput newV5 item key)) =
      (callPairing newV5).missing items item := by
  split
  · next hmem => exact (Pairing.missing_of_mem hkey (hids.1 hmem)).symm
  · next hmem => exact (Pairing.missing_of_notMem hkey fun h => hmem (hids.2 h)).symm

theorem missingOutput_eq (item : ResponseItem) :
    missingOutput newV5 items item = (callPairing newV5).missing items item := by
  cases item with
  | functionCall id name namespace' arguments callId metadata =>
    exact if_mem_eq_missing (.functionCall id name namespace' arguments callId metadata) rfl
      (mem_functionOutputIds newV5 items callId)
  | customToolCall id status callId name namespace' input metadata =>
    exact if_mem_eq_missing (.customToolCall id status callId name namespace' input metadata) rfl
      (mem_customToolOutputIds newV5 items callId)
  | toolSearchCall id callId status execution arguments metadata =>
    cases callId with
    | none => rfl
    | some callId =>
      exact if_mem_eq_missing (.toolSearchCall id callId status execution arguments metadata) rfl
        (mem_toolSearchOutputIds newV5 items callId)
  | localShellCall id callId status action metadata =>
    cases callId with
    | none => rfl
    | some callId =>
      exact if_mem_eq_missing (.localShellCall id callId status action metadata) rfl
        (mem_functionOutputIds newV5 items callId)
  | _ => rfl

/-- The first pass, without the indices. -/
theorem ensureCallOutputsPresent_eq :
    ensureCallOutputsPresent newV5 items = (callPairing newV5).withMissing items items := by
  unfold ensureCallOutputsPresent
  rw [foldr_insertIdx_eq_flatMap]
  exact flatMap_congr fun item _ => by rw [missingOutput_eq]

theorem removeOrphanOutputs_eq :
    removeOrphanOutputs items = (callPairing newV5).withoutOrphans items items := by
  unfold removeOrphanOutputs Pairing.withoutOrphans
  refine filter_congr fun item _ => ?_
  cases item with
  | functionCallOutput id callId output metadata =>
    have hkey : (callPairing newV5).answer (.functionCallOutput id callId output metadata) =
        some (.function, callId) := rfl
    rw [Bool.eq_iff_iff, Pairing.isKept_of_answer hkey,
      ← mem_functionCallIds_or_localShellCallIds newV5]
    simp [callPairing, ResponseItem.isServerOutput]
  | customToolCallOutput id callId name output metadata =>
    have hkey : (callPairing newV5).answer (.customToolCallOutput id callId name output metadata) =
        some (.customTool, callId) := rfl
    rw [Bool.eq_iff_iff, Pairing.isKept_of_answer hkey, ← mem_customToolCallIds newV5]
    simp [callPairing, ResponseItem.isServerOutput]
  | toolSearchOutput id callId status execution tools metadata =>
    cases callId with
    | none =>
      show (if _ then true else true) = true
      rw [ite_self]
    | some callId =>
      have hkey : (callPairing newV5).answer
          (.toolSearchOutput id (some callId) status execution tools metadata) =
          some (.toolSearch, callId) := rfl
      rw [Bool.eq_iff_iff, Pairing.isKept_of_answer hkey, ← mem_toolSearchCallIds newV5]
      show (if _ then true else decide _) = true ↔ decide (execution = "server".toList) = true ∨ _
      by_cases hserver : execution = "server".toList
      · rw [if_pos hserver, decide_eq_true hserver]
        exact ⟨fun _ => .inl rfl, fun _ => rfl⟩
      · rw [if_neg hserver, decide_eq_false hserver, decide_eq_true_iff]
        exact ⟨.inr, fun h => h.resolve_left Bool.false_ne_true⟩
  | _ => rfl

end Pairing

/-! ## Images change no call and no output -/

section Strip

variable (item : ResponseItem)

@[simp] theorem call_stripImages : item.stripImages.call = item.call := by
  cases item <;> rfl

@[simp] theorem output_stripImages : item.stripImages.output = item.output := by
  cases item <;> rfl

@[simp] theorem isServerOutput_stripImages :
    item.stripImages.isServerOutput = item.isServerOutput := by
  cases item <;> rfl

theorem ContentItem.stripImage_stripImage (content : ContentItem) :
    content.stripImage.stripImage = content.stripImage := by
  cases content <;> rfl

theorem FunctionCallOutputContentItem.stripImage_stripImage
    (content : FunctionCallOutputContentItem) :
    content.stripImage.stripImage = content.stripImage := by
  cases content <;> rfl

theorem FunctionCallOutputPayload.stripImages_stripImages (output : FunctionCallOutputPayload) :
    output.stripImages.stripImages = output.stripImages := by
  obtain ⟨body, success⟩ := output
  cases body with
  | text => rfl
  | contentItems items =>
    show FunctionCallOutputPayload.mk (.contentItems ((items.map _).map _)) success = _
    rw [map_map,
      map_congr_left fun content _ => content.stripImage_stripImage]
    rfl

theorem stripImages_stripImages : item.stripImages.stripImages = item.stripImages := by
  cases item with
  | message id role content phase metadata =>
    show ResponseItem.message id role ((content.map _).map _) phase metadata = _
    rw [map_map, map_congr_left fun content _ => content.stripImage_stripImage]
    rfl
  | functionCallOutput id callId output metadata =>
    show ResponseItem.functionCallOutput id callId output.stripImages.stripImages metadata = _
    rw [output.stripImages_stripImages]
    rfl
  | customToolCallOutput id callId name output metadata =>
    show ResponseItem.customToolCallOutput id callId name output.stripImages.stripImages metadata = _
    rw [output.stripImages_stripImages]
    rfl
  | _ => rfl

theorem stripImagesWhenUnsupported_idem (inputModalities : List InputModality)
    (items : List ResponseItem) :
    stripImagesWhenUnsupported inputModalities (stripImagesWhenUnsupported inputModalities items) =
      stripImagesWhenUnsupported inputModalities items := by
  unfold stripImagesWhenUnsupported
  split
  · rfl
  · rw [map_map]
    exact map_congr_left fun item _ => stripImages_stripImages item

end Strip

/-! ## The normal form -/

section Normal

variable (newV5 : ℕ → Str → Str) (inputModalities : List InputModality)
  (items : List ResponseItem)

theorem closed_stripImages (h : (callPairing newV5).Closed items) :
    (callPairing newV5).Closed (stripImagesWhenUnsupported inputModalities items) := by
  unfold stripImagesWhenUnsupported
  split
  · exact h
  · exact h.map call_stripImages output_stripImages isServerOutput_stripImages

theorem normalizeHistory_eq :
    normalizeHistory newV5 inputModalities items =
      stripImagesWhenUnsupported inputModalities ((callPairing newV5).withMissing items
        ((callPairing newV5).withoutOrphans items items)) := by
  unfold normalizeHistory
  rw [ensureCallOutputsPresent_eq, removeOrphanOutputs_eq newV5,
    Pairing.withoutOrphans_withMissing]

theorem closed_normalizeHistory :
    (callPairing newV5).Closed (normalizeHistory newV5 inputModalities items) := by
  rw [normalizeHistory_eq]
  exact closed_stripImages newV5 inputModalities _
    (Pairing.closed_withMissing_withoutOrphans items)

/-- A closed history only loses its images. -/
theorem normalizeHistory_of_closed (h : (callPairing newV5).Closed items) :
    normalizeHistory newV5 inputModalities items =
      stripImagesWhenUnsupported inputModalities items := by
  rw [normalizeHistory_eq, h.withoutOrphans_eq, h.withMissing_eq]

/-- An output that names a call which is not there. -/
def isOrphanOutput (items : List ResponseItem) (item : ResponseItem) : Bool :=
  match item.output with
  | some key => !item.isServerOutput && items.all fun call => decide (call.call ≠ some key)
  | none => false

theorem withoutOrphans_eq_filter :
    (callPairing newV5).withoutOrphans items items =
      items.filter fun item => !isOrphanOutput items item := by
  refine filter_congr fun item _ => ?_
  unfold isOrphanOutput
  cases hkey : item.output with
  | none =>
    have hanswer : (callPairing newV5).answer item = none := hkey
    rw [Pairing.isKept, hanswer]
    rfl
  | some key =>
    have hanswer : (callPairing newV5).answer item = some key := hkey
    rw [Bool.eq_iff_iff, Pairing.isKept_of_answer hanswer, Pairing.mem_requests]
    simp [callPairing, or_iff_not_imp_left]

/-- **The normal form of a history.** Every call has its output and every output
that needs a call has one. The other items stay in their order, a synthetic
output right behind its call, and only their images are replaced, when the model
takes none. A normal history stays as it is. -/
theorem normalizeHistory_normal (newV5 : ℕ → Str → Str) (inputModalities : List InputModality)
    (items : List ResponseItem) :
    let result := normalizeHistory newV5 inputModalities items
    (∀ call ∈ result, ∀ key, call.call = some key →
      ∃ output ∈ result, output.output = some key) ∧
    (∀ output ∈ result, ∀ key, output.output = some key → output.isServerOutput = false →
      ∃ call ∈ result, call.call = some key) ∧
    result = stripImagesWhenUnsupported inputModalities
      ((items.filter fun item => !isOrphanOutput items item).flatMap fun item =>
        item :: (missingOutput newV5 items item).toList) ∧
    normalizeHistory newV5 inputModalities result = result := by
  intro result
  have hclosed : (callPairing newV5).Closed result :=
    closed_normalizeHistory newV5 inputModalities items
  refine ⟨hclosed.answered, hclosed.matched, ?_, ?_⟩
  · show normalizeHistory newV5 inputModalities items = _
    rw [normalizeHistory_eq, withoutOrphans_eq_filter]
    refine congrArg _ (flatMap_congr fun item _ => ?_)
    rw [missingOutput_eq]
  · rw [normalizeHistory_of_closed newV5 inputModalities result hclosed]
    show stripImagesWhenUnsupported inputModalities (normalizeHistory newV5 inputModalities items) =
      normalizeHistory newV5 inputModalities items
    exact stripImagesWhenUnsupported_idem inputModalities _

/-- A message is not kept when its image is replaced. -/
theorem image_message_not_kept :
    let message : ResponseItem := .message none "user".toList
      [.inputImage "data:image/png;base64,AAAA".toList none] none none
    isOrphanOutput [message] message = false ∧
      message ∉ normalizeHistory (fun _ name => name) [.text] [message] := by
  decide

end Normal

end Codex.Rollout
