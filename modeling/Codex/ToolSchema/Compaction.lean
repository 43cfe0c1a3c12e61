import Codex.ToolSchema.Definitions
import Codex.ToolSchema.Normalize
import Mathlib.Data.Finset.Dedup
import Mathlib.Data.Finset.Empty

/-!
# Compacting large tool schemas

`compact_large_tool_schema` runs four passes, each more lossy than the one before, while the
schema is over budget. The passes go down from the root and replace objects by empty ones.
Nothing keeps the root from being replaced: one that holds a reference or a composition
loses its properties (`surface_compact_iff`).
-/

namespace Codex.ToolSchema

open Codex.Text

/-! ## Model -/

def maxCompactToolSchemaBytes : ℕ := 5000

def maxCompactToolSchemaDepth : ℕ := 3

/-- A pass that replaces the objects that are cut, outside definition tables. -/
def cuttingPass (cut : ℕ → JsonMap → Bool) : JsonPass Str Scalar where
  toJsonShape := childShape .skipped
  cut := cut
  leave := id
  leaf := .scalar

def stripPass : JsonPass Str Scalar where
  toJsonShape := childShape .included
  cut _ _ := false
  leave := JsonObject.remove "description".toList
  leaf := .scalar

def stripSchemaDescriptions (value : JsonValue) : JsonValue := stripPass.run 0 value

def rewriteDefinitionRefsToEmptySchemas (value : JsonValue) : JsonValue :=
  (cuttingPass fun _ map => (refFromMap map).isSome).run 0 value

def dropSchemaDefinitions (value : JsonValue) : JsonValue :=
  match rewriteDefinitionRefsToEmptySchemas value with
  | .object map => .object (definitionTableKeys.foldl (fun map key => map.remove key) map)
  | value => value

def isComplexSchemaObject (map : JsonMap) : Bool :=
  schemaChildKeys.any (containsKey map) || containsKey map "properties".toList ||
    containsKey map "additionalProperties".toList || containsKey map "$ref".toList

def collapseDeepSchemaObjects (depth : ℕ) (value : JsonValue) : JsonValue :=
  (cuttingPass fun depth map =>
    depth ≥ maxCompactToolSchemaDepth && isComplexSchemaObject map).run depth value

def collapseDeepSchemaObjectsFromRoot (value : JsonValue) : JsonValue :=
  collapseDeepSchemaObjects 0 value

def pruneSchemaCompositions (value : JsonValue) : JsonValue :=
  (cuttingPass fun _ map => hasCompositionKeyword map).run 0 value

def largeSchemaCompactionPasses : List (JsonValue → JsonValue) :=
  [stripSchemaDescriptions, dropSchemaDefinitions, collapseDeepSchemaObjectsFromRoot,
    pruneSchemaCompositions]

def compactSchemaFitsBudget (value : JsonValue) : Bool :=
  compactNormalizedSchemaLen value ≤ maxCompactToolSchemaBytes

/-- The passes that are left to run. -/
def compactWith : List (JsonValue → JsonValue) → JsonValue → JsonValue
  | [], value => value
  | pass :: passes, value =>
    if compactSchemaFitsBudget value then value else compactWith passes (pass value)

def compactLargeToolSchema (value : JsonValue) : JsonValue :=
  compactWith largeSchemaCompactionPasses value

def deserializeToolInputSchema (sequences : Bool) (inputSchema : JsonValue) : Option JsonValue :=
  (read sequences .schema inputSchema).filter fun schema =>
    (schema.asObject.bind (·.get? "type".toList)) ≠ some (stringValue (schemaTypeName .null))

def parseToolInputSchema (inputSchema : JsonValue) : Option JsonValue :=
  deserializeToolInputSchema true (compactLargeToolSchema (prepareToolInputSchema inputSchema))

def parseToolInputSchemaWithoutCompaction (inputSchema : JsonValue) : Option JsonValue :=
  deserializeToolInputSchema true (prepareToolInputSchema inputSchema)

/-! ## The passes take fields out -/

section Trims

theorem trimming_cuttingPass (cut : ℕ → JsonMap → Bool) : (cuttingPass cut).Trimming :=
  ⟨JsonObject.trims_refl, fun _ => rfl⟩

theorem trimming_stripPass : stripPass.Trimming := ⟨JsonObject.remove_trims _, fun _ => rfl⟩

theorem foldl_remove_trims (keys : List Str) (map : JsonMap) :
    (keys.foldl (fun map key => map.remove key) map).Trims map := by
  induction keys generalizing map with
  | nil => exact JsonObject.trims_refl map
  | cons key keys ih => exact (ih _).trans (JsonObject.remove_trims key map)

theorem dropSchemaDefinitions_trims (value : JsonValue) :
    (dropSchemaDefinitions value).Trims value := by
  have hrun := (trimming_cuttingPass fun _ map => (refFromMap map).isSome).run value 0
  unfold dropSchemaDefinitions
  split
  · next map heq =>
    have hfields : Json.Trims (.object (definitionTableKeys.foldl (fun map key => map.remove key) map))
        (.object map) := ⟨_, rfl, foldl_remove_trims _ map⟩
    rw [rewriteDefinitionRefsToEmptySchemas] at heq
    rw [heq] at hrun
    exact hfields.trans hrun
  · exact hrun

theorem pass_trims {pass : JsonValue → JsonValue} (h : pass ∈ largeSchemaCompactionPasses)
    (value : JsonValue) : (pass value).Trims value := by
  unfold largeSchemaCompactionPasses at h
  simp only [List.mem_cons, List.not_mem_nil, or_false] at h
  rcases h with rfl | rfl | rfl | rfl
  · exact trimming_stripPass.run value 0
  · exact dropSchemaDefinitions_trims value
  · exact (trimming_cuttingPass _).run value 0
  · exact (trimming_cuttingPass _).run value 0

theorem compactWith_trims {passes : List (JsonValue → JsonValue)}
    (h : ∀ pass ∈ passes, ∀ value, (pass value).Trims value) (value : JsonValue) :
    (compactWith passes value).Trims value := by
  induction passes generalizing value with
  | nil => exact Json.trims_refl value
  | cons pass passes ih =>
    rw [List.forall_mem_cons] at h
    unfold compactWith
    split
    · exact Json.trims_refl value
    · exact (ih h.2 _).trans (h.1 value)

/-- A value that cannot be read is of length zero, so no pass is run on it. -/
theorem read_of_over_budget {value : JsonValue} (h : compactSchemaFitsBudget value = false) :
    read true .schema value ≠ none := by
  intro hnone
  unfold compactSchemaFitsBudget compactNormalizedSchemaLen at h
  rw [hnone] at h
  cases h

/-- **No pass makes a schema longer.** -/
theorem pass_le {pass : JsonValue → JsonValue} (hpass : pass ∈ largeSchemaCompactionPasses)
    {value : JsonValue} (h : compactSchemaFitsBudget value = false) :
    compactNormalizedSchemaLen (pass value) ≤ compactNormalizedSchemaLen value :=
  compactNormalizedSchemaLen_le (pass_trims hpass value) (read_of_over_budget h)

end Trims

/-! ## The top-level arguments -/

/-- What the root says of the arguments. -/
structure Surface where
  propertyNames : Finset Str
  required : Option JsonValue
  type : Option JsonValue
  deriving DecidableEq

def surfaceOf (map : JsonMap) : Surface where
  propertyNames := (((map.get? "properties".toList).bind Json.asObject).elim [] JsonObject.keys).toFinset
  required := map.get? "required".toList
  type := map.get? "type".toList

def surface (value : JsonValue) : Surface := value.asObject.elim ⟨∅, none, none⟩ surfaceOf

def holdsLocalRef (value : JsonValue) : Bool := (value.asObject.bind refFromMap).isSome

def holdsComposition (value : JsonValue) : Bool := value.asObject.any hasCompositionKeyword

section Surface

variable {pass : JsonPass Str Scalar} {traversal : DefinitionTraversal} {value : JsonValue}
  {depth : ℕ} {map : JsonMap}

theorem keys_runTable (table : JsonObject Str Scalar) :
    (pass.runTable depth table).keys = table.keys := by
  induction table with
  | nil => rfl
  | cons k v rest ih => exact congrArg (k :: ·) ih

theorem get?_runFields_childShape (hshape : pass.toJsonShape = childShape traversal) {key : Str}
    (htable : (childShape traversal).table key = false)
    (hvisits : ∀ v, (childShape traversal).visits key v = false) :
    (pass.runFields depth map).get? key = map.get? key := by
  refine JsonPass.get?_runFields_other ?_ (fun v => ?_) map
  · rw [hshape, htable]
  · rw [hshape, hvisits]

/-- A pass over the fields of the root keeps what the root says, -/
theorem surfaceOf_runFields (hshape : pass.toJsonShape = childShape traversal) :
    surfaceOf (pass.runFields depth map) = surfaceOf map := by
  have hrequired : (pass.runFields depth map).get? "required".toList = map.get? "required".toList :=
    get?_runFields_childShape hshape (by cases traversal <;> decide) fun _ => rfl
  have htype : (pass.runFields depth map).get? "type".toList = map.get? "type".toList :=
    get?_runFields_childShape hshape (by cases traversal <;> decide) fun _ => rfl
  have hproperties : (((pass.runFields depth map).get? "properties".toList).bind Json.asObject).elim []
      JsonObject.keys = ((map.get? "properties".toList).bind Json.asObject).elim [] JsonObject.keys := by
    rw [JsonPass.get?_runFields]
    cases map.get? "properties".toList with
    | none => rfl
    | some v =>
      have htable : pass.table "properties".toList = true := by
        rw [hshape]
        rfl
      rw [Option.map_some]
      unfold JsonPass.field
      rw [if_pos htable]
      cases v with
      | object table => exact keys_runTable table
      | null => rfl
      | scalar a => rfl
      | array items => rfl
  unfold surfaceOf
  rw [hrequired, htype, hproperties]

theorem refFromMap_runFields (hshape : pass.toJsonShape = childShape traversal) :
    refFromMap (pass.runFields depth map) = refFromMap map :=
  refFromMap_congr (get?_runFields_childShape hshape (by cases traversal <;> decide) fun _ => rfl)

theorem hasCompositionKeyword_runFields :
    hasCompositionKeyword (pass.runFields depth map) = hasCompositionKeyword map := by
  have hkey : ∀ key, containsKey (pass.runFields depth map) key = containsKey map key := by
    intro key
    rw [containsKey, JsonPass.get?_runFields, Option.isSome_map]
    rfl
  unfold hasCompositionKeyword
  exact congrArg compositionSchemaKeys.any (funext hkey)

theorem surfaceOf_remove {key : Str}
    (h : key ∉ ["properties".toList, "required".toList, "type".toList]) :
    surfaceOf (map.remove key) = surfaceOf map := by
  simp only [List.mem_cons, List.not_mem_nil, or_false, not_or] at h
  obtain ⟨hproperties, hrequired, htype⟩ := h
  unfold surfaceOf
  rw [JsonObject.get?_remove, JsonObject.get?_remove, JsonObject.get?_remove,
    if_neg (Ne.symm hproperties), if_neg (Ne.symm hrequired), if_neg (Ne.symm htype)]

theorem hasCompositionKeyword_remove {key : Str} (h : key ∉ compositionSchemaKeys) :
    hasCompositionKeyword (map.remove key) = hasCompositionKeyword map := by
  simp only [compositionSchemaKeys, List.mem_cons, List.not_mem_nil, or_false, not_or] at h
  obtain ⟨hany, hone, hall⟩ := h
  simp only [hasCompositionKeyword, compositionSchemaKeys, List.any_cons, List.any_nil, containsKey]
  rw [JsonObject.get?_remove, JsonObject.get?_remove, JsonObject.get?_remove,
    if_neg (Ne.symm hany), if_neg (Ne.symm hone), if_neg (Ne.symm hall)]

/-- The root after a pass that cuts. -/
theorem run_cuttingPass (cut : ℕ → JsonMap → Bool) (map : JsonMap) :
    (cuttingPass cut).run 0 (.object map) =
      if cut 0 map then .object .nil else .object ((cuttingPass cut).runFields 1 map) := by
  rw [JsonPass.run]
  rfl

/-- If the root is not cut, what it says of the arguments is left, and its composition keywords. -/
theorem surface_cuttingPass (cut : ℕ → JsonMap → Bool) (h : value.asObject.any (cut 0) = false) :
    surface ((cuttingPass cut).run 0 value) = surface value ∧
      holdsComposition ((cuttingPass cut).run 0 value) = holdsComposition value := by
  cases value with
  | object map =>
    have hcut : cut 0 map = false := h
    rw [run_cuttingPass, hcut, if_neg Bool.false_ne_true]
    exact ⟨surfaceOf_runFields rfl, hasCompositionKeyword_runFields⟩
  | null => exact ⟨rfl, rfl⟩
  | scalar a => exact ⟨rfl, rfl⟩
  | array items =>
    rw [JsonPass.run]
    exact ⟨rfl, rfl⟩

theorem cuttingPass_root {cut : ℕ → JsonMap → Bool} (h : value.asObject.any (cut 0) = true) :
    (cuttingPass cut).run 0 value = .object .nil := by
  cases value with
  | object map =>
    have hcut : cut 0 map = true := h
    rw [run_cuttingPass, if_pos hcut]
  | null => cases h
  | scalar a => cases h
  | array items => cases h

theorem stripSchemaDescriptions_root (value : JsonValue) :
    surface (stripSchemaDescriptions value) = surface value ∧
      holdsLocalRef (stripSchemaDescriptions value) = holdsLocalRef value ∧
      holdsComposition (stripSchemaDescriptions value) = holdsComposition value := by
  cases value with
  | object map =>
    have hrun : stripSchemaDescriptions (.object map) =
        .object ((stripPass.runFields 1 map).remove "description".toList) := by
      unfold stripSchemaDescriptions
      rw [JsonPass.run]
      rfl
    have href : refFromMap ((stripPass.runFields 1 map).remove "description".toList) = refFromMap map := by
      have hfields : refFromMap (stripPass.runFields 1 map) = refFromMap map :=
        refFromMap_runFields rfl
      rw [← hfields]
      refine refFromMap_congr ?_
      rw [JsonObject.get?_remove, if_neg (by decide)]
    rw [hrun]
    refine ⟨?_, congrArg Option.isSome href, ?_⟩
    · exact (surfaceOf_remove (by decide)).trans (surfaceOf_runFields rfl)
    · exact (hasCompositionKeyword_remove (by decide)).trans hasCompositionKeyword_runFields
  | null | scalar a => exact ⟨rfl, rfl, rfl⟩
  | array items =>
    unfold stripSchemaDescriptions
    rw [JsonPass.run]
    exact ⟨rfl, rfl, rfl⟩

theorem any_refFromMap (value : JsonValue) :
    (value.asObject.any fun map => (refFromMap map).isSome) = holdsLocalRef value := by
  cases value <;> rfl

theorem dropSchemaDefinitions_root (h : holdsLocalRef value = false) :
    surface (dropSchemaDefinitions value) = surface value ∧
      holdsComposition (dropSchemaDefinitions value) = holdsComposition value := by
  rw [← any_refFromMap] at h
  obtain ⟨hsurface, hcomposition⟩ := surface_cuttingPass (fun _ map => (refFromMap map).isSome) h
  rw [← hsurface, ← hcomposition]
  unfold dropSchemaDefinitions
  split
  · next map heq =>
    rw [rewriteDefinitionRefsToEmptySchemas] at heq
    rw [heq]
    constructor
    · show surfaceOf ((map.remove _).remove _) = surfaceOf map
      rw [surfaceOf_remove (by decide), surfaceOf_remove (by decide)]
    · show hasCompositionKeyword ((map.remove _).remove _) = hasCompositionKeyword map
      rw [hasCompositionKeyword_remove (by decide), hasCompositionKeyword_remove (by decide)]
  · exact ⟨rfl, rfl⟩

theorem dropSchemaDefinitions_of_ref (h : holdsLocalRef value = true) :
    dropSchemaDefinitions value = .object .nil := by
  rw [← any_refFromMap] at h
  unfold dropSchemaDefinitions rewriteDefinitionRefsToEmptySchemas
  rw [cuttingPass_root h]
  rfl

theorem collapseDeepSchemaObjectsFromRoot_root (value : JsonValue) :
    surface (collapseDeepSchemaObjectsFromRoot value) = surface value ∧
      holdsComposition (collapseDeepSchemaObjectsFromRoot value) = holdsComposition value := by
  refine surface_cuttingPass _ ?_
  cases value <;> rfl

theorem pruneSchemaCompositions_root (h : holdsComposition value = false) :
    surface (pruneSchemaCompositions value) = surface value :=
  (surface_cuttingPass (fun _ => hasCompositionKeyword) h).1

theorem pruneSchemaCompositions_of_composition (h : holdsComposition value = true) :
    pruneSchemaCompositions value = .object .nil := cuttingPass_root h

/-! ### The whole run -/

/-- The value after the first passes. -/
def compactedBy (passes : ℕ) (value : JsonValue) : JsonValue :=
  (largeSchemaCompactionPasses.take passes).foldl (fun value pass => pass value) value

/-- The value is over budget, and still is after each of the first passes. -/
def StaysOverBudget (passes : ℕ) (value : JsonValue) : Prop :=
  ∀ run ≤ passes, compactSchemaFitsBudget (compactedBy run value) = false

theorem staysOverBudget_succ {passes : ℕ} : StaysOverBudget (passes + 1) value ↔
    StaysOverBudget passes value ∧
      compactSchemaFitsBudget (compactedBy (passes + 1) value) = false := by
  constructor
  · intro h
    exact ⟨fun run hle => h run (Nat.le_succ_of_le hle), h (passes + 1) (le_refl _)⟩
  · rintro ⟨h, hlast⟩ run hle
    rcases Nat.lt_or_eq_of_le hle with hlt | rfl
    · exact h run (Nat.le_of_lt_succ hlt)
    · exact hlast

/-- The reference is replaced by the second pass, the composition by the fourth. -/
def LosesRoot (value : JsonValue) : Prop :=
  (StaysOverBudget 1 value ∧ holdsLocalRef value = true) ∨
    (StaysOverBudget 3 value ∧ holdsComposition value = true)

theorem compactLargeToolSchema_eq (value : JsonValue) : compactLargeToolSchema value =
    if compactSchemaFitsBudget (compactedBy 0 value) then compactedBy 0 value
    else if compactSchemaFitsBudget (compactedBy 1 value) then compactedBy 1 value
    else if compactSchemaFitsBudget (compactedBy 2 value) then compactedBy 2 value
    else if compactSchemaFitsBudget (compactedBy 3 value) then compactedBy 3 value
    else compactedBy 4 value := rfl

/-- Where a root is replaced, nothing is left of it. -/
theorem compact_of_losesRoot (h : LosesRoot value) :
    compactLargeToolSchema value = .object .nil := by
  have hempty : compactSchemaFitsBudget (.object .nil) = true := by decide
  obtain ⟨-, href, hcomposition⟩ := stripSchemaDescriptions_root value
  by_cases hboth : StaysOverBudget 1 value ∧ holdsLocalRef value = true
  · obtain ⟨hruns, hyes⟩ := hboth
    have hsecond : compactedBy 2 value = .object .nil :=
      dropSchemaDefinitions_of_ref (href.trans hyes)
    rw [compactLargeToolSchema_eq, hruns 0 (by omega), hruns 1 (by omega), hsecond, hempty]
    rfl
  · rcases h with h | ⟨hruns, hyes⟩
    · exact absurd h hboth
    have hno : holdsLocalRef value = false := by
      rw [Bool.eq_false_iff]
      exact fun href => hboth ⟨fun run hle => hruns run (by omega), href⟩
    have hthird : holdsComposition (compactedBy 3 value) = true := by
      refine (collapseDeepSchemaObjectsFromRoot_root _).2.trans ?_
      refine (dropSchemaDefinitions_root (href.trans hno)).2.trans ?_
      exact hcomposition.trans hyes
    have hlast : compactedBy 4 value = .object .nil := pruneSchemaCompositions_of_composition hthird
    rw [compactLargeToolSchema_eq, hruns 0 (by omega), hruns 1 (by omega), hruns 2 (by omega),
      hruns 3 (by omega)]
    exact hlast

theorem surface_of_not_losesRoot (h : ¬ LosesRoot value) :
    surface (compactLargeToolSchema value) = surface value := by
  obtain ⟨hstrip, href, hcomposition⟩ := stripSchemaDescriptions_root value
  rw [compactLargeToolSchema_eq]
  split
  · rfl
  next hzero =>
  split
  · exact hstrip
  next hone =>
  have hruns : StaysOverBudget 1 value := by
    rw [staysOverBudget_succ]
    refine ⟨fun run hle => ?_, Bool.eq_false_iff.2 hone⟩
    rw [Nat.le_zero.1 hle]
    exact Bool.eq_false_iff.2 hzero
  have hno : holdsLocalRef value = false := by
    rw [Bool.eq_false_iff]
    exact fun hyes => h (.inl ⟨hruns, hyes⟩)
  obtain ⟨hdrop, hcomposition'⟩ := dropSchemaDefinitions_root (href.trans hno)
  obtain ⟨hcollapse, hcomposition''⟩ :=
    collapseDeepSchemaObjectsFromRoot_root (dropSchemaDefinitions (stripSchemaDescriptions value))
  split
  · exact hdrop.trans hstrip
  next htwo =>
  split
  · exact hcollapse.trans (hdrop.trans hstrip)
  next hthree =>
  have hruns' : StaysOverBudget 3 value := by
    rw [staysOverBudget_succ, staysOverBudget_succ]
    exact ⟨⟨hruns, Bool.eq_false_iff.2 htwo⟩, Bool.eq_false_iff.2 hthree⟩
  have hno' : holdsComposition value = false := by
    rw [Bool.eq_false_iff]
    exact fun hyes => h (.inr ⟨hruns', hyes⟩)
  have hthird := hcomposition''.trans (hcomposition'.trans (hcomposition.trans hno'))
  exact (pruneSchemaCompositions_root hthird).trans (hcollapse.trans (hdrop.trans hstrip))

/-- **Which schemas keep their top-level arguments**: those that have none, and those whose root is
not replaced. No pass that is run makes a schema longer. -/
theorem surface_compact_iff (value : JsonValue) :
    (surface (compactLargeToolSchema value) = surface value ∧
      ∀ pass ∈ largeSchemaCompactionPasses, ∀ schema, compactSchemaFitsBudget schema = false →
        compactNormalizedSchemaLen (pass schema) ≤ compactNormalizedSchemaLen schema) ↔
    surface value = surface (.object .nil) ∨ ¬ LosesRoot value := by
  rw [and_iff_left fun pass hpass schema hover => pass_le hpass hover]
  by_cases hloses : LosesRoot value
  · rw [compact_of_losesRoot hloses, or_iff_left (not_not_intro hloses)]
    exact eq_comm
  · exact iff_of_true (surface_of_not_losesRoot hloses) (.inr hloses)

end Surface

/-- A schema of one property, with a composition at the root and a long value. -/
def composedSchema (s : Str) : JsonMap :=
  .cons "anyOf".toList (.array .nil)
    (.cons "enum".toList (.array (.cons (stringValue s) .nil))
      (.cons "properties".toList (.object (.cons ['a'] typeString .nil))
        (.cons "type".toList (stringValue (schemaTypeName .object)) .nil)))

theorem sanitize_composedSchema (s : Str) :
    sanitizeJsonSchema (.object (composedSchema s)) = .object (composedSchema s) := by
  rfl

theorem prepare_composedSchema (s : Str) :
    prepareToolInputSchema (.object (composedSchema s)) = .object (composedSchema s) := by
  have htables : ∀ table ∈ definitionTableKeys, (composedSchema s).get? table = none := by
    intro table hmem
    rcases List.mem_pair.1 hmem with rfl | rfl
    · rfl
    · rfl
  rw [prepareToolInputSchema, sanitize_composedSchema]
  exact prune_of_get?_none htables

theorem le_length_composedSchema (n : ℕ) :
    n ≤ compactNormalizedSchemaLen (.object (composedSchema (List.replicate n 'a'))) := by
  have hread : ∀ s, read true .schema (.object (composedSchema s)) =
      some (.object (composedSchema s)) := fun _ => rfl
  have hstring : n ≤ utf8Len (jsonString (List.replicate n 'a')) := by
    have hescape : (List.replicate n 'a').flatMap escapeChar = List.replicate n 'a' := by
      rw [List.flatMap_replicate]
      exact List.flatten_replicate_singleton
    have hascii : utf8Len (jsonString (List.replicate n 'a')) =
        (jsonString (List.replicate n 'a')).length := by
      refine utf8Len_of_ascii fun c hc => ?_
      rw [jsonString, hescape] at hc
      rcases List.mem_append.1 hc with hc | hc
      · rcases List.mem_cons.1 hc with rfl | hc
        · decide
        · rw [List.eq_of_mem_replicate hc]
          decide
      · rw [List.mem_singleton.1 hc]
        decide
    rw [hascii, jsonString, hescape, List.length_append, List.length_cons, List.length_replicate]
    omega
  rw [compactNormalizedSchemaLen, hread]
  simp only [Option.elim_some, composedSchema, stringValue, serializedLen, fieldsLen, itemsLen]
  omega

theorem not_surface_compact : ¬ ∀ inputSchema,
    surface (compactLargeToolSchema (prepareToolInputSchema inputSchema)) =
      surface (prepareToolInputSchema inputSchema) := by
  intro h
  have hsurface := h (.object (composedSchema (List.replicate 5001 'a')))
  rw [prepare_composedSchema] at hsurface
  have hover : StaysOverBudget 3 (.object (composedSchema (List.replicate 5001 'a'))) := by
    have hsame : ∀ run ≤ 3, ∀ s, compactedBy run (.object (composedSchema s)) =
        .object (composedSchema s) := by
      intro run hle s
      match run, hle with
      | 0, _ => rfl
      | 1, _ => rfl
      | 2, _ => rfl
      | 3, _ => rfl
    intro run hle
    have hlen := le_length_composedSchema 5001
    rw [hsame run hle, compactSchemaFitsBudget, decide_eq_false_iff_not, maxCompactToolSchemaBytes]
    omega
  rw [compact_of_losesRoot (.inr ⟨hover, rfl⟩)] at hsurface
  have htype := congrArg Surface.type hsurface
  cases htype

end Codex.ToolSchema
