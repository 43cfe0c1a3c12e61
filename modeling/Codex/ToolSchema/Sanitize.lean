import Codex.Base.JsonTraversal
import Codex.Text.Str

/-!
# Sanitizing tool schemas

`sanitize_json_schema` (`tools/src/json_schema.rs`) lowers the JSON schema of a
third-party tool to the part that `JsonSchema` can hold. It rewrites the `type` of
every object, except that an object with a reference or a composition and no
recognised type is left at once. A malformed `type` beside one of these stays
(`sanitized_iff`).
-/

namespace Codex.ToolSchema

open List Codex.Text

/-! ## Values -/

/-- A number is kept as it is printed. -/
inductive Scalar where
  | bool (b : Bool)
  | number (text : Str)
  | string (s : Str)
  deriving DecidableEq

abbrev JsonValue := Json Str Scalar

abbrev JsonMap := JsonObject Str Scalar

def ofList : List JsonValue → JsonArray Str Scalar
  | [] => .nil
  | value :: rest => .cons value (ofList rest)

def stringValue (s : Str) : JsonValue := .scalar (.string s)

def asStr : JsonValue → Option Str
  | .scalar (.string s) => some s
  | _ => none

def isBool : JsonValue → Bool
  | .scalar (.bool _) => true
  | _ => false

def containsKey (map : JsonMap) (key : Str) : Bool := (map.get? key).isSome

/-! ## Types -/

inductive JsonSchemaPrimitiveType where
  | string
  | number
  | boolean
  | integer
  | object
  | array
  | null
  deriving DecidableEq

def schemaTypeName : JsonSchemaPrimitiveType → Str
  | .string => "string".toList
  | .number => "number".toList
  | .boolean => "boolean".toList
  | .integer => "integer".toList
  | .object => "object".toList
  | .array => "array".toList
  | .null => "null".toList

def schemaTypeFromStr (schemaType : Str) : Option JsonSchemaPrimitiveType :=
  [.string, .number, .boolean, .integer, .object, .array, .null].find? fun type =>
    schemaTypeName type = schemaType

def normalizedSchemaTypes (map : JsonMap) : List JsonSchemaPrimitiveType :=
  match map.get? "type".toList with
  | some (.scalar (.string schemaType)) => (schemaTypeFromStr schemaType).toList
  | some (.array schemaTypes) => (schemaTypes.toList.filterMap asStr).filterMap schemaTypeFromStr
  | _ => []

def typeString : JsonValue :=
  .object (.cons "type".toList (stringValue (schemaTypeName .string)) .nil)

def writeSchemaTypes (map : JsonMap) : List JsonSchemaPrimitiveType → JsonMap
  | [] => map.remove "type".toList
  | [schemaType] => map.insert "type".toList (stringValue (schemaTypeName schemaType))
  | schemaTypes => map.insert "type".toList
      (.array (ofList (schemaTypes.map fun schemaType => stringValue (schemaTypeName schemaType))))

def ensureDefaultChild (schemaTypes : List JsonSchemaPrimitiveType)
    (schemaType : JsonSchemaPrimitiveType) (key : Str) (value : JsonValue) (map : JsonMap) : JsonMap :=
  if schemaType ∈ schemaTypes ∧ containsKey map key = false then map.insert key value else map

def ensureDefaultChildrenForSchemaTypes (map : JsonMap)
    (schemaTypes : List JsonSchemaPrimitiveType) : JsonMap :=
  ensureDefaultChild schemaTypes .array "items".toList typeString
    (ensureDefaultChild schemaTypes .object "properties".toList (.object .nil) map)

/-! ## Model -/

def definitionTableKeys : List Str := ["$defs".toList, "definitions".toList]

def compositionSchemaKeys : List Str := ["anyOf".toList, "oneOf".toList, "allOf".toList]

def hasCompositionKeyword (map : JsonMap) : Bool := compositionSchemaKeys.any (containsKey map)

/-- Where `sanitize_json_schema` looks for schemas. -/
def sanitizeShape : JsonShape Str Scalar where
  visits key value := key ∈ "items".toList :: "prefixItems".toList :: compositionSchemaKeys ||
    (key == "additionalProperties".toList && !isBool value)
  table key := key ∈ "properties".toList :: definitionTableKeys

/-- What `sanitize_schema_table` does besides sanitizing the entries: a table that is no object is
removed. -/
def removeMalformedTable (map : JsonMap) (key : Str) : JsonMap :=
  match map.get? key with
  | some (.object _) => map
  | some _ => map.remove key
  | none => map

def lowerConst (map : JsonMap) : JsonMap :=
  match map.get? "const".toList with
  | some value => (map.remove "const".toList).insert "enum".toList (.array (ofList [value]))
  | none => map

/-- The type that the other keywords of a schema hint at. -/
def hintedSchemaType (map : JsonMap) : Option JsonSchemaPrimitiveType :=
  if ["properties".toList, "required".toList, "additionalProperties".toList].any (containsKey map) then
    some .object
  else if ["items".toList, "prefixItems".toList].any (containsKey map) then some .array
  else if ["enum".toList, "format".toList].any (containsKey map) then some .string
  else if ["minimum".toList, "maximum".toList, "exclusiveMinimum".toList, "exclusiveMaximum".toList,
      "multipleOf".toList].any (containsKey map) then some .number
  else none

def hasRefOrComposition (map : JsonMap) : Bool :=
  containsKey map "$ref".toList || hasCompositionKeyword map

/-- The part of `sanitize_json_schema` after the children of an object. -/
def finishSchema (map : JsonMap) : JsonMap :=
  let map := lowerConst (definitionTableKeys.foldl removeMalformedTable map)
  let schemaTypes := normalizedSchemaTypes map
  if schemaTypes = [] ∧ hasRefOrComposition map = true then map
  else
    let schemaTypes := if schemaTypes = [] then (hintedSchemaType map).toList else schemaTypes
    if schemaTypes = [] then .nil
    else ensureDefaultChildrenForSchemaTypes (writeSchemaTypes map schemaTypes) schemaTypes

def sanitizePass : JsonPass Str Scalar where
  toJsonShape := sanitizeShape
  cut _ _ := false
  leave := finishSchema
  leaf
    | .bool _ => typeString
    | a => .scalar a

def sanitizeJsonSchema (value : JsonValue) : JsonValue := sanitizePass.run 0 value

/-! ## Recognised types -/

/-- A type name, or a list of type names. -/
def Recognised (value : JsonValue) : Prop :=
  (∃ schemaType, value = stringValue (schemaTypeName schemaType)) ∨
    ∃ schemaTypes : List JsonSchemaPrimitiveType,
      value = .array (ofList (schemaTypes.map fun schemaType => stringValue (schemaTypeName schemaType)))

theorem schemaTypeFromStr_name (schemaType : JsonSchemaPrimitiveType) :
    schemaTypeFromStr (schemaTypeName schemaType) = some schemaType := by
  cases schemaType <;> decide

theorem toList_ofList (values : List JsonValue) : (ofList values).toList = values := by
  induction values with
  | nil => rfl
  | cons value rest ih => rw [ofList, JsonArray.toList, ih]

theorem filterMap_names (schemaTypes : List JsonSchemaPrimitiveType) :
    ((schemaTypes.map fun schemaType => stringValue (schemaTypeName schemaType)).filterMap
      asStr).filterMap schemaTypeFromStr = schemaTypes := by
  induction schemaTypes with
  | nil => rfl
  | cons schemaType rest ih =>
    have hname : asStr (stringValue (schemaTypeName schemaType)) =
      some (schemaTypeName schemaType) := rfl
    rw [map_cons, filterMap_cons_some hname,
      filterMap_cons_some (schemaTypeFromStr_name schemaType), ih]

/-- What a schema object must be like. -/
structure Sane (map : JsonMap) : Prop where
  type : ∀ value, map.get? "type".toList = some value → Recognised value
  object : .object ∈ normalizedSchemaTypes map → containsKey map "properties".toList = true
  array : .array ∈ normalizedSchemaTypes map → containsKey map "items".toList = true
  const : containsKey map "const".toList = false

/-- A type is given that has no name recognised, and a reference or a composition beside it keeps it
from being rewritten. -/
def KeepsMalformedType (map : JsonMap) : Prop :=
  normalizedSchemaTypes map = [] ∧ hasRefOrComposition map = true ∧
    ∃ value, map.get? "type".toList = some value ∧ value ≠ .array .nil

/-- Nothing hints at a type, and the object is cleared. -/
def Cleared (map : JsonMap) : Prop :=
  normalizedSchemaTypes map = [] ∧ hasRefOrComposition map = false ∧
    hintedSchemaType (lowerConst map) = none

/-! ## Fields that a step leaves alone -/

section Fields

variable {map map' : JsonMap} {key : Str}

theorem containsKey_congr (h : map.get? key = map'.get? key) :
    containsKey map key = containsKey map' key := by
  rw [containsKey, h, containsKey]

theorem get?_removeMalformedTable {table : Str} (h : key ≠ table) :
    (removeMalformedTable map table).get? key = map.get? key := by
  unfold removeMalformedTable
  split
  · rfl
  · rw [JsonObject.get?_remove, if_neg h]
  · rfl

theorem get?_removeMalformedTables (h : key ∉ definitionTableKeys) :
    (definitionTableKeys.foldl removeMalformedTable map).get? key = map.get? key := by
  simp only [definitionTableKeys, mem_cons, not_mem_nil, or_false, not_or] at h
  show (removeMalformedTable (removeMalformedTable map _) _).get? key = _
  rw [get?_removeMalformedTable h.2, get?_removeMalformedTable h.1]

theorem get?_lowerConst (hconst : key ≠ "const".toList) (henum : key ≠ "enum".toList) :
    (lowerConst map).get? key = map.get? key := by
  unfold lowerConst
  split
  · rw [JsonObject.get?_insert, if_neg henum, JsonObject.get?_remove, if_neg hconst]
  · rfl

theorem const_lowerConst : (lowerConst map).get? "const".toList = none := by
  unfold lowerConst
  split
  · rw [JsonObject.get?_insert, if_neg (by decide), JsonObject.get?_remove, if_pos rfl]
  · next h => exact h

theorem get?_writeSchemaTypes (h : key ≠ "type".toList)
    (schemaTypes : List JsonSchemaPrimitiveType) :
    (writeSchemaTypes map schemaTypes).get? key = map.get? key := by
  unfold writeSchemaTypes
  split
  · rw [JsonObject.get?_remove, if_neg h]
  · rw [JsonObject.get?_insert, if_neg h]
  · rw [JsonObject.get?_insert, if_neg h]

variable {schemaTypes : List JsonSchemaPrimitiveType} {schemaType : JsonSchemaPrimitiveType}

theorem get?_ensureDefaultChild {child : Str} {value : JsonValue} (h : key ≠ child) :
    (ensureDefaultChild schemaTypes schemaType child value map).get? key = map.get? key := by
  unfold ensureDefaultChild
  split
  · rw [JsonObject.get?_insert, if_neg h]
  · rfl

theorem containsKey_ensureDefaultChild {value : JsonValue} (h : schemaType ∈ schemaTypes) :
    containsKey (ensureDefaultChild schemaTypes schemaType key value map) key = true := by
  unfold ensureDefaultChild
  split
  · rw [containsKey, JsonObject.get?_insert, if_pos rfl]
    rfl
  · next hno => simpa [h] using hno

theorem get?_ensureDefaultChildren (hprops : key ≠ "properties".toList)
    (hitems : key ≠ "items".toList) (schemaTypes : List JsonSchemaPrimitiveType) :
    (ensureDefaultChildrenForSchemaTypes map schemaTypes).get? key = map.get? key := by
  unfold ensureDefaultChildrenForSchemaTypes
  rw [get?_ensureDefaultChild hitems, get?_ensureDefaultChild hprops]

theorem normalizedSchemaTypes_congr (h : map.get? "type".toList = map'.get? "type".toList) :
    normalizedSchemaTypes map = normalizedSchemaTypes map' := by
  rw [normalizedSchemaTypes, h, normalizedSchemaTypes]

/-- Written types are read back. -/
theorem normalizedSchemaTypes_write (h : schemaTypes ≠ []) :
    normalizedSchemaTypes (writeSchemaTypes map schemaTypes) = schemaTypes ∧
      ∀ value, (writeSchemaTypes map schemaTypes).get? "type".toList = some value →
        Recognised value := by
  match schemaTypes with
  | [] => exact absurd rfl h
  | [schemaType] =>
    have hget : (writeSchemaTypes map [schemaType]).get? "type".toList =
        some (stringValue (schemaTypeName schemaType)) := by
      rw [writeSchemaTypes, JsonObject.get?_insert, if_pos rfl]
    refine ⟨?_, fun value hvalue => ?_⟩
    · rw [normalizedSchemaTypes, hget]
      show (schemaTypeFromStr (schemaTypeName schemaType)).toList = _
      rw [schemaTypeFromStr_name]
      rfl
    · rw [hget] at hvalue
      exact .inl ⟨schemaType, (Option.some_inj.1 hvalue).symm⟩
  | first :: second :: rest =>
    have hget : (writeSchemaTypes map (first :: second :: rest)).get? "type".toList =
        some (.array (ofList ((first :: second :: rest).map fun schemaType =>
          stringValue (schemaTypeName schemaType)))) := by
      rw [writeSchemaTypes, JsonObject.get?_insert, if_pos rfl]
      · exact nofun
      · exact nofun
    refine ⟨?_, fun value hvalue => ?_⟩
    · rw [normalizedSchemaTypes, hget]
      show ((ofList _).toList.filterMap asStr).filterMap schemaTypeFromStr = _
      rw [toList_ofList, filterMap_names]
    · rw [hget] at hvalue
      exact .inr ⟨_, (Option.some_inj.1 hvalue).symm⟩

theorem hasRefOrComposition_congr (h : ∀ key ∈ "$ref".toList :: compositionSchemaKeys,
    map.get? key = none ↔ map'.get? key = none) :
    hasRefOrComposition map = hasRefOrComposition map' := by
  have hkey : ∀ key ∈ "$ref".toList :: compositionSchemaKeys,
      containsKey map key = containsKey map' key := by
    intro key hmem
    have hiff := h key hmem
    unfold containsKey
    cases hget : map.get? key <;> cases hget' : map'.get? key <;> simp_all
  unfold hasRefOrComposition hasCompositionKeyword
  rw [hkey _ mem_cons_self]
  congr 1
  simp only [compositionSchemaKeys, any_cons, any_nil]
  rw [hkey "anyOf".toList (by decide), hkey "oneOf".toList (by decide),
    hkey "allOf".toList (by decide)]

end Fields

/-! ## What is left of an object -/

section Finish

variable {map map' : JsonMap} {key : Str} {w : JsonValue}

/-- The object before its type is looked at. -/
def lowered (map : JsonMap) : JsonMap :=
  lowerConst (definitionTableKeys.foldl removeMalformedTable map)

theorem containsKey_lowerConst (hconst : map.get? "const".toList = map'.get? "const".toList)
    (hkey : containsKey map key = containsKey map' key) :
    containsKey (lowerConst map) key = containsKey (lowerConst map') key := by
  unfold lowerConst
  rw [hconst]
  split
  · unfold containsKey
    rw [JsonObject.get?_insert, JsonObject.get?_insert, JsonObject.get?_remove,
      JsonObject.get?_remove]
    split
    · rfl
    · split
      · rfl
      · exact hkey
  · exact hkey

theorem hintedSchemaType_congr
    (h : ∀ key ∉ definitionTableKeys, containsKey map key = containsKey map' key) :
    hintedSchemaType map = hintedSchemaType map' := by
  have hany : ∀ keys : List Str, (∀ key ∈ keys, key ∉ definitionTableKeys) →
      keys.any (containsKey map) = keys.any (containsKey map') := by
    intro keys hkeys
    induction keys with
    | nil => rfl
    | cons key keys ih =>
      rw [forall_mem_cons] at hkeys
      rw [any_cons, any_cons, h key hkeys.1, ih hkeys.2]
  unfold hintedSchemaType
  rw [hany _ (by decide), hany _ (by decide), hany _ (by decide), hany _ (by decide)]

theorem get?_lowered (hconst : key ≠ "const".toList) (henum : key ≠ "enum".toList)
    (htable : key ∉ definitionTableKeys) : (lowered map).get? key = map.get? key := by
  unfold lowered
  rw [get?_lowerConst hconst henum, get?_removeMalformedTables htable]

theorem type_lowered : (lowered map).get? "type".toList = map.get? "type".toList :=
  get?_lowered (by decide) (by decide) (by decide)

theorem hintedSchemaType_lowered :
    hintedSchemaType (lowered map) = hintedSchemaType (lowerConst map) := by
  refine hintedSchemaType_congr fun key hkey => ?_
  refine containsKey_lowerConst (get?_removeMalformedTables (by decide)) ?_
  exact containsKey_congr (get?_removeMalformedTables hkey)

theorem hasRefOrComposition_lowered : hasRefOrComposition (lowered map) = hasRefOrComposition map := by
  refine hasRefOrComposition_congr fun key hkey => ?_
  have hother : ∀ key ∈ "$ref".toList :: compositionSchemaKeys,
      key ≠ "const".toList ∧ key ≠ "enum".toList ∧ key ∉ definitionTableKeys := by decide
  obtain ⟨hconst, henum, htable⟩ := hother key hkey
  rw [get?_lowered hconst henum htable]

/-- The three ways an object goes. -/
theorem finishSchema_cases (map : JsonMap) :
    (normalizedSchemaTypes map = [] ∧ hasRefOrComposition map = true ∧
      finishSchema map = lowered map) ∨
    (Cleared map ∧ finishSchema map = .nil) ∨
    (¬ Cleared map ∧ ¬ (normalizedSchemaTypes map = [] ∧ hasRefOrComposition map = true) ∧
      ∃ schemaTypes, schemaTypes ≠ [] ∧ finishSchema map =
        ensureDefaultChildrenForSchemaTypes (writeSchemaTypes (lowered map) schemaTypes)
          schemaTypes) := by
  have htypes : normalizedSchemaTypes (lowered map) = normalizedSchemaTypes map :=
    normalizedSchemaTypes_congr type_lowered
  have hfinish : finishSchema map =
      if normalizedSchemaTypes (lowered map) = [] ∧ hasRefOrComposition (lowered map) = true then
        lowered map
      else
        let schemaTypes := if normalizedSchemaTypes (lowered map) = [] then
          (hintedSchemaType (lowered map)).toList else normalizedSchemaTypes (lowered map)
        if schemaTypes = [] then .nil
        else ensureDefaultChildrenForSchemaTypes (writeSchemaTypes (lowered map) schemaTypes)
          schemaTypes := rfl
  rw [htypes, hasRefOrComposition_lowered, hintedSchemaType_lowered] at hfinish
  rw [hfinish]
  by_cases hkeep : normalizedSchemaTypes map = [] ∧ hasRefOrComposition map = true
  · exact .inl ⟨hkeep.1, hkeep.2, if_pos hkeep⟩
  · rw [if_neg hkeep]
    dsimp only
    by_cases hnil : normalizedSchemaTypes map = []
    · have href : hasRefOrComposition map = false := Bool.eq_false_iff.2 fun h => hkeep ⟨hnil, h⟩
      rw [if_pos hnil]
      cases hhint : hintedSchemaType (lowerConst map) with
      | none => exact .inr (.inl ⟨⟨hnil, href, hhint⟩, if_pos rfl⟩)
      | some schemaType =>
        refine .inr (.inr ⟨fun hcleared => ?_, hkeep, [schemaType], cons_ne_nil _ _, if_neg ?_⟩)
        · have hnone := hcleared.2.2
          rw [hhint] at hnone
          cases hnone
        · exact cons_ne_nil _ _
    · rw [if_neg hnil, if_neg hnil]
      exact .inr (.inr ⟨fun hcleared => hnil hcleared.1, hkeep, _, hnil, rfl⟩)

/-! ## Sane objects -/

variable {value : JsonValue} {schemaTypes : List JsonSchemaPrimitiveType}
  {schemaType : JsonSchemaPrimitiveType}

theorem recognised_of_nil (h : map.get? "type".toList = some value)
    (hnil : normalizedSchemaTypes map = []) (hvalue : Recognised value) : value = .array .nil := by
  unfold normalizedSchemaTypes at hnil
  rw [h] at hnil
  rcases hvalue with ⟨schemaType, rfl⟩ | ⟨schemaTypes, rfl⟩
  · change (schemaTypeFromStr (schemaTypeName schemaType)).toList = [] at hnil
    rw [schemaTypeFromStr_name] at hnil
    cases hnil
  · change ((ofList _).toList.filterMap asStr).filterMap schemaTypeFromStr = [] at hnil
    rw [toList_ofList, filterMap_names] at hnil
    rw [hnil]
    rfl

theorem sane_ensureDefaultChildren (hne : schemaTypes ≠ [])
    (hconst : map.get? "const".toList = none) :
    Sane (ensureDefaultChildrenForSchemaTypes (writeSchemaTypes map schemaTypes) schemaTypes) := by
  obtain ⟨htypes, hrecognised⟩ :
      normalizedSchemaTypes (writeSchemaTypes map schemaTypes) = schemaTypes ∧ _ :=
    normalizedSchemaTypes_write hne
  have htype : (ensureDefaultChildrenForSchemaTypes (writeSchemaTypes map schemaTypes)
      schemaTypes).get? "type".toList = (writeSchemaTypes map schemaTypes).get? "type".toList :=
    get?_ensureDefaultChildren (by decide) (by decide) schemaTypes
  rw [← normalizedSchemaTypes_congr htype] at htypes
  refine ⟨fun value hvalue => hrecognised value (htype ▸ hvalue), ?_, ?_, ?_⟩
  · rw [htypes]
    intro hobject
    unfold ensureDefaultChildrenForSchemaTypes
    rw [containsKey, get?_ensureDefaultChild (by decide)]
    exact containsKey_ensureDefaultChild hobject
  · rw [htypes]
    exact containsKey_ensureDefaultChild
  · rw [containsKey, get?_ensureDefaultChildren (by decide) (by decide),
      get?_writeSchemaTypes (by decide), hconst]
    rfl

/-- **What finishing makes of an object**: a sane one, unless a malformed type is kept. -/
theorem sane_finishSchema : Sane (finishSchema map) ↔ ¬ KeepsMalformedType map := by
  rcases finishSchema_cases map with ⟨hnil, href, heq⟩ | ⟨hcleared, heq⟩ | ⟨-, hnot, types, hne, heq⟩
  · rw [heq]
    have hlowered : normalizedSchemaTypes (lowered map) = [] :=
      (normalizedSchemaTypes_congr type_lowered).trans hnil
    constructor
    · rintro hsane ⟨-, -, value, hvalue, hne⟩
      exact hne (recognised_of_nil hvalue hnil (hsane.type value (type_lowered.trans hvalue)))
    · intro hkeeps
      refine ⟨fun value hvalue => ?_, ?_, ?_, ?_⟩
      · rw [type_lowered] at hvalue
        by_contra hbad
        refine hkeeps ⟨hnil, href, value, hvalue, ?_⟩
        rintro rfl
        exact hbad (.inr ⟨[], rfl⟩)
      · rw [hlowered]
        exact nofun
      · rw [hlowered]
        exact nofun
      · rw [containsKey, lowered, const_lowerConst]
        rfl
  · rw [heq]
    refine iff_of_true ⟨nofun, nofun, nofun, rfl⟩ fun hkeeps => ?_
    have href := hkeeps.2.1
    rw [hcleared.2.1] at href
    cases href
  · rw [heq]
    refine iff_of_true (sane_ensureDefaultChildren hne const_lowerConst) fun hkeeps => ?_
    exact hnot ⟨hkeeps.1, hkeeps.2.1⟩

/-! ## Children of what is left -/

theorem not_reads {key : Str} (htable : sanitizeShape.table key = false)
    (hvisits : ∀ v, sanitizeShape.visits key v = false) : ¬ sanitizeShape.Reads key := by
  rintro (h | ⟨v, h⟩)
  · rw [htable] at h
    cases h
  · rw [hvisits] at h
    cases h

theorem child_removeMalformedTable {table : Str} (htable : sanitizeShape.table table = true) :
    sanitizeShape.Child (.object (removeMalformedTable map table)) w ↔
      sanitizeShape.Child (.object map) w := by
  by_cases hmalformed : ∃ entries, map.get? table = some (.object entries)
  · obtain ⟨entries, hentries⟩ := hmalformed
    have hsame : removeMalformedTable map table = map := by
      unfold removeMalformedTable
      rw [hentries]
    rw [hsame]
  · constructor
    · refine JsonShape.child_of_get fun key v _ hget => ?_
      by_cases hkey : key = table
      · subst hkey
        unfold removeMalformedTable at hget
        split at hget
        · exact hget
        · rw [JsonObject.get?_remove, if_pos rfl] at hget
          cases hget
        · exact hget
      · rwa [get?_removeMalformedTable hkey] at hget
    · intro h
      cases h with
      | @field _ key _ hget hno hvisits =>
        have hkey : key ≠ table := by
          rintro rfl
          rw [htable] at hno
          cases hno
        exact .field (by rwa [get?_removeMalformedTable hkey]) hno hvisits
      | @entry _ entries key _ _ hget hyes hentry =>
        have hkey : key ≠ table := by
          rintro rfl
          exact hmalformed ⟨entries, hget⟩
        have hget' : (removeMalformedTable map table).get? key = some (.object entries) := by
          rwa [get?_removeMalformedTable hkey]
        exact .entry hget' hyes hentry

theorem child_lowered :
    sanitizeShape.Child (.object (lowered map)) w ↔ sanitizeShape.Child (.object map) w := by
  have hconst : ¬ sanitizeShape.Reads "const".toList := not_reads (by decide) fun _ => rfl
  have henum : ¬ sanitizeShape.Reads "enum".toList := not_reads (by decide) fun _ => rfl
  have hlower : ∀ map : JsonMap, sanitizeShape.Child (.object (lowerConst map)) w ↔
      sanitizeShape.Child (.object map) w := fun map =>
    JsonShape.child_congr fun key hreads => get?_lowerConst (fun h => hconst (h ▸ hreads))
      fun h => henum (h ▸ hreads)
  rw [lowered, hlower]
  show sanitizeShape.Child (.object (removeMalformedTable (removeMalformedTable map _) _)) w ↔ _
  rw [child_removeMalformedTable (by decide), child_removeMalformedTable (by decide)]

theorem child_writeSchemaTypes (schemaTypes : List JsonSchemaPrimitiveType) :
    sanitizeShape.Child (.object (writeSchemaTypes map schemaTypes)) w ↔
      sanitizeShape.Child (.object map) w := by
  have htype : ¬ sanitizeShape.Reads "type".toList := not_reads (by decide) fun _ => rfl
  exact JsonShape.child_congr fun key hreads =>
    get?_writeSchemaTypes (fun h => htype (h ▸ hreads)) schemaTypes

theorem child_ensureDefaultChild
    (h : sanitizeShape.Child (.object (ensureDefaultChild schemaTypes schemaType key value map)) w) :
    sanitizeShape.Child (.object map) w ∨ (sanitizeShape.table key = false ∧ w = value) ∨
      (sanitizeShape.table key = true ∧
        ∃ table name, value = .object table ∧ table.get? name = some w) := by
  unfold ensureDefaultChild at h
  split at h
  · exact JsonShape.child_insert h
  · exact .inl h

theorem child_ensureDefaultChild_of (h : sanitizeShape.Child (.object map) w) :
    sanitizeShape.Child (.object (ensureDefaultChild schemaTypes schemaType key value map)) w := by
  unfold ensureDefaultChild
  split
  · next hdefault =>
    have hnone : map.get? key = none := by simpa [containsKey] using hdefault.2
    exact JsonShape.child_insert_of hnone h
  · exact h

/-- The only child that finishing adds is the default one of `items`. -/
theorem child_finishSchema (h : sanitizeShape.Child (.object (finishSchema map)) w) :
    ¬ Cleared map ∧ sanitizeShape.Child (.object map) w ∨ w = typeString := by
  rcases finishSchema_cases map with ⟨hnil, href, heq⟩ | ⟨-, heq⟩ | ⟨hcleared, -, types, -, heq⟩
  · rw [heq, child_lowered] at h
    refine .inl ⟨fun hcleared => ?_, h⟩
    have hfalse := hcleared.2.1
    rw [href] at hfalse
    cases hfalse
  · rw [heq] at h
    exact absurd h JsonShape.child_nil
  · rw [heq] at h
    rcases child_ensureDefaultChild h with h | ⟨-, rfl⟩ | ⟨htable, -⟩
    · rcases child_ensureDefaultChild h with h | ⟨htable, -⟩ | ⟨-, table, name, hvalue, hentry⟩
      · rw [child_writeSchemaTypes, child_lowered] at h
        exact .inl ⟨hcleared, h⟩
      · exact absurd htable (by decide)
      · cases hvalue
        cases hentry
    · exact .inr rfl
    · exact absurd htable (by decide)

theorem child_finishSchema_of (hcleared : ¬ Cleared map) (h : sanitizeShape.Child (.object map) w) :
    sanitizeShape.Child (.object (finishSchema map)) w := by
  rcases finishSchema_cases map with ⟨-, -, heq⟩ | ⟨hyes, -⟩ | ⟨-, -, types, -, heq⟩
  · rwa [heq, child_lowered]
  · exact absurd hyes hcleared
  · rw [heq]
    refine child_ensureDefaultChild_of (child_ensureDefaultChild_of ?_)
    rwa [child_writeSchemaTypes, child_lowered]

end Finish

/-! ## All positions -/

section Positions

variable {map : JsonMap} {v w : JsonValue} {depth : ℕ}

/-- A position that is still there when the value is sanitized: no object around it is cleared. -/
def SurvivingChild (v w : JsonValue) : Prop :=
  sanitizeShape.Child v w ∧ ∀ map, v = .object map → ¬ Cleared map

def Survives : JsonValue → JsonValue → Prop := Relation.ReflTransGen SurvivingChild

theorem isBool_run (h : isBool v = false) : isBool (sanitizePass.run depth v) = false := by
  cases v with
  | null => rfl
  | scalar a =>
    cases a with
    | bool b => cases h
    | number text => rfl
    | string s => rfl
  | array items => rfl
  | object map => rfl

theorem stable_sanitizePass : sanitizePass.Stable := by
  intro depth key v h
  have hvisits : ∀ v, sanitizePass.visits key v =
      (decide (key ∈ "items".toList :: "prefixItems".toList :: compositionSchemaKeys) ||
        (key == "additionalProperties".toList && !isBool v)) := fun _ => rfl
  rw [hvisits, Bool.or_eq_true] at h ⊢
  refine h.imp_right fun hextra => ?_
  rw [Bool.and_eq_true, Bool.not_eq_true'] at hextra ⊢
  exact ⟨hextra.1, isBool_run hextra.2⟩

theorem run_object (depth : ℕ) (map : JsonMap) :
    sanitizePass.run depth (.object map) =
      .object (finishSchema (sanitizePass.runFields (depth + 1) map)) := by
  rw [JsonPass.run]
  rfl

/-- The children being done does not change whether an object is cleared. -/
theorem cleared_runFields : Cleared (sanitizePass.runFields depth map) ↔ Cleared map := by
  have hother : ∀ key, sanitizePass.table key = false → (∀ v, sanitizePass.visits key v = false) →
      (sanitizePass.runFields depth map).get? key = map.get? key := fun key htable hvisits =>
    JsonPass.get?_runFields_other htable hvisits map
  have htype := hother "type".toList (by decide) fun _ => rfl
  have hconst := hother "const".toList (by decide) fun _ => rfl
  have hkey : ∀ key, containsKey (sanitizePass.runFields depth map) key = containsKey map key := by
    intro key
    rw [containsKey, JsonPass.get?_runFields, Option.isSome_map]
    rfl
  unfold Cleared
  rw [normalizedSchemaTypes_congr htype, hintedSchemaType_congr fun key _ =>
    containsKey_lowerConst hconst (hkey key), hasRefOrComposition_congr fun key _ =>
      JsonPass.get?_runFields_eq_none]

theorem keepsMalformedType_runFields :
    KeepsMalformedType (sanitizePass.runFields depth map) ↔ KeepsMalformedType map := by
  have htype : (sanitizePass.runFields depth map).get? "type".toList = map.get? "type".toList :=
    JsonPass.get?_runFields_other (by decide) (fun _ => rfl) map
  unfold KeepsMalformedType
  rw [normalizedSchemaTypes_congr htype, htype, hasRefOrComposition_congr fun key _ =>
      JsonPass.get?_runFields_eq_none]

theorem not_child_typeString : ¬ sanitizeShape.Child typeString w := by
  have hget : ∀ key v, (JsonObject.cons "type".toList (stringValue (schemaTypeName .string))
      JsonObject.nil : JsonMap).get? key = some v → key = "type".toList := by
    intro key v hkey
    rw [JsonObject.get?_cons] at hkey
    split at hkey
    · assumption
    · cases hkey
  intro h
  cases h with
  | field hkey htable hvisits =>
    rw [hget _ _ hkey] at hvisits
    cases hvisits
  | entry hkey htable hentry =>
    rw [hget _ _ hkey] at htable
    cases htable

theorem child_run (h : sanitizeShape.Child (sanitizePass.run depth v) w) :
    (∃ u d, SurvivingChild v u ∧ w = sanitizePass.run d u) ∨ w = typeString := by
  cases v with
  | null => cases h
  | scalar a =>
    cases a with
    | bool b => exact absurd h not_child_typeString
    | number text => cases h
    | string s => cases h
  | array items =>
    rw [JsonPass.run] at h
    cases h with
    | item hmem =>
      rw [JsonPass.toList_runItems] at hmem
      obtain ⟨u, hu, rfl⟩ := mem_map.1 hmem
      exact .inl ⟨u, depth, ⟨.item hu, nofun⟩, rfl⟩
  | object map =>
    rw [run_object] at h
    rcases child_finishSchema h with ⟨hcleared, hchild⟩ | rfl
    · obtain ⟨u, hu, rfl⟩ := (JsonPass.child_runFields stable_sanitizePass).1 hchild
      refine .inl ⟨u, depth + 1, ⟨hu, ?_⟩, rfl⟩
      rintro _ ⟨⟩ hyes
      exact hcleared (cleared_runFields.2 hyes)
    · exact .inr rfl

theorem child_run_of (h : SurvivingChild v w) (depth : ℕ) :
    ∃ d, sanitizeShape.Child (sanitizePass.run depth v) (sanitizePass.run d w) := by
  obtain ⟨hchild, hcleared⟩ := h
  cases v with
  | null => cases hchild
  | scalar a => cases hchild
  | array items =>
    cases hchild with
    | item hmem =>
      refine ⟨depth, ?_⟩
      rw [JsonPass.run]
      refine .item ?_
      rw [JsonPass.toList_runItems]
      exact mem_map_of_mem hmem
  | object map =>
    refine ⟨depth + 1, ?_⟩
    rw [run_object]
    have hnot : ¬ Cleared (sanitizePass.runFields (depth + 1) map) := fun h =>
      hcleared map rfl (cleared_runFields.1 h)
    exact child_finishSchema_of hnot
      ((JsonPass.child_runFields stable_sanitizePass).2 ⟨w, hchild, rfl⟩)

/-- What there is in a sanitized value. -/
theorem at_sanitized (h : sanitizeShape.At (sanitizePass.run depth v) w) :
    (∃ u d, Survives v u ∧ w = sanitizePass.run d u) ∨ w = typeString := by
  induction h with
  | refl => exact .inl ⟨v, depth, .refl, rfl⟩
  | tail _ hchild ih =>
    rcases ih with ⟨u, d, hu, rfl⟩ | rfl
    · rcases child_run hchild with ⟨u', d', hu', rfl⟩ | rfl
      · exact .inl ⟨u', d', hu.tail hu', rfl⟩
      · exact .inr rfl
    · exact absurd hchild not_child_typeString

theorem at_sanitized_of (h : Survives v w) (depth : ℕ) :
    ∃ d, sanitizeShape.At (sanitizePass.run depth v) (sanitizePass.run d w) := by
  induction h with
  | refl => exact ⟨depth, .refl⟩
  | tail _ hchild ih =>
    obtain ⟨d, hd⟩ := ih
    obtain ⟨d', hd'⟩ := child_run_of hchild d
    exact ⟨d', hd.tail hd'⟩

theorem sane_typeString : Sane (.cons "type".toList (stringValue (schemaTypeName .string)) .nil) := by
  refine ⟨fun value hvalue => ?_, by decide, by decide, by decide⟩
  rw [JsonObject.get?_cons, if_pos rfl] at hvalue
  exact .inl ⟨.string, (Option.some_inj.1 hvalue).symm⟩

/-- **What sanitizing guarantees.** Every schema object is sane, exactly when no malformed type stands
beside a reference or a composition where it survives. -/
theorem sanitized_iff (value : JsonValue) :
    (∀ map, sanitizeShape.At (sanitizeJsonSchema value) (.object map) → Sane map) ↔
      ∀ map, Survives value (.object map) → ¬ KeepsMalformedType map := by
  constructor
  · intro h map hmap
    obtain ⟨d, hd⟩ := at_sanitized_of hmap 0
    rw [run_object] at hd
    exact fun hkeeps =>
      sane_finishSchema.1 (h _ hd) (keepsMalformedType_runFields.2 hkeeps)
  · intro h map hmap
    rcases at_sanitized hmap with ⟨u, d, hu, heq⟩ | heq
    · cases u with
      | null => cases heq
      | scalar a =>
        cases a with
        | bool b =>
          cases heq
          exact sane_typeString
        | number text => cases heq
        | string s => cases heq
      | array items =>
        rw [JsonPass.run] at heq
        cases heq
      | object map =>
        rw [run_object] at heq
        cases heq
        exact sane_finishSchema.2 fun hkeeps => h map hu (keepsMalformedType_runFields.1 hkeeps)
    · cases heq
      exact sane_typeString

end Positions

/-- A reference with an unknown type beside it. -/
def unknownTypeRef : JsonMap :=
  .cons "$ref".toList (stringValue "#/$defs/A".toList)
    (.cons "type".toList (stringValue "frobnicate".toList) .nil)

/-- The unknown type is still there. -/
theorem not_sane_unknownTypeRef : ¬ ∀ (value : JsonValue) (map : JsonMap),
    sanitizeShape.At (sanitizeJsonSchema value) (.object map) → Sane map := by
  intro h
  have hkeeps : KeepsMalformedType unknownTypeRef :=
    ⟨by decide, by decide, stringValue "frobnicate".toList, by decide, nofun⟩
  have hroot : sanitizeShape.At (sanitizeJsonSchema (.object unknownTypeRef))
      (.object (finishSchema (sanitizePass.runFields 1 unknownTypeRef))) := by
    rw [sanitizeJsonSchema, run_object]
    exact .refl
  exact sane_finishSchema.1 (h _ _ hroot) (keepsMalformedType_runFields.2 hkeeps)

end Codex.ToolSchema
