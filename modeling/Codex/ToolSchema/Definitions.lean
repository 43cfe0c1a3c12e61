import Codex.Base.Worklist
import Codex.Text.Percent
import Codex.Text.Utf8Validate
import Codex.ToolSchema.Sanitize

/-!
# Definitions of tool schemas

A sanitized schema keeps those entries of its root definition tables that it refers to,
directly or through other entries (`prune_unreachable_definitions`). A reference is looked
for outside definition tables, and everywhere inside an entry that is kept.
-/

namespace Codex.ToolSchema

open List Codex.Text

/-! ## Traversals -/

inductive DefinitionTraversal where
  | included
  | skipped
  deriving DecidableEq

def schemaChildKeys : List Str := "items".toList :: compositionSchemaKeys

/-- `for_each_schema_child`. -/
def childShape (definitionTraversal : DefinitionTraversal) : JsonShape Str Scalar where
  visits key value := key ∈ schemaChildKeys ||
    (key == "additionalProperties".toList && !isBool value)
  table key := key == "properties".toList ||
    (definitionTraversal == .included && key ∈ definitionTableKeys)

/-- Every value of an object. -/
def anyShape : JsonShape Str Scalar where
  visits _ _ := true
  table _ := false

/-! ## Local references -/

/-- An entry of a root definition table. -/
structure DefinitionPointer where
  table : Str
  name : Str
  mem_keys : table ∈ definitionTableKeys
  deriving DecidableEq

/-- Every `~` of a JSON pointer is followed by `0` or `1`. -/
def tildesEscaped : Str → Bool
  | [] => true
  | ['~'] => false
  | '~' :: c :: rest => (c == '0' || c == '1') && tildesEscaped rest
  | _ :: rest => tildesEscaped rest

/-- `Token::decoded`. -/
def decodedToken : Str → Str
  | '~' :: '0' :: rest => '~' :: decodedToken rest
  | '~' :: '1' :: rest => '/' :: decodedToken rest
  | c :: rest => c :: decodedToken rest
  | [] => []

/-- The tokens of `Pointer::parse`, still encoded. -/
def pointerTokens : Str → Option (List Str)
  | [] => some []
  | '/' :: rest => if tildesEscaped rest then some (rest.splitOn '/') else none
  | _ => none

def parseLocalDefinitionRef (schemaRef : Str) : Option DefinitionPointer := do
  let fragment ← stripPrefix schemaRef ['#']
  let pointer ← (fromUtf8 (decodeBinary (asBytes fragment))).toOption
  match ← pointerTokens pointer with
  | table :: name :: _ =>
    match h : definitionTableKeys.find? (decodedToken table = ·) with
    | some key => some ⟨key, decodedToken name, mem_of_find?_eq_some h⟩
    | none => none
  | _ => none

def refFromMap (map : JsonMap) : Option DefinitionPointer :=
  ((map.get? "$ref".toList).bind asStr).bind parseLocalDefinitionRef

def collectRefFromMap (map : JsonMap) : List DefinitionPointer := (refFromMap map).toList

def collectRefsOutsideDefinitions (value : JsonValue) : List DefinitionPointer :=
  (childShape .skipped).collect collectRefFromMap value

def collectRefs (value : JsonValue) : List DefinitionPointer :=
  anyShape.collect collectRefFromMap value

/-! ## Reachable definitions -/

/-- An entry of a table of an object. -/
def tableEntry (map : JsonMap) (table name : Str) : Option JsonValue :=
  ((map.get? table).bind Json.asObject).bind (·.get? name)

def definitionForPointer (value : JsonValue) (pointer : DefinitionPointer) : Option JsonValue :=
  value.asObject.bind fun map => tableEntry map pointer.table pointer.name

/-- The entries of the root tables. -/
def rootDefinitions (value : JsonValue) : List DefinitionPointer :=
  definitionTableKeys.attach.flatMap fun table =>
    let definitions := (value.asObject.bind (·.get? table.1)).bind Json.asObject
    (definitions.elim [] JsonObject.keys).map (⟨table.1, ·, table.2⟩)

theorem mem_rootDefinitions {value definition : JsonValue} {pointer : DefinitionPointer}
    (h : definitionForPointer value pointer = some definition) :
    pointer ∈ rootDefinitions value := by
  obtain ⟨map, hmap, hentry⟩ := Option.bind_eq_some_iff.1 h
  obtain ⟨definitions, htable, hget⟩ := Option.bind_eq_some_iff.1 hentry
  refine mem_flatMap.2 ⟨⟨pointer.table, pointer.mem_keys⟩, mem_attach _ _, ?_⟩
  dsimp only
  rw [hmap, Option.bind_some, htable]
  refine mem_map.2 ⟨pointer.name, JsonObject.mem_keys.2 ?_, rfl⟩
  rw [hget]
  exact Option.some_ne_none _

/-- The references of each definition. -/
def definitionGraph (value : JsonValue) : Successors DefinitionPointer where
  next pointer := (definitionForPointer value pointer).elim [] collectRefs
  nodes := rootDefinitions value
  mem_nodes pointer h := by
    cases hget : definitionForPointer value pointer with
    | none =>
      rw [hget] at h
      exact absurd rfl h
    | some definition => exact mem_rootDefinitions hget

def collectReachableDefinitions (value : JsonValue) : List DefinitionPointer :=
  (definitionGraph value).visit [] (collectRefsOutsideDefinitions value).reverse

/-! ## Pruning -/

def pruneSchemaTable (reachable : List DefinitionPointer) (map : JsonMap) (table : Str) : JsonMap :=
  match map.get? table with
  | some (.object definitions) =>
    let definitions := definitions.retain fun name =>
      reachable.any fun pointer => pointer.table = table ∧ pointer.name = name
    if definitions = .nil then map.remove table else map.insert table (.object definitions)
  | _ => map

def pruneUnreachableDefinitions (value : JsonValue) : JsonValue :=
  match value with
  | .object map =>
    .object (definitionTableKeys.foldl (pruneSchemaTable (collectReachableDefinitions value)) map)
  | value => value

def prepareToolInputSchema (inputSchema : JsonValue) : JsonValue :=
  pruneUnreachableDefinitions (sanitizeJsonSchema inputSchema)

/-! ## What is reachable -/

section Reachable

variable {value : JsonValue} {pointer : DefinitionPointer}

/-- A pointer that is referred to from outside the definition tables, or from where the shape looks in
an entry of the root tables that is itself referred to. -/
inductive Referenced (shape : JsonShape Str Scalar) (value : JsonValue) : DefinitionPointer → Prop where
  | outside {pointer : DefinitionPointer} {map : JsonMap}
      (hat : (childShape .skipped).At value (.object map)) (href : refFromMap map = some pointer) :
      Referenced shape value pointer
  | inside {pointer inner : DefinitionPointer} {definition : JsonValue} {map : JsonMap}
      (hinner : Referenced shape value inner)
      (hdefinition : definitionForPointer value inner = some definition)
      (hat : shape.At definition (.object map)) (href : refFromMap map = some pointer) :
      Referenced shape value pointer

theorem mem_collectRefFromMap {map : JsonMap} :
    pointer ∈ collectRefFromMap map ↔ refFromMap map = some pointer := Option.mem_toList

theorem mem_next {inner : DefinitionPointer} :
    pointer ∈ (definitionGraph value).next inner ↔
      ∃ definition, definitionForPointer value inner = some definition ∧
        pointer ∈ collectRefs definition := by
  show pointer ∈ (definitionForPointer value inner).elim [] collectRefs ↔ _
  cases definitionForPointer value inner with
  | none => simp
  | some definition => simp

theorem mem_collectReachableDefinitions :
    pointer ∈ collectReachableDefinitions value ↔
      ∃ start ∈ collectRefsOutsideDefinitions value,
        (definitionGraph value).Reaches start pointer := by
  unfold collectReachableDefinitions
  rw [Successors.mem_visit_iff]
  simp only [mem_reverse]

/-- Every pointer that is referred to is collected, -/
theorem mem_collect_of_referenced (h : Referenced anyShape value pointer) :
    pointer ∈ collectReachableDefinitions value := by
  rw [mem_collectReachableDefinitions]
  induction h with
  | @outside pointer map hat href =>
    exact ⟨pointer, JsonShape.mem_collect_of_at hat (mem_collectRefFromMap.2 href), .refl⟩
  | inside _ hdefinition hat href ih =>
    obtain ⟨start, hstart, hreach⟩ := ih
    have hmem := JsonShape.mem_collect_of_at hat (mem_collectRefFromMap.2 href)
    exact ⟨start, hstart, hreach.tail (mem_next.2 ⟨_, hdefinition, hmem⟩)⟩

theorem canonical_definition (h : value.Canonical) {definition : JsonValue}
    (hdefinition : definitionForPointer value pointer = some definition) :
    definition.Canonical := by
  obtain ⟨map, hmap, hentry⟩ := Option.bind_eq_some_iff.1 hdefinition
  obtain ⟨definitions, htable, hget⟩ := Option.bind_eq_some_iff.1 hentry
  obtain ⟨table, hget', hobject⟩ := Option.bind_eq_some_iff.1 htable
  cases value with
  | object fields =>
    cases hmap
    have hcanonical := JsonObject.Canonical.get h hget'
    cases table with
    | object entries =>
      cases hobject
      exact JsonObject.Canonical.get hcanonical hget
    | null | scalar a | array items => cases hobject
  | null | scalar a | array items => cases hmap

/-- and no other. -/
theorem referenced_of_mem_collect (hcanonical : value.Canonical)
    (h : pointer ∈ collectReachableDefinitions value) : Referenced anyShape value pointer := by
  rw [mem_collectReachableDefinitions] at h
  obtain ⟨start, hstart, hreach⟩ := h
  induction hreach with
  | refl =>
    obtain ⟨map, hat, hmem⟩ := JsonShape.exists_at_of_mem_collect hcanonical hstart
    exact .outside hat (mem_collectRefFromMap.1 hmem)
  | tail _ hnext ih =>
    obtain ⟨definition, hdefinition, hmem⟩ := mem_next.1 hnext
    obtain ⟨map, hat, hmem⟩ := JsonShape.exists_at_of_mem_collect
      (canonical_definition hcanonical hdefinition) hmem
    exact .inside ih hdefinition hat (mem_collectRefFromMap.1 hmem)

end Reachable

/-! ## What pruning keeps -/

section Prune

variable {value : JsonValue} {map : JsonMap} {reachable : List DefinitionPointer}

theorem get?_pruneSchemaTable {key table : Str} (h : key ≠ table) :
    (pruneSchemaTable reachable map table).get? key = map.get? key := by
  unfold pruneSchemaTable
  split
  · dsimp only
    split
    · rw [JsonObject.get?_remove, if_neg h]
    · rw [JsonObject.get?_insert, if_neg h]
  · rfl

/-- A schema without root tables is left alone. -/
theorem prune_of_get?_none (h : ∀ table ∈ definitionTableKeys, map.get? table = none) :
    pruneUnreachableDefinitions (.object map) = .object map := by
  have hkeep : ∀ reachable, ∀ table ∈ definitionTableKeys,
      pruneSchemaTable reachable map table = map := by
    intro reachable table hmem
    unfold pruneSchemaTable
    rw [h table hmem]
  show Json.object (pruneSchemaTable _ (pruneSchemaTable _ map "$defs".toList)
    "definitions".toList) = _
  rw [hkeep _ _ mem_cons_self, hkeep _ _ (mem_cons_of_mem _ mem_cons_self)]

theorem tableEntry_pruneSchemaTable (pointer : DefinitionPointer) :
    tableEntry (pruneSchemaTable reachable map pointer.table) pointer.table pointer.name =
      if pointer ∈ reachable then tableEntry map pointer.table pointer.name else none := by
  have hmem : (reachable.any fun other =>
      other.table = pointer.table ∧ other.name = pointer.name) = decide (pointer ∈ reachable) := by
    rw [Bool.eq_iff_iff, any_eq_true, decide_eq_true_iff]
    constructor
    · rintro ⟨other, hother, heq⟩
      rw [decide_eq_true_iff] at heq
      have hsame : other = pointer := by
        cases other
        cases pointer
        obtain ⟨rfl, rfl⟩ := heq
        rfl
      exact hsame ▸ hother
    · intro h
      exact ⟨pointer, h, decide_eq_true ⟨rfl, rfl⟩⟩
  unfold pruneSchemaTable
  split
  · next definitions hget =>
    have hentry : tableEntry map pointer.table pointer.name = definitions.get? pointer.name := by
      rw [tableEntry, hget]
      rfl
    have hkept := JsonObject.get?_retain (fun name => reachable.any fun other =>
      other.table = pointer.table ∧ other.name = name) definitions pointer.name
    rw [hmem, ← hentry] at hkept
    simp only [decide_eq_true_eq] at hkept
    dsimp only
    split
    · next hnil =>
      rw [hnil] at hkept
      rw [← hkept, tableEntry, JsonObject.get?_remove, if_pos rfl]
      rfl
    · rw [tableEntry, JsonObject.get?_insert, if_pos rfl]
      exact hkept
  · next hno =>
    have hnone : tableEntry map pointer.table pointer.name = none := by
      unfold tableEntry
      cases hget : map.get? pointer.table with
      | none => rfl
      | some v =>
        cases v with
        | object definitions => exact absurd hget (hno definitions)
        | null => rfl
        | scalar a => rfl
        | array items => rfl
    rw [hnone, ite_self]

theorem tableEntry_pruneSchemaTable_ne {table table' name : Str} (h : table' ≠ table) :
    tableEntry (pruneSchemaTable reachable map table) table' name = tableEntry map table' name := by
  unfold tableEntry
  rw [get?_pruneSchemaTable h]

/-- **What pruning leaves of the root tables**: the entries that are reachable. -/
theorem definitionForPointer_prune (value : JsonValue) (pointer : DefinitionPointer) :
    definitionForPointer (pruneUnreachableDefinitions value) pointer =
      if pointer ∈ collectReachableDefinitions value then definitionForPointer value pointer
      else none := by
  cases value with
  | object map =>
    show tableEntry (pruneSchemaTable _ (pruneSchemaTable _ map "$defs".toList)
      "definitions".toList) pointer.table pointer.name = _
    have hkeys : pointer.table = "$defs".toList ∨ pointer.table = "definitions".toList := by
      have hmem := pointer.mem_keys
      unfold definitionTableKeys at hmem
      rwa [mem_pair] at hmem
    rcases hkeys with htable | htable
    · have hne : pointer.table ≠ "definitions".toList := by
        rw [htable]
        decide
      rw [tableEntry_pruneSchemaTable_ne hne, ← htable, tableEntry_pruneSchemaTable]
      rfl
    · have hne : pointer.table ≠ "$defs".toList := by
        rw [htable]
        decide
      rw [← htable, tableEntry_pruneSchemaTable, tableEntry_pruneSchemaTable_ne hne]
      rfl
  | null | scalar a | array items => exact (ite_self none).symm

/-- Pruning touches only the root tables. -/
theorem get?_prune {key : Str} (h : key ∉ definitionTableKeys) :
    (definitionTableKeys.foldl (pruneSchemaTable reachable) map).get? key = map.get? key := by
  unfold definitionTableKeys at h
  rw [mem_pair, not_or] at h
  show (pruneSchemaTable _ (pruneSchemaTable _ map _) _).get? key = _
  rw [get?_pruneSchemaTable h.2, get?_pruneSchemaTable h.1]

theorem childShape_skipped_reads {key : Str} (h : (childShape .skipped).Reads key) :
    key ∉ definitionTableKeys := by
  have hkeys : ∀ key ∈ definitionTableKeys, (childShape .skipped).table key = false ∧
      key ∉ schemaChildKeys ∧ key ≠ "additionalProperties".toList := by decide
  intro hmem
  obtain ⟨htable, hchild, hextra⟩ := hkeys key hmem
  rcases h with h | ⟨v, h⟩
  · rw [htable] at h
    cases h
  · change (decide _ || _) = true at h
    rw [decide_eq_false hchild, Bool.false_or, Bool.and_eq_true] at h
    exact hextra (beq_iff_eq.1 h.1)

theorem child_prune {w : JsonValue} :
    (childShape .skipped).Child (pruneUnreachableDefinitions value) w ↔
      (childShape .skipped).Child value w := by
  cases value with
  | object map =>
    refine JsonShape.child_congr fun key hreads => ?_
    exact get?_prune (childShape_skipped_reads hreads)
  | null => rfl
  | scalar a => rfl
  | array items => rfl

theorem refFromMap_congr {map map' : JsonMap} (h : map.get? "$ref".toList = map'.get? "$ref".toList) :
    refFromMap map = refFromMap map' := by
  unfold refFromMap
  rw [h]

/-- Outside definition tables there are the same references as before. -/
theorem outside_prune {pointer : DefinitionPointer} :
    (∃ map, (childShape .skipped).At (pruneUnreachableDefinitions value) (.object map) ∧
      refFromMap map = some pointer) ↔
    ∃ map, (childShape .skipped).At value (.object map) ∧ refFromMap map = some pointer := by
  have href : ∀ map : JsonMap, refFromMap (definitionTableKeys.foldl
      (pruneSchemaTable (collectReachableDefinitions (.object map))) map) = refFromMap map :=
    fun map => refFromMap_congr (get?_prune (by decide))
  constructor
  · rintro ⟨map, hat, hmap⟩
    rcases JsonShape.at_congr (fun w => child_prune.1) hat with heq | hat
    · cases value with
      | object fields =>
        cases heq
        exact ⟨fields, .refl, (href fields).symm.trans hmap⟩
      | null | scalar a | array items => cases heq
    · exact ⟨map, hat, hmap⟩
  · rintro ⟨map, hat, hmap⟩
    rcases JsonShape.at_congr (fun w => child_prune.2) hat with heq | hat
    · subst heq
      exact ⟨_, .refl, (href map).trans hmap⟩
    · exact ⟨map, hat, hmap⟩

end Prune

/-! ## References after pruning -/

section References

variable {value : JsonValue} {pointer : DefinitionPointer}

/-- A reference outside the definition tables, or anywhere inside an entry of the root tables. -/
inductive RefersTo (value : JsonValue) (pointer : DefinitionPointer) : Prop where
  | outside {map : JsonMap} (hat : (childShape .skipped).At value (.object map))
      (href : refFromMap map = some pointer)
  | inside {inner : DefinitionPointer} {definition : JsonValue} {map : JsonMap}
      (hdefinition : definitionForPointer value inner = some definition)
      (hat : anyShape.At definition (.object map)) (href : refFromMap map = some pointer)

theorem not_refersTo_nil : ¬ RefersTo (.object .nil) pointer := by
  intro h
  cases h with
  | outside hat href =>
    rcases Relation.ReflTransGen.cases_head hat with heq | ⟨w, hchild, -⟩
    · cases heq
      cases href
    · exact JsonShape.child_nil hchild
  | inside hdefinition _ _ => cases hdefinition

/-- What is referred to after pruning is what it was before. -/
theorem definitionForPointer_of_refersTo (h : RefersTo (pruneUnreachableDefinitions value) pointer) :
    definitionForPointer (pruneUnreachableDefinitions value) pointer =
      definitionForPointer value pointer := by
  suffices hmem : pointer ∈ collectReachableDefinitions value by
    rw [definitionForPointer_prune, if_pos hmem]
  cases h with
  | outside hat href =>
    obtain ⟨map, hat, href⟩ := outside_prune.1 ⟨_, hat, href⟩
    exact mem_collect_of_referenced (.outside hat href)
  | @inside inner definition map hdefinition hat href =>
    rw [definitionForPointer_prune] at hdefinition
    split at hdefinition
    · next hinner =>
      rw [mem_collectReachableDefinitions] at hinner ⊢
      obtain ⟨start, hstart, hreach⟩ := hinner
      have hmem := JsonShape.mem_collect_of_at hat (mem_collectRefFromMap.2 href)
      exact ⟨start, hstart, hreach.tail (mem_next.2 ⟨definition, hdefinition, hmem⟩)⟩
    · cases hdefinition

/-- **Pruning leaves no entry that is not referred to.** -/
theorem referenced_of_pruned (hcanonical : value.Canonical)
    (h : definitionForPointer (pruneUnreachableDefinitions value) pointer ≠ none) :
    Referenced anyShape (pruneUnreachableDefinitions value) pointer := by
  have hmem : pointer ∈ collectReachableDefinitions value := by
    by_contra hno
    rw [definitionForPointer_prune, if_neg hno] at h
    exact h rfl
  have href := referenced_of_mem_collect hcanonical hmem
  clear h hmem
  induction href with
  | outside hat href =>
    obtain ⟨map, hat, href⟩ := outside_prune.2 ⟨_, hat, href⟩
    exact .outside hat href
  | inside hinner hdefinition hat href ih =>
    refine .inside ih ?_ hat href
    rwa [definitionForPointer_prune, if_pos (mem_collect_of_referenced hinner)]

/-! ### Sanitizing -/

theorem canonical_ofList {values : List JsonValue} (h : ∀ value ∈ values, value.Canonical) :
    (ofList values).Canonical := by
  induction values with
  | nil => trivial
  | cons value rest ih =>
    rw [forall_mem_cons] at h
    exact ⟨h.1, ih h.2⟩

theorem canonical_ensureDefaultChild {schemaTypes : List JsonSchemaPrimitiveType}
    {schemaType : JsonSchemaPrimitiveType} {key : Str} {map : JsonMap} (hvalue : value.Canonical)
    (hmap : map.Canonical) :
    (ensureDefaultChild schemaTypes schemaType key value map).Canonical := by
  unfold ensureDefaultChild
  split
  · exact hmap.insert hvalue
  · exact hmap

theorem canonical_typeString : typeString.Canonical :=
  ⟨fun _ hne => absurd rfl hne, trivial, trivial⟩

theorem canonical_removeMalformedTable {map : JsonMap} (h : map.Canonical) (table : Str) :
    (removeMalformedTable map table).Canonical := by
  unfold removeMalformedTable
  split
  · exact h
  · exact h.remove
  · exact h

theorem canonical_lowered {map : JsonMap} (h : map.Canonical) : (lowered map).Canonical := by
  have htables : (definitionTableKeys.foldl removeMalformedTable map).Canonical :=
    canonical_removeMalformedTable (canonical_removeMalformedTable h _) _
  unfold lowered lowerConst
  split
  · next const hconst =>
    refine htables.remove.insert (canonical_ofList fun v hv => ?_)
    rw [mem_singleton] at hv
    exact hv ▸ htables.get hconst
  · exact htables

theorem canonical_writeSchemaTypes {map : JsonMap} (h : map.Canonical)
    (schemaTypes : List JsonSchemaPrimitiveType) : (writeSchemaTypes map schemaTypes).Canonical := by
  unfold writeSchemaTypes
  split
  · exact h.remove
  · exact h.insert trivial
  · refine h.insert (canonical_ofList fun v hv => ?_)
    obtain ⟨schemaType, -, rfl⟩ := mem_map.1 hv
    exact trivial

theorem canonical_finishSchema {map : JsonMap} (h : map.Canonical) :
    (finishSchema map).Canonical := by
  rcases finishSchema_cases map with ⟨-, -, heq⟩ | ⟨-, heq⟩ | ⟨-, -, schemaTypes, -, heq⟩
  · rw [heq]
    exact canonical_lowered h
  · rw [heq]
    exact trivial
  · rw [heq]
    exact canonical_ensureDefaultChild canonical_typeString (canonical_ensureDefaultChild trivial
      (canonical_writeSchemaTypes (canonical_lowered h) schemaTypes))

theorem canonical_sanitizeJsonSchema (h : value.Canonical) :
    (sanitizeJsonSchema value).Canonical := by
  have hpass : sanitizePass.KeepsCanonical := by
    refine ⟨fun fields => canonical_finishSchema, fun a => ?_⟩
    cases a with
    | bool b => exact canonical_typeString
    | number text => exact trivial
    | string s => exact trivial
  exact hpass.run value 0 h

theorem get?_lowered_table {map definitions : JsonMap}
    (hget : map.get? pointer.table = some (.object definitions)) :
    (lowered map).get? pointer.table = some (.object definitions) := by
  have hkeys : ∀ key ∈ definitionTableKeys, key ≠ "const".toList ∧ key ≠ "enum".toList := by decide
  have hkeep : ∀ (table : Str) (map : JsonMap),
      map.get? pointer.table = some (.object definitions) →
      (removeMalformedTable map table).get? pointer.table = some (.object definitions) := by
    intro table map hget
    by_cases hkey : pointer.table = table
    · unfold removeMalformedTable
      rw [← hkey, hget]
      exact hget
    · rwa [get?_removeMalformedTable hkey]
  unfold lowered
  rw [get?_lowerConst (hkeys _ pointer.mem_keys).1 (hkeys _ pointer.mem_keys).2]
  exact hkeep _ _ (hkeep _ _ hget)

/-- Sanitizing keeps the entries of the root tables, unless it clears the root. -/
theorem definitionForPointer_sanitize (h : definitionForPointer value pointer ≠ none) :
    sanitizeJsonSchema value = .object .nil ∨
      definitionForPointer (sanitizeJsonSchema value) pointer ≠ none := by
  obtain ⟨definition, hdefinition⟩ := Option.ne_none_iff_exists'.1 h
  obtain ⟨map, hmap, hentry⟩ := Option.bind_eq_some_iff.1 hdefinition
  obtain ⟨definitions, htable, hget⟩ := Option.bind_eq_some_iff.1 hentry
  obtain ⟨table, hget', hobject⟩ := Option.bind_eq_some_iff.1 htable
  have hvalue : value = .object map := by
    cases value <;> cases hmap
    rfl
  have htable' : table = .object definitions := by
    cases table <;> cases hobject
    rfl
  subst hvalue htable'
  have hrun : (sanitizePass.runFields 1 map).get? pointer.table =
      some (.object (sanitizePass.runTable 1 definitions)) := by
    rw [JsonPass.get?_runFields, hget', Option.map_some]
    have hyes : sanitizePass.table pointer.table = true := by
      have hall : ∀ key ∈ definitionTableKeys, sanitizePass.table key = true := by decide
      exact hall _ pointer.mem_keys
    exact congrArg some (if_pos hyes)
  have hkept : (lowered (sanitizePass.runFields 1 map)).get? pointer.table =
      some (.object (sanitizePass.runTable 1 definitions)) :=
    get?_lowered_table hrun
  have hsome : (sanitizePass.runTable 1 definitions).get? pointer.name ≠ none := by
    rw [JsonPass.get?_runTable, hget]
    exact Option.some_ne_none _
  have hkeys : ∀ key ∈ definitionTableKeys, key ≠ "type".toList ∧ key ≠ "properties".toList ∧
      key ≠ "items".toList := by decide
  obtain ⟨htype, hproperties, hitems⟩ := hkeys _ pointer.mem_keys
  unfold sanitizeJsonSchema
  rw [run_object]
  rcases finishSchema_cases (sanitizePass.runFields 1 map) with
    ⟨-, -, heq⟩ | ⟨-, heq⟩ | ⟨-, -, schemaTypes, -, heq⟩
  · refine .inr ?_
    rw [heq]
    show tableEntry _ _ _ ≠ none
    rw [tableEntry, hkept]
    exact hsome
  · exact .inl (by rw [heq])
  · refine .inr ?_
    rw [heq]
    show tableEntry _ _ _ ≠ none
    rw [tableEntry, get?_ensureDefaultChildren hproperties hitems, get?_writeSchemaTypes htype, hkept]
    exact hsome

/-- **Prepared schemas have no reference that comes to dangle.** -/
theorem resolves_prepared (href : RefersTo (prepareToolInputSchema value) pointer)
    (h : definitionForPointer value pointer ≠ none) :
    definitionForPointer (prepareToolInputSchema value) pointer ≠ none := by
  unfold prepareToolInputSchema at href ⊢
  rcases definitionForPointer_sanitize h with hnil | hsome
  · rw [hnil] at href
    exact absurd href not_refersTo_nil
  · rwa [definitionForPointer_of_refersTo href]

end References

end Codex.ToolSchema
