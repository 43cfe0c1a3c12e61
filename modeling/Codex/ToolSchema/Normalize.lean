import Codex.Text.Json
import Codex.Text.Utf
import Codex.ToolSchema.Sanitize

/-!
# Reading tool schemas

A `JsonSchema` is represented by the JSON that serde writes for it. `read` gives that JSON
for the value a schema is read from: unknown fields are dropped, and so are null ones. The
length of what is written is the measure that compaction goes by, and taking fields out of
a value does not make it larger (`compactNormalizedSchemaLen_le`).
-/

namespace Codex.ToolSchema

open Codex.Text

/-! ## Model -/

/-- The types of the fields of `JsonSchema`, and of what is inside them. -/
inductive FieldKind where
  | string
  | bool
  | typeName
  | type
  | values
  | schema
  | boolOrSchema
  | table
  | list (kind : FieldKind)
  deriving DecidableEq

/-- The fields of `JsonSchema`, in their order. -/
def schemaFields : List (Str × FieldKind) :=
  [("$ref".toList, .string), ("type".toList, .type), ("description".toList, .string),
    ("encrypted".toList, .bool), ("enum".toList, .values), ("items".toList, .schema),
    ("properties".toList, .table), ("required".toList, .list .string),
    ("additionalProperties".toList, .boolOrSchema), ("anyOf".toList, .list .schema),
    ("oneOf".toList, .list .schema), ("allOf".toList, .list .schema), ("$defs".toList, .table),
    ("definitions".toList, .table)]

def fieldKind (key : Str) : Option FieldKind := schemaFields.lookup key

def readTypeName (name : Str) : Option JsonValue :=
  (schemaTypeFromStr name).map fun schemaType => stringValue (schemaTypeName schemaType)

def readScalar : FieldKind → Scalar → Option JsonValue
  | .string, .string s => some (stringValue s)
  | .bool, .bool b | .boolOrSchema, .bool b => some (.scalar (.bool b))
  | .typeName, .string s | .type, .string s => readTypeName s
  | _, _ => none

/-- A variant without data is also read from an object with one null field. -/
def readVariant : JsonMap → Option JsonValue
  | .cons name .null .nil => readTypeName name
  | _ => none

section Read

variable (sequences : Bool)

mutual

/-- What serde reads for a field. A struct is also read from an array that has one element for each
field, unless `sequences` is off. -/
def read (kind : FieldKind) : JsonValue → Option JsonValue
  | .null => none
  | .scalar a => readScalar kind a
  | .array items =>
    match kind with
    | .schema | .boolOrSchema =>
      if sequences then (readSeq schemaFields items).map .object else none
    | .type => (readEach .typeName items).map .array
    | .list kind => (readEach kind items).map .array
    | .values => some (.array items)
    | _ => none
  | .object map =>
    match kind with
    | .schema | .boolOrSchema => (readFields map).map .object
    | .table => (readTable map).map .object
    | .typeName | .type => readVariant map
    | _ => none

def readFields : JsonMap → Option JsonMap
  | .nil => some .nil
  | .cons key value rest =>
    match fieldKind key, value.isNull with
    | some kind, false =>
      (read kind value).bind fun value => (readFields rest).map (.cons key value)
    | _, _ => readFields rest

def readSeq : List (Str × FieldKind) → JsonArray Str Scalar → Option JsonMap
  | [], .nil => some .nil
  | (key, kind) :: fields, .cons value rest =>
    if value.isNull then readSeq fields rest
    else (read kind value).bind fun value => (readSeq fields rest).map (.cons key value)
  | _, _ => none

def readEach (kind : FieldKind) : JsonArray Str Scalar → Option (JsonArray Str Scalar)
  | .nil => some .nil
  | .cons value rest =>
    (read kind value).bind fun value => (readEach kind rest).map (.cons value)

def readTable : JsonMap → Option JsonMap
  | .nil => some .nil
  | .cons name value rest =>
    (read .schema value).bind fun value => (readTable rest).map (.cons name value)

end

end Read

mutual

/-- The length of the JSON that `serde_json::to_vec` writes. -/
def serializedLen : JsonValue → ℕ
  | .null => 4
  | .scalar (.bool b) => if b then 4 else 5
  | .scalar (.number text) => utf8Len text
  | .scalar (.string s) => utf8Len (jsonString s)
  | .array items => 1 + max 1 (itemsLen items)
  | .object map => 1 + max 1 (fieldsLen map)

/-- Every element with the comma or bracket after it. -/
def itemsLen : JsonArray Str Scalar → ℕ
  | .nil => 0
  | .cons value rest => serializedLen value + 1 + itemsLen rest

def fieldsLen : JsonMap → ℕ
  | .nil => 0
  | .cons key value rest => utf8Len (jsonString key) + 1 + serializedLen value + 1 + fieldsLen rest

end

def compactNormalizedSchemaLen (value : JsonValue) : ℕ :=
  (read true .schema value).elim 0 serializedLen

/-! ## Recognised types are read -/

theorem readTypeName_name (schemaType : JsonSchemaPrimitiveType) :
    readTypeName (schemaTypeName schemaType) = some (stringValue (schemaTypeName schemaType)) := by
  rw [readTypeName, schemaTypeFromStr_name, Option.map_some]

theorem readEach_names (sequences : Bool) (schemaTypes : List JsonSchemaPrimitiveType) :
    readEach sequences .typeName (ofList (schemaTypes.map (stringValue ∘ schemaTypeName))) =
      some (ofList (schemaTypes.map (stringValue ∘ schemaTypeName))) := by
  induction schemaTypes with
  | nil => rfl
  | cons schemaType rest ih =>
    have hname : read sequences .typeName (stringValue (schemaTypeName schemaType)) =
        some (stringValue (schemaTypeName schemaType)) := readTypeName_name schemaType
    rw [List.map_cons, ofList, readEach, Function.comp_apply, hname, Option.bind_some, ih,
      Option.map_some]

/-- The type of a sane object does not make the reading fail, and is read as it stands. -/
theorem Sane.read_type {map : JsonMap} {value : JsonValue} (h : Sane map) (sequences : Bool)
    (htype : map.get? "type".toList = some value) : read sequences .type value = some value := by
  rcases h.type value htype with ⟨schemaType, rfl⟩ | ⟨schemaTypes, rfl⟩
  · exact readTypeName_name schemaType
  · have heach := readEach_names sequences schemaTypes
    unfold Function.comp at heach
    rw [read, heach, Option.map_some]

/-! ## Less is written for less -/

mutual

theorem serializedLen_le : ∀ {v v' : JsonValue}, v'.Trims v → serializedLen v' ≤ serializedLen v
  | .null, _, h => by
    cases h
    exact le_refl _
  | .scalar _, _, h => by
    cases h
    exact le_refl _
  | .array items, _, h => by
    obtain ⟨items', rfl, h⟩ := h
    have hlen := itemsLen_le h
    unfold serializedLen
    omega
  | .object map, _, h => by
    obtain ⟨map', rfl, h⟩ := h
    have hlen := fieldsLen_le h
    unfold serializedLen
    omega

theorem itemsLen_le :
    ∀ {items items' : JsonArray Str Scalar}, items'.Trims items → itemsLen items' ≤ itemsLen items
  | .nil, _, h => by
    cases h
    exact le_refl _
  | .cons v rest, _, h => by
    obtain ⟨v', rest', rfl, hv, hrest⟩ := h
    have hvalue := serializedLen_le hv
    have hlen := itemsLen_le hrest
    unfold itemsLen
    omega

theorem fieldsLen_le : ∀ {map map' : JsonMap}, map'.Trims map → fieldsLen map' ≤ fieldsLen map
  | .nil, _, h => by
    cases h
    exact le_refl _
  | .cons k v rest, _, h => by
    rcases h with ⟨v', rest', rfl, hv, hrest⟩ | ⟨-, hrest⟩
    · have hvalue := serializedLen_le hv
      have hlen := fieldsLen_le hrest
      unfold fieldsLen
      omega
    · have hlen := fieldsLen_le hrest
      rw [fieldsLen]
      omega

end

/-! ## Less is read from less -/

section Trims

variable {sequences : Bool}

theorem isNull_of_trims {v v' : JsonValue} (h : v'.Trims v) : v'.isNull = v.isNull := by
  cases v with
  | null => rw [show v' = .null from h]
  | scalar a => rw [show v' = .scalar a from h]
  | array items =>
    obtain ⟨items', rfl, -⟩ := h
    rfl
  | object map =>
    obtain ⟨map', rfl, -⟩ := h
    rfl

/-- A field is read, or there is nothing to read from it. -/
theorem readFields_cons {key : Str} {value : JsonValue} {rest result : JsonMap}
    (h : readFields sequences (.cons key value rest) = some result) :
    (∃ kind v r, fieldKind key = some kind ∧ value.isNull = false ∧
      read sequences kind value = some v ∧ readFields sequences rest = some r ∧
      result = .cons key v r) ∨
    ((fieldKind key = none ∨ value.isNull = true) ∧ readFields sequences rest = some result) := by
  rw [readFields] at h
  split at h
  · next kind hkind hnull =>
    obtain ⟨v, hv, h⟩ := Option.bind_eq_some_iff.1 h
    obtain ⟨r, hr, rfl⟩ := Option.map_eq_some_iff.1 h
    exact .inl ⟨kind, v, r, hkind, hnull, hv, hr, rfl⟩
  · next hno =>
    refine .inr ⟨?_, h⟩
    cases hkind : fieldKind key with
    | none => exact .inl rfl
    | some kind =>
      refine .inr ?_
      by_contra hnull
      exact hno kind hkind (Bool.eq_false_iff.2 hnull)

theorem get?_readFields_none {map result : JsonObject Str Scalar} {key : Str}
    (h : readFields sequences map = some result) (hnone : map.get? key = none) :
    result.get? key = none := by
  induction map generalizing result with
  | nil =>
    cases h
    rfl
  | cons k value rest ih =>
    rw [JsonObject.get?_cons] at hnone
    split at hnone
    · cases hnone
    · next hkey =>
      rcases readFields_cons h with ⟨-, v, r, -, -, -, hr, rfl⟩ | ⟨-, hr⟩
      · rw [JsonObject.get?_cons, if_neg hkey]
        exact ih hr hnone
      · exact ih hr hnone

theorem get?_readTable_none {table result : JsonObject Str Scalar} {name : Str}
    (h : readTable sequences table = some result) (hnone : table.get? name = none) :
    result.get? name = none := by
  induction table generalizing result with
  | nil =>
    cases h
    rfl
  | cons k value rest ih =>
    rw [readTable] at h
    obtain ⟨v, -, h⟩ := Option.bind_eq_some_iff.1 h
    obtain ⟨r, hr, rfl⟩ := Option.map_eq_some_iff.1 h
    rw [JsonObject.get?_cons] at hnone ⊢
    split at hnone
    · cases hnone
    · next hkey =>
      rw [if_neg hkey]
      exact ih hr hnone

theorem readVariant_trims {map map' : JsonMap} {s s' : JsonValue} (h : map'.Trims map)
    (hread' : readVariant map' = some s') (hread : readVariant map = some s) : s' = s := by
  unfold readVariant at hread
  split at hread
  · next name =>
    rcases h with ⟨v', rest', rfl, hv, hrest⟩ | ⟨-, hrest⟩
    · cases hv
      cases hrest
      exact Option.some_inj.1 (hread'.symm.trans hread)
    · cases hrest
      cases hread'
  · cases hread

mutual

/-- **What is read from a trimmed value** is what is read from the value, trimmed. -/
theorem read_trims : ∀ {v v' s s' : JsonValue} {kind : FieldKind}, v'.Trims v →
    read sequences kind v' = some s' → read sequences kind v = some s → s'.Trims s
  | .null, _, _, _, _, _, _, hread => nomatch hread
  | .scalar a, _, _, _, _, h, hread', hread => by
    cases h
    rw [Option.some_inj.1 (hread'.symm.trans hread)]
    exact Json.trims_refl _
  | .array items, _, _, _, kind, h, hread', hread => by
    obtain ⟨items', rfl, h⟩ := h
    cases kind with
    | schema | boolOrSchema =>
      rw [read] at hread hread'
      split at hread
      · next hsequences =>
        rw [if_pos hsequences] at hread'
        obtain ⟨m, hm, rfl⟩ := Option.map_eq_some_iff.1 hread
        obtain ⟨m', hm', rfl⟩ := Option.map_eq_some_iff.1 hread'
        exact ⟨m', rfl, readSeq_trims h hm' hm⟩
      · cases hread
    | type | list kind =>
      rw [read] at hread hread'
      obtain ⟨m, hm, rfl⟩ := Option.map_eq_some_iff.1 hread
      obtain ⟨m', hm', rfl⟩ := Option.map_eq_some_iff.1 hread'
      exact ⟨m', rfl, readEach_trims h hm' hm⟩
    | values =>
      cases hread
      cases hread'
      exact ⟨items', rfl, h⟩
    | string | bool | typeName | table => cases hread
  | .object map, _, _, _, kind, h, hread', hread => by
    obtain ⟨map', rfl, h⟩ := h
    cases kind with
    | schema | boolOrSchema =>
      rw [read] at hread hread'
      obtain ⟨m, hm, rfl⟩ := Option.map_eq_some_iff.1 hread
      obtain ⟨m', hm', rfl⟩ := Option.map_eq_some_iff.1 hread'
      exact ⟨m', rfl, readFields_trims h hm' hm⟩
    | table =>
      rw [read] at hread hread'
      obtain ⟨m, hm, rfl⟩ := Option.map_eq_some_iff.1 hread
      obtain ⟨m', hm', rfl⟩ := Option.map_eq_some_iff.1 hread'
      exact ⟨m', rfl, readTable_trims h hm' hm⟩
    | typeName | type =>
      rw [read] at hread hread'
      rw [readVariant_trims h hread' hread]
      exact Json.trims_refl _
    | string | bool | values | list kind => cases hread
termination_by structural v => v

theorem readFields_trims : ∀ {map map' m m' : JsonMap}, map'.Trims map →
    readFields sequences map' = some m' → readFields sequences map = some m → m'.Trims m
  | .nil, _, _, _, h, hread', hread => by
    cases h
    cases hread
    cases hread'
    rfl
  | .cons k v rest, _, _, _, h, hread', hread => by
    rcases h with ⟨v', rest', rfl, hv, hrest⟩ | ⟨hnone, hrest⟩
    · have hnull := isNull_of_trims hv
      rcases readFields_cons hread with ⟨kind, s, r, hkind, hsome, hs, hr, rfl⟩ | ⟨hskip, hr⟩
      · rcases readFields_cons hread' with ⟨kind', s', r', hkind', -, hs', hr', rfl⟩ | ⟨hskip', -⟩
        · have hsame : kind' = kind := Option.some_inj.1 (hkind'.symm.trans hkind)
          rw [hsame] at hs'
          exact .inl ⟨s', r', rfl, read_trims hv hs' hs, readFields_trims hrest hr' hr⟩
        · rw [hkind, hnull, hsome] at hskip'
          rcases hskip' with hskip' | hskip' <;> cases hskip'
      · rcases readFields_cons hread' with ⟨kind', s', r', hkind', hsome', -⟩ | ⟨-, hr'⟩
        · rw [hkind', ← hnull, hsome'] at hskip
          rcases hskip with hskip | hskip <;> cases hskip
        · exact readFields_trims hrest hr' hr
    · rcases readFields_cons hread with ⟨-, s, r, -, -, -, hr, rfl⟩ | ⟨-, hr⟩
      · exact .inr ⟨get?_readFields_none hread' hnone, readFields_trims hrest hread' hr⟩
      · exact readFields_trims hrest hread' hr
termination_by structural map => map

theorem readSeq_trims : ∀ {items items' : JsonArray Str Scalar} {fields : List (Str × FieldKind)}
    {m m' : JsonMap}, items'.Trims items → readSeq sequences fields items' = some m' →
    readSeq sequences fields items = some m → m'.Trims m
  | .nil, _, fields, _, _, h, hread', hread => by
    cases h
    rw [Option.some_inj.1 (hread'.symm.trans hread)]
    exact JsonObject.trims_refl _
  | .cons v rest, _, [], _, _, _, _, hread => nomatch hread
  | .cons v rest, _, (key, kind) :: fields, _, _, h, hread', hread => by
    obtain ⟨v', rest', rfl, hv, hrest⟩ := h
    have hnull := isNull_of_trims hv
    rw [readSeq] at hread hread'
    rw [hnull] at hread'
    split at hread
    · next hyes =>
      rw [if_pos hyes] at hread'
      exact readSeq_trims hrest hread' hread
    · next hno =>
      rw [if_neg hno] at hread'
      obtain ⟨s, hs, hread⟩ := Option.bind_eq_some_iff.1 hread
      obtain ⟨s', hs', hread'⟩ := Option.bind_eq_some_iff.1 hread'
      obtain ⟨r, hr, rfl⟩ := Option.map_eq_some_iff.1 hread
      obtain ⟨r', hr', rfl⟩ := Option.map_eq_some_iff.1 hread'
      exact .inl ⟨s', r', rfl, read_trims hv hs' hs, readSeq_trims hrest hr' hr⟩
termination_by structural items => items

theorem readEach_trims : ∀ {items items' s s' : JsonArray Str Scalar} {kind : FieldKind},
    items'.Trims items → readEach sequences kind items' = some s' →
    readEach sequences kind items = some s → s'.Trims s
  | .nil, _, _, _, _, h, hread', hread => by
    cases h
    cases hread
    cases hread'
    rfl
  | .cons v rest, _, _, _, kind, h, hread', hread => by
    obtain ⟨v', rest', rfl, hv, hrest⟩ := h
    rw [readEach] at hread hread'
    obtain ⟨s, hs, hread⟩ := Option.bind_eq_some_iff.1 hread
    obtain ⟨s', hs', hread'⟩ := Option.bind_eq_some_iff.1 hread'
    obtain ⟨r, hr, rfl⟩ := Option.map_eq_some_iff.1 hread
    obtain ⟨r', hr', rfl⟩ := Option.map_eq_some_iff.1 hread'
    exact ⟨s', r', rfl, read_trims hv hs' hs, readEach_trims hrest hr' hr⟩
termination_by structural items => items

theorem readTable_trims : ∀ {table table' m m' : JsonMap}, table'.Trims table →
    readTable sequences table' = some m' → readTable sequences table = some m → m'.Trims m
  | .nil, _, _, _, h, hread', hread => by
    cases h
    cases hread
    cases hread'
    rfl
  | .cons k v rest, _, _, _, h, hread', hread => by
    rw [readTable] at hread
    obtain ⟨s, hs, hread⟩ := Option.bind_eq_some_iff.1 hread
    obtain ⟨r, hr, rfl⟩ := Option.map_eq_some_iff.1 hread
    rcases h with ⟨v', rest', rfl, hv, hrest⟩ | ⟨hnone, hrest⟩
    · rw [readTable] at hread'
      obtain ⟨s', hs', hread'⟩ := Option.bind_eq_some_iff.1 hread'
      obtain ⟨r', hr', rfl⟩ := Option.map_eq_some_iff.1 hread'
      exact .inl ⟨s', r', rfl, read_trims hv hs' hs, readTable_trims hrest hr' hr⟩
    · exact .inr ⟨get?_readTable_none hread' hnone, readTable_trims hrest hread' hr⟩
termination_by structural table => table

end

/-- Where a value can be read, a trimmed one is written in no more bytes. -/
theorem compactNormalizedSchemaLen_le {v v' : JsonValue} (h : v'.Trims v)
    (hread : read true .schema v ≠ none) :
    compactNormalizedSchemaLen v' ≤ compactNormalizedSchemaLen v := by
  obtain ⟨s, hs⟩ := Option.ne_none_iff_exists'.1 hread
  unfold compactNormalizedSchemaLen
  rw [hs]
  cases hs' : read true .schema v' with
  | none => exact Nat.zero_le _
  | some s' => exact serializedLen_le (read_trims h hs' hs)

end Trims

/-! ## Positions in what is read -/

section Positions

variable {x x' y' : JsonValue}

/-- A value is taken over, or read from an object, not from an array. -/
def ReadFrom (x' x : JsonValue) : Prop := x' = x ∨ ∃ kind, read false kind x = some x'

theorem readTypeName_eq {name : Str} (h : readTypeName name = some x') : ∃ s, x' = stringValue s := by
  obtain ⟨schemaType, -, rfl⟩ := Option.map_eq_some_iff.1 h
  exact ⟨_, rfl⟩

theorem readScalar_eq {kind : FieldKind} {a : Scalar} (h : readScalar kind a = some x') :
    ∃ b, x' = .scalar b := by
  unfold readScalar at h
  split at h
  · exact ⟨_, (Option.some_inj.1 h).symm⟩
  · exact ⟨_, (Option.some_inj.1 h).symm⟩
  · exact ⟨_, (Option.some_inj.1 h).symm⟩
  · obtain ⟨s, rfl⟩ := readTypeName_eq h
    exact ⟨_, rfl⟩
  · obtain ⟨s, rfl⟩ := readTypeName_eq h
    exact ⟨_, rfl⟩
  · cases h

theorem readVariant_eq {map : JsonMap} (h : readVariant map = some x') : ∃ s, x' = stringValue s := by
  unfold readVariant at h
  split at h
  · exact readTypeName_eq h
  · cases h

/-- An array is read from an array. -/
theorem array_of_read {kind : FieldKind} {items' : JsonArray Str Scalar}
    (h : read false kind x = some (.array items')) :
    ∃ items, x = .array items ∧
      (items' = items ∨ ∃ kind, readEach false kind items = some items') := by
  cases x with
  | null => cases h
  | scalar a =>
    obtain ⟨b, heq⟩ := readScalar_eq h
    cases heq
  | array items =>
    refine ⟨items, rfl, ?_⟩
    cases kind with
    | type | list kind =>
      rw [read] at h
      obtain ⟨m, hm, heq⟩ := Option.map_eq_some_iff.1 h
      cases heq
      exact .inr ⟨_, hm⟩
    | values =>
      cases h
      exact .inl rfl
    | schema | boolOrSchema | string | bool | typeName | table => cases h
  | object map =>
    cases kind with
    | schema | boolOrSchema | table =>
      rw [read] at h
      obtain ⟨m, -, heq⟩ := Option.map_eq_some_iff.1 h
      cases heq
    | typeName | type =>
      rw [read] at h
      obtain ⟨s, heq⟩ := readVariant_eq h
      cases heq
    | string | bool | values | list kind => cases h

/-- An object is read from an object, field by field or entry by entry. -/
theorem object_of_read {kind : FieldKind} {map' : JsonMap}
    (h : read false kind x = some (.object map')) :
    ∃ map, x = .object map ∧ (readFields false map = some map' ∨ readTable false map = some map') := by
  cases x with
  | null => cases h
  | scalar a =>
    obtain ⟨b, heq⟩ := readScalar_eq h
    cases heq
  | array items =>
    cases kind with
    | type | list kind =>
      rw [read] at h
      obtain ⟨m, -, heq⟩ := Option.map_eq_some_iff.1 h
      cases heq
    | schema | boolOrSchema | values | string | bool | typeName | table => cases h
  | object map =>
    refine ⟨map, rfl, ?_⟩
    cases kind with
    | schema | boolOrSchema =>
      rw [read] at h
      obtain ⟨m, hm, heq⟩ := Option.map_eq_some_iff.1 h
      cases heq
      exact .inl hm
    | table =>
      rw [read] at h
      obtain ⟨m, hm, heq⟩ := Option.map_eq_some_iff.1 h
      cases heq
      exact .inr hm
    | typeName | type =>
      rw [read] at h
      obtain ⟨s, heq⟩ := readVariant_eq h
      cases heq
    | string | bool | values | list kind => cases h

theorem get?_readFields {sequences : Bool} {map map' : JsonObject Str Scalar} {key : Str}
    (hcanonical : map.Canonical) (h : readFields sequences map = some map')
    (hget : map'.get? key = some y') :
    ∃ y kind, map.get? key = some y ∧ fieldKind key = some kind ∧
      read sequences kind y = some y' := by
  induction map generalizing map' with
  | nil =>
    cases h
    cases hget
  | cons k value rest ih =>
    rcases readFields_cons h with ⟨kind, v, r, hkind, -, hv, hr, rfl⟩ | ⟨-, hr⟩
    · rw [JsonObject.get?_cons] at hget
      split at hget
      · next hkey =>
        cases hget
        subst hkey
        exact ⟨value, kind, by rw [JsonObject.get?_cons, if_pos rfl], hkind, hv⟩
      · obtain ⟨y, kind', hy, hrest⟩ := ih hcanonical.2.2 hr hget
        exact ⟨y, kind', hcanonical.get_of_rest hy, hrest⟩
    · obtain ⟨y, kind', hy, hrest⟩ := ih hcanonical.2.2 hr hget
      exact ⟨y, kind', hcanonical.get_of_rest hy, hrest⟩

theorem get?_readTable {sequences : Bool} {table table' : JsonObject Str Scalar} {name : Str}
    (h : readTable sequences table = some table') (hget : table'.get? name = some y') :
    ∃ y, table.get? name = some y ∧ read sequences .schema y = some y' := by
  induction table generalizing table' with
  | nil =>
    cases h
    cases hget
  | cons k value rest ih =>
    rw [readTable] at h
    obtain ⟨v, hv, h⟩ := Option.bind_eq_some_iff.1 h
    obtain ⟨r, hr, rfl⟩ := Option.map_eq_some_iff.1 h
    rw [JsonObject.get?_cons] at hget ⊢
    split at hget
    · next hkey =>
      cases hget
      exact ⟨value, if_pos hkey, hv⟩
    · next hkey =>
      rw [if_neg hkey]
      exact ih hr hget

theorem mem_readEach {sequences : Bool} {kind : FieldKind} {items items' : JsonArray Str Scalar}
    (h : readEach sequences kind items = some items') (hmem : y' ∈ items'.toList) :
    ∃ y ∈ items.toList, read sequences kind y = some y' := by
  match items with
  | .nil =>
    cases h
    cases hmem
  | .cons value rest =>
    rw [readEach] at h
    obtain ⟨v, hv, h⟩ := Option.bind_eq_some_iff.1 h
    obtain ⟨r, hr, rfl⟩ := Option.map_eq_some_iff.1 h
    rcases List.mem_cons.1 hmem with rfl | hmem
    · exact ⟨value, List.mem_cons_self, hv⟩
    · obtain ⟨y, hy, hread⟩ := mem_readEach hr hmem
      exact ⟨y, List.mem_cons_of_mem value hy, hread⟩

theorem ReadFrom.object {map' : JsonMap} (h : ReadFrom (.object map') x) (hcanonical : x.Canonical) :
    ∃ map, x = .object map ∧ ∀ key y', map'.get? key = some y' →
      ∃ y, map.get? key = some y ∧ ReadFrom y' y := by
  rcases h with rfl | ⟨kind, h⟩
  · exact ⟨map', rfl, fun key y' hget => ⟨y', hget, .inl rfl⟩⟩
  · obtain ⟨map, rfl, hfields | htable⟩ := object_of_read h
    · refine ⟨map, rfl, fun key y' hget => ?_⟩
      obtain ⟨y, kind', hy, -, hread⟩ := get?_readFields hcanonical hfields hget
      exact ⟨y, hy, .inr ⟨kind', hread⟩⟩
    · refine ⟨map, rfl, fun key y' hget => ?_⟩
      obtain ⟨y, hy, hread⟩ := get?_readTable htable hget
      exact ⟨y, hy, .inr ⟨.schema, hread⟩⟩

theorem ReadFrom.array {items' : JsonArray Str Scalar} (h : ReadFrom (.array items') x) :
    ∃ items, x = .array items ∧ ∀ y' ∈ items'.toList, ∃ y ∈ items.toList, ReadFrom y' y := by
  rcases h with rfl | ⟨kind, h⟩
  · exact ⟨items', rfl, fun y' hy' => ⟨y', hy', .inl rfl⟩⟩
  · obtain ⟨items, rfl, rfl | ⟨kind', heach⟩⟩ := array_of_read h
    · exact ⟨items', rfl, fun y' hy' => ⟨y', hy', .inl rfl⟩⟩
    · refine ⟨items, rfl, fun y' hy' => ?_⟩
      obtain ⟨y, hy, hread⟩ := mem_readEach heach hy'
      exact ⟨y, hy, .inr ⟨kind', hread⟩⟩

variable {shape : JsonShape Str Scalar}

/-- A shape that does not look at more in what is read. -/
def FollowsRead (shape : JsonShape Str Scalar) : Prop :=
  ∀ key x x', ReadFrom x' x → shape.visits key x' = true → shape.visits key x = true

theorem child_of_readFrom (hshape : FollowsRead shape) (hcanonical : x.Canonical)
    (h : ReadFrom x' x) (hchild : shape.Child x' y') : ∃ y, shape.Child x y ∧ ReadFrom y' y := by
  cases hchild with
  | item hmem =>
    obtain ⟨items, rfl, hitems⟩ := h.array
    obtain ⟨y, hy, hread⟩ := hitems _ hmem
    exact ⟨y, .item hy, hread⟩
  | field hget htable hvisits =>
    obtain ⟨map, rfl, hfields⟩ := h.object hcanonical
    obtain ⟨y, hy, hread⟩ := hfields _ _ hget
    exact ⟨y, .field hy htable (hshape _ _ _ hread hvisits), hread⟩
  | entry hget htable hentry =>
    obtain ⟨map, rfl, hfields⟩ := h.object hcanonical
    obtain ⟨table, hy, hread⟩ := hfields _ _ hget
    obtain ⟨entries, rfl, hentries⟩ := hread.object (JsonObject.Canonical.get hcanonical hy)
    obtain ⟨y, hy', hread'⟩ := hentries _ _ hentry
    exact ⟨y, .entry hy htable hy', hread'⟩

/-- **A position in what is read is a position in the value it is read from.** -/
theorem at_of_readFrom (hshape : FollowsRead shape) (hcanonical : x.Canonical) (h : ReadFrom x' x)
    (hat : shape.At x' y') : ∃ y, shape.At x y ∧ y.Canonical ∧ ReadFrom y' y := by
  induction hat with
  | refl => exact ⟨x, .refl, hcanonical, h⟩
  | tail _ hchild ih =>
    obtain ⟨y, hy, hy', hread⟩ := ih
    obtain ⟨z, hz, hread'⟩ := child_of_readFrom hshape hy' hread hchild
    exact ⟨z, hy.tail hz, JsonShape.canonical_child hz hy', hread'⟩

theorem get?_readFields_of {sequences : Bool} {map map' : JsonObject Str Scalar} {key : Str}
    {kind : FieldKind} (h : readFields sequences map = some map') (hkind : fieldKind key = some kind)
    {y : JsonValue} (hget : map.get? key = some y) (hnull : y.isNull = false) :
    ∃ y', map'.get? key = some y' ∧ read sequences kind y = some y' := by
  induction map generalizing map' with
  | nil => cases hget
  | cons k value rest ih =>
    rw [JsonObject.get?_cons] at hget
    split at hget
    · next hkey =>
      cases hget
      subst hkey
      rcases readFields_cons h with ⟨kind', v, r, hkind', -, hv, -, rfl⟩ | ⟨hskip, -⟩
      · rw [hkind] at hkind'
        cases hkind'
        exact ⟨v, by rw [JsonObject.get?_cons, if_pos rfl], hv⟩
      · rw [hkind, hnull] at hskip
        rcases hskip with hskip | hskip <;> cases hskip
    · next hkey =>
      rcases readFields_cons h with ⟨-, v, r, -, -, -, hr, rfl⟩ | ⟨-, hr⟩
      · rw [JsonObject.get?_cons, if_neg hkey]
        exact ih hr hget
      · exact ih hr hget

theorem get?_readTable_of {sequences : Bool} {table table' : JsonObject Str Scalar} {name : Str}
    (h : readTable sequences table = some table') {y : JsonValue} (hget : table.get? name = some y) :
    ∃ y', table'.get? name = some y' := by
  induction table generalizing table' with
  | nil => cases hget
  | cons k value rest ih =>
    rw [readTable] at h
    obtain ⟨v, -, h⟩ := Option.bind_eq_some_iff.1 h
    obtain ⟨r, hr, rfl⟩ := Option.map_eq_some_iff.1 h
    rw [JsonObject.get?_cons] at hget ⊢
    split at hget
    · next hkey => exact ⟨v, if_pos hkey⟩
    · next hkey =>
      rw [if_neg hkey]
      exact ih hr hget

mutual

/-- What is read without arrays for structs is read with them too. -/
theorem read_of_objects : ∀ {v s : JsonValue} {kind : FieldKind}, read false kind v = some s →
    read true kind v = some s
  | .null, _, _, h => nomatch h
  | .scalar _, _, _, h => h
  | .array items, _, kind, h => by
    cases kind with
    | schema | boolOrSchema => cases h
    | type | list kind =>
      rw [read] at h ⊢
      obtain ⟨m, hm, rfl⟩ := Option.map_eq_some_iff.1 h
      rw [readEach_of_objects hm]
      rfl
    | values => exact h
    | string | bool | typeName | table => cases h
  | .object map, _, kind, h => by
    cases kind with
    | schema | boolOrSchema =>
      rw [read] at h ⊢
      obtain ⟨m, hm, rfl⟩ := Option.map_eq_some_iff.1 h
      rw [readFields_of_objects hm]
      rfl
    | table =>
      rw [read] at h ⊢
      obtain ⟨m, hm, rfl⟩ := Option.map_eq_some_iff.1 h
      rw [readTable_of_objects hm]
      rfl
    | typeName | type => exact h
    | string | bool | values | list kind => cases h

theorem readFields_of_objects : ∀ {map m : JsonMap}, readFields false map = some m →
    readFields true map = some m
  | .nil, _, h => h
  | .cons key value rest, _, h => by
    rw [readFields]
    rcases readFields_cons h with ⟨kind, v, r, hkind, hnull, hv, hr, rfl⟩ | ⟨hskip, hr⟩
    · rw [hkind, hnull]
      dsimp only
      rw [read_of_objects hv, readFields_of_objects hr]
      rfl
    · have hrest := readFields_of_objects hr
      split
      · next kind hkind hnull =>
        rw [hkind, hnull] at hskip
        rcases hskip with hskip | hskip <;> cases hskip
      · exact hrest

theorem readEach_of_objects : ∀ {items s : JsonArray Str Scalar} {kind : FieldKind},
    readEach false kind items = some s → readEach true kind items = some s
  | .nil, _, _, h => h
  | .cons value rest, _, _, h => by
    rw [readEach] at h ⊢
    obtain ⟨v, hv, h⟩ := Option.bind_eq_some_iff.1 h
    obtain ⟨r, hr, rfl⟩ := Option.map_eq_some_iff.1 h
    rw [read_of_objects hv, readEach_of_objects hr]
    rfl

theorem readTable_of_objects : ∀ {table m : JsonMap}, readTable false table = some m →
    readTable true table = some m
  | .nil, _, h => h
  | .cons name value rest, _, h => by
    rw [readTable] at h ⊢
    obtain ⟨v, hv, h⟩ := Option.bind_eq_some_iff.1 h
    obtain ⟨r, hr, rfl⟩ := Option.map_eq_some_iff.1 h
    rw [read_of_objects hv, readTable_of_objects hr]
    rfl

end

end Positions

end Codex.ToolSchema
