import Codex.ToolSchema.Compaction

/-!
# References of parsed tool schemas

A reference that the input resolves is resolved by the parsed schema, with compaction or
without: while there are root tables the entries referred to are kept, and the pass that
drops the tables has replaced every reference outside them (`parse_keeps_references`).
The tables of schemas other than the root are not looked into, so a reference there may
come to dangle (`dangling_references`).
-/

namespace Codex.ToolSchema

open List Codex.Text

variable {value value' : JsonValue} {pointer : DefinitionPointer}

/-! ## References in trimmed values -/

theorem isBool_of_trims (h : value'.Trims value) : isBool value' = isBool value := by
  cases value with
  | null => rw [show value' = .null from h]
  | scalar a => rw [show value' = .scalar a from h]
  | array items =>
    obtain ⟨items', rfl, -⟩ := h
    rfl
  | object map =>
    obtain ⟨map', rfl, -⟩ := h
    rfl

variable {traversal : DefinitionTraversal} {key : Str} {map : JsonMap} {cut : ℕ → JsonMap → Bool}
  {depth : ℕ}

theorem childShape_visits (hbool : isBool value = true → isBool value' = true)
    (h : (childShape traversal).visits key value' = true) :
    (childShape traversal).visits key value = true := by
  have hvisits : ∀ v, (childShape traversal).visits key v = (decide (key ∈ schemaChildKeys) ||
    (key == "additionalProperties".toList && !isBool v)) := fun _ => rfl
  rw [hvisits, Bool.or_eq_true] at h ⊢
  refine h.imp_right fun hextra => ?_
  rw [Bool.and_eq_true, Bool.not_eq_true'] at hextra ⊢
  refine ⟨hextra.1, Bool.eq_false_iff.2 fun hyes => ?_⟩
  rw [hbool hyes] at hextra
  cases hextra.2

theorem asStr_of_trims {s : Str} (h : value'.Trims value) (hs : asStr value' = some s) :
    asStr value = some s := by
  cases value with
  | null =>
    rw [show value' = .null from h] at hs
    cases hs
  | scalar a =>
    rw [show value' = .scalar a from h] at hs
    exact hs
  | array items =>
    obtain ⟨items', rfl, -⟩ := h
    cases hs
  | object map =>
    obtain ⟨map', rfl, -⟩ := h
    cases hs

/-- Where a reference can be found again. -/
theorem refFromMap_of_get {map' : JsonMap}
    (h : ∀ v' s, map'.get? "$ref".toList = some v' → asStr v' = some s →
      ∃ v, map.get? "$ref".toList = some v ∧ asStr v = some s)
    (href : refFromMap map' = some pointer) : refFromMap map = some pointer := by
  unfold refFromMap at href ⊢
  obtain ⟨s, hs, hparse⟩ := Option.bind_eq_some_iff.1 href
  obtain ⟨v', hget, hstr⟩ := Option.bind_eq_some_iff.1 hs
  obtain ⟨v, hv, hv'⟩ := h v' s hget hstr
  rw [hv, Option.bind_some, hv', Option.bind_some, hparse]

theorem refFromMap_of_trims {map' : JsonMap} (h : map'.Trims map)
    (href : refFromMap map' = some pointer) : refFromMap map = some pointer := by
  refine refFromMap_of_get (fun v' s hget hs => ?_) href
  obtain ⟨v, hv, htrims⟩ := h.get hget
  exact ⟨v, hv, asStr_of_trims htrims hs⟩

theorem asObject_eq_some (h : value.asObject = some map) : value = .object map := by
  cases value <;> cases h
  rfl

theorem definitionForPointer_eq_some {definition : JsonValue} :
    definitionForPointer value pointer = some definition ↔
      ∃ map definitions, value = .object map ∧ map.get? pointer.table = some (.object definitions) ∧
        definitions.get? pointer.name = some definition := by
  constructor
  · intro h
    obtain ⟨map, hmap, hentry⟩ := Option.bind_eq_some_iff.1 h
    obtain ⟨definitions, htable, hget⟩ := Option.bind_eq_some_iff.1 hentry
    obtain ⟨table, hget', hobject⟩ := Option.bind_eq_some_iff.1 htable
    exact ⟨map, definitions, asObject_eq_some hmap, asObject_eq_some hobject ▸ hget', hget⟩
  · rintro ⟨map, definitions, rfl, htable, hget⟩
    show tableEntry _ _ _ = _
    rw [tableEntry, htable]
    exact hget

theorem definitionForPointer_of_trims {definition' : JsonValue} (h : value'.Trims value)
    (hget : definitionForPointer value' pointer = some definition') :
    ∃ definition, definitionForPointer value pointer = some definition ∧
      definition'.Trims definition := by
  obtain ⟨map', definitions', rfl, htable, hentry⟩ := definitionForPointer_eq_some.1 hget
  obtain ⟨map, rfl, hmap⟩ := h.object
  obtain ⟨table, htable', htrims⟩ := hmap.get htable
  obtain ⟨definitions, rfl, hdefinitions⟩ := htrims.object
  obtain ⟨definition, hentry', htrims'⟩ := hdefinitions.get hentry
  exact ⟨definition, definitionForPointer_eq_some.2 ⟨map, definitions, rfl, htable', hentry'⟩, htrims'⟩

/-- A trimmed value has no new references. -/
theorem refersTo_of_trims (h : value'.Trims value) (href : RefersTo value' pointer) :
    RefersTo value pointer := by
  have hskipped : (childShape .skipped).Untrimmed := fun key v v' htrims =>
    childShape_visits fun hbool => (isBool_of_trims htrims).trans hbool
  have hany : anyShape.Untrimmed := fun _ _ _ _ _ => rfl
  cases href with
  | outside hat href =>
    obtain ⟨w, hw, htrims⟩ := JsonShape.at_of_trims hskipped h hat
    obtain ⟨map, rfl, hmap⟩ := htrims.object
    exact .outside hw (refFromMap_of_trims hmap href)
  | inside hdefinition hat href =>
    obtain ⟨definition, hdefinition', htrims⟩ := definitionForPointer_of_trims h hdefinition
    obtain ⟨w, hw, htrims'⟩ := JsonShape.at_of_trims hany htrims hat
    obtain ⟨map, rfl, hmap⟩ := htrims'.object
    exact .inside hdefinition' hw (refFromMap_of_trims hmap href)

/-! ## References after compaction -/

theorem isBool_cuttingPass : isBool ((cuttingPass cut).run depth value) = isBool value :=
  isBool_of_trims ((trimming_cuttingPass cut).run value depth)

theorem stable_cuttingPass (cut : ℕ → JsonMap → Bool) : (cuttingPass cut).Stable :=
  fun _ _ _ h => childShape_visits (fun hbool => isBool_cuttingPass.symm.trans hbool) h

theorem child_cuttingPass {w : JsonValue}
    (h : (childShape .skipped).Child ((cuttingPass cut).run depth value) w) :
    ∃ v depth', w = (cuttingPass cut).run depth' v := by
  cases value with
  | null => cases h
  | scalar a => cases h
  | array items =>
    rw [JsonPass.run] at h
    cases h with
    | item hmem =>
      rw [JsonPass.toList_runItems] at hmem
      obtain ⟨v, -, rfl⟩ := mem_map.1 hmem
      exact ⟨v, depth, rfl⟩
  | object map =>
    rw [JsonPass.run] at h
    split at h
    · exact absurd h JsonShape.child_nil
    · obtain ⟨v, -, rfl⟩ := (JsonPass.child_runFields (stable_cuttingPass cut)).1 h
      exact ⟨v, depth + 1, rfl⟩

theorem at_cuttingPass {w : JsonValue}
    (h : (childShape .skipped).At ((cuttingPass cut).run depth value) w) :
    ∃ v depth', w = (cuttingPass cut).run depth' v := by
  induction h with
  | refl => exact ⟨value, depth, rfl⟩
  | tail _ hchild ih =>
    obtain ⟨v, depth', rfl⟩ := ih
    exact child_cuttingPass hchild

/-- Outside definition tables every local reference is rewritten. -/
theorem refFromMap_rewritten
    (h : (childShape .skipped).At (rewriteDefinitionRefsToEmptySchemas value) (.object map)) :
    refFromMap map = none := by
  obtain ⟨v, depth, heq⟩ := at_cuttingPass h
  cases v with
  | null => cases heq
  | scalar a => cases heq
  | array items =>
    rw [JsonPass.run] at heq
    cases heq
  | object map' =>
    rw [JsonPass.run] at heq
    split at heq
    · cases heq
      rfl
    · next hcut =>
      cases heq
      have href : refFromMap map' = none := by
        rw [← Option.not_isSome_iff_eq_none]
        exact hcut
      exact (refFromMap_runFields rfl).trans href

theorem get?_foldl_remove {keys : List Str} :
    (keys.foldl (fun map key => map.remove key) map).get? key =
      if key ∈ keys then none else map.get? key := by
  induction keys generalizing map with
  | nil => rfl
  | cons k keys ih =>
    rw [foldl_cons, ih, JsonObject.get?_remove]
    by_cases hkeys : key ∈ keys
    · rw [if_pos hkeys, if_pos (mem_cons_of_mem k hkeys)]
    · rw [if_neg hkeys]
      by_cases hkey : key = k
      · rw [if_pos hkey, if_pos (hkey ▸ mem_cons_self)]
      · rw [if_neg hkey, if_neg]
        rintro (_ | _)
        · exact hkey rfl
        · contradiction

/-- With the root tables dropped, no reference is left that could dangle. -/
theorem not_refersTo_drop : ¬ RefersTo (dropSchemaDefinitions value) pointer := by
  intro h
  unfold dropSchemaDefinitions at h
  split at h
  · next map heq =>
    cases h with
    | @outside map' hat href =>
      have hchild : ∀ w, (childShape .skipped).Child
          (.object (definitionTableKeys.foldl (fun map key => map.remove key) map)) w →
          (childShape .skipped).Child (.object map) w := by
        intro w
        refine (JsonShape.child_congr fun key hreads => ?_).1
        rw [get?_foldl_remove, if_neg (childShape_skipped_reads hreads)]
      rcases JsonShape.at_congr hchild hat with heq' | hat
      · cases heq'
        have hroot : (childShape .skipped).At (rewriteDefinitionRefsToEmptySchemas value)
            (.object map) := by
          rw [heq]
          exact Relation.ReflTransGen.refl
        have hsame : refFromMap (definitionTableKeys.foldl (fun map key => map.remove key) map) =
            refFromMap map := refFromMap_congr (get?_foldl_remove.trans (if_neg (by decide)))
        rw [hsame, refFromMap_rewritten hroot] at href
        cases href
      · rw [refFromMap_rewritten (heq ▸ hat)] at href
        cases href
    | inside hdefinition _ _ =>
      obtain ⟨map', definitions, heq', htable, -⟩ := definitionForPointer_eq_some.1 hdefinition
      cases heq'
      rw [get?_foldl_remove, if_pos (DefinitionPointer.mem_keys _)] at htable
      cases htable
  · next hno =>
    cases h with
    | outside hat href =>
      rw [refFromMap_rewritten hat] at href
      cases href
    | inside hdefinition _ _ =>
      obtain ⟨map', -, heq, -⟩ := definitionForPointer_eq_some.1 hdefinition
      exact hno map' heq

theorem definitionForPointer_strip (h : definitionForPointer value pointer ≠ none) :
    definitionForPointer (stripSchemaDescriptions value) pointer ≠ none := by
  obtain ⟨definition, hdefinition⟩ := Option.ne_none_iff_exists'.1 h
  obtain ⟨map, definitions, rfl, htable, hget⟩ := definitionForPointer_eq_some.1 hdefinition
  have hkeys : ∀ key ∈ definitionTableKeys, stripPass.table key = true ∧ key ≠ "description".toList := by
    decide
  obtain ⟨hyes, hne⟩ := hkeys _ pointer.mem_keys
  have hfield : (stripPass.runFields 1 map).get? pointer.table =
      some (.object (stripPass.runTable 1 definitions)) := by
    rw [JsonPass.get?_runFields, htable, Option.map_some]
    unfold JsonPass.field
    rw [if_pos hyes]
  have hkept : ((stripPass.runFields 1 map).remove "description".toList).get? pointer.table =
      some (.object (stripPass.runTable 1 definitions)) := by
    rw [JsonObject.get?_remove, if_neg hne, hfield]
  have hentry : (stripPass.runTable 1 definitions).get? pointer.name =
      some (stripPass.run 1 definition) := by
    rw [JsonPass.get?_runTable, hget, Option.map_some]
  have hstrip : definitionForPointer (stripSchemaDescriptions (.object map)) pointer =
      some (stripPass.run 1 definition) := by
    refine definitionForPointer_eq_some.2 ⟨_, _, ?_, hkept, hentry⟩
    unfold stripSchemaDescriptions
    rw [JsonPass.run]
    rfl
  rw [hstrip]
  exact Option.some_ne_none _

/-- **Compaction leaves no reference dangling** that was not dangling before. -/
theorem resolves_compact (href : RefersTo (compactLargeToolSchema value) pointer)
    (h : RefersTo value pointer → definitionForPointer value pointer ≠ none) :
    definitionForPointer (compactLargeToolSchema value) pointer ≠ none := by
  -- after the second pass there is nothing left to refer to, and nothing that refers to it
  have hdropped : ∀ compacted : JsonValue,
      compacted.Trims (dropSchemaDefinitions (stripSchemaDescriptions value)) →
      ¬ RefersTo compacted pointer := fun compacted htrims href =>
    not_refersTo_drop (refersTo_of_trims htrims href)
  have hpass : ∀ pass ∈ largeSchemaCompactionPasses, ∀ value, (pass value).Trims value :=
    fun pass hmem => pass_trims hmem
  simp only [largeSchemaCompactionPasses, forall_mem_cons] at hpass
  obtain ⟨hstrip, -, hcollapse, hprune, -⟩ := hpass
  rw [compactLargeToolSchema_eq] at href ⊢
  split at href
  · next hzero =>
    rw [if_pos hzero]
    exact h href
  next hzero =>
  rw [if_neg hzero]
  split at href
  · next hone =>
    rw [if_pos hone]
    exact definitionForPointer_strip (h (refersTo_of_trims (hstrip value) href))
  split at href
  · exact absurd href (hdropped _ (Json.trims_refl _))
  split at href
  · exact absurd href (hdropped _ (hcollapse _))
  · exact absurd href (hdropped _ ((hprune _).trans (hcollapse _)))

/-! ## References in what is read -/

section Read

variable {schema : JsonValue}

theorem isBool_of_readFrom (h : ReadFrom value' value) (hbool : isBool value = true) :
    isBool value' = true := by
  rcases h with rfl | ⟨kind, h⟩
  · exact hbool
  · cases value with
    | scalar a =>
      cases a with
      | bool b =>
        rw [read] at h
        cases kind with
        | bool | boolOrSchema =>
          cases h
          rfl
        | string | typeName | type | values | schema | table | list kind => cases h
      | number text => cases hbool
      | string s => cases hbool
    | null | array items | object map => cases hbool

/-- A reference is read as it stands. -/
theorem refFromMap_of_readFrom {map' : JsonMap} (hcanonical : value.Canonical)
    (h : ReadFrom (.object map') value) (href : refFromMap map' = some pointer) :
    ∃ map, value = .object map ∧ refFromMap map = some pointer := by
  rcases h with rfl | ⟨kind, h⟩
  · exact ⟨map', rfl, href⟩
  · obtain ⟨map, rfl, hfields | htable⟩ := object_of_read h
    · refine ⟨map, rfl, refFromMap_of_get (fun v' s hget hs => ?_) href⟩
      obtain ⟨v, kind', hv, hkind, hread⟩ := get?_readFields hcanonical hfields hget
      have hstring : kind' = .string := Option.some_inj.1 (hkind.symm.trans (by decide))
      subst hstring
      refine ⟨v, hv, ?_⟩
      cases v with
      | scalar a =>
        cases a with
        | string text =>
          cases hread
          exact hs
        | bool b => cases hread
        | number text => cases hread
      | null | array items | object map => cases hread
    · refine ⟨map, rfl, refFromMap_of_get (fun v' s hget hs => ?_) href⟩
      -- an entry of a table is a schema, not a string
      obtain ⟨v, -, hread⟩ := get?_readTable htable hget
      cases v with
      | scalar a | null | array items => cases hread
      | object map =>
        rw [read] at hread
        obtain ⟨_, -, rfl⟩ := Option.map_eq_some_iff.1 hread
        cases hs

theorem refersTo_of_read (hcanonical : value.Canonical) (h : read false .schema value = some schema)
    (href : RefersTo schema pointer) : RefersTo value pointer := by
  have hskipped : FollowsRead (childShape .skipped) := fun key v v' hread =>
    childShape_visits (isBool_of_readFrom hread)
  have hany : FollowsRead anyShape := fun _ _ _ _ _ => rfl
  have hread : ReadFrom schema value := .inr ⟨.schema, h⟩
  cases href with
  | outside hat href =>
    obtain ⟨w, hw, hcanonical', hread'⟩ := at_of_readFrom hskipped hcanonical hread hat
    obtain ⟨map, rfl, href⟩ := refFromMap_of_readFrom hcanonical' hread' href
    exact .outside hw href
  | @inside inner definition map' hdefinition hat href =>
    obtain ⟨root', definitions', rfl, htable', hentry'⟩ := definitionForPointer_eq_some.1 hdefinition
    obtain ⟨root, rfl, hroot⟩ := hread.object hcanonical
    obtain ⟨table, htable, hread'⟩ := hroot _ _ htable'
    have hcanonical' := JsonObject.Canonical.get hcanonical htable
    obtain ⟨definitions, rfl, hdefinitions⟩ := hread'.object hcanonical'
    obtain ⟨definition, hentry, hread''⟩ := hdefinitions _ _ hentry'
    have hdefinition' : definitionForPointer (.object root) inner = some definition :=
      definitionForPointer_eq_some.2 ⟨root, definitions, rfl, htable, hentry⟩
    obtain ⟨w, hw, hcanonical'', hread'''⟩ := at_of_readFrom hany
      (canonical_definition hcanonical hdefinition') hread'' hat
    obtain ⟨map, rfl, href⟩ := refFromMap_of_readFrom hcanonical'' hread''' href
    exact .inside hdefinition' hw href

/-- The entries of the root tables are read. -/
theorem definitionForPointer_read {sequences : Bool} (h : read sequences .schema value = some schema)
    (hsome : definitionForPointer value pointer ≠ none) :
    definitionForPointer schema pointer ≠ none := by
  obtain ⟨definition, hdefinition⟩ := Option.ne_none_iff_exists'.1 hsome
  obtain ⟨map, definitions, rfl, htable, hget⟩ := definitionForPointer_eq_some.1 hdefinition
  rw [read] at h
  obtain ⟨map', hfields, rfl⟩ := Option.map_eq_some_iff.1 h
  have hkind : fieldKind pointer.table = some .table := by
    have hkeys : ∀ key ∈ definitionTableKeys, fieldKind key = some .table := by decide
    exact hkeys _ pointer.mem_keys
  obtain ⟨table', htable', hread⟩ := get?_readFields_of hfields hkind htable rfl
  rw [read] at hread
  obtain ⟨definitions', hdefinitions, rfl⟩ := Option.map_eq_some_iff.1 hread
  obtain ⟨definition', hentry⟩ := get?_readTable_of hdefinitions hget
  rw [definitionForPointer_eq_some.2 ⟨map', definitions', rfl, htable', hentry⟩]
  exact Option.some_ne_none _

end Read

/-! ## Parsed schemas -/

section Parse

variable {inputSchema schema : JsonValue}

theorem canonical_pruneSchemaTable {reachable : List DefinitionPointer} {map : JsonMap}
    (h : map.Canonical) (table : Str) : (pruneSchemaTable reachable map table).Canonical := by
  unfold pruneSchemaTable
  split
  · next definitions hget =>
    dsimp only
    split
    · exact h.remove
    · exact h.insert (JsonObject.Canonical.retain (h.get hget) _)
  · exact h

theorem canonical_prepare (h : inputSchema.Canonical) :
    (prepareToolInputSchema inputSchema).Canonical := by
  have hsanitized := canonical_sanitizeJsonSchema h
  unfold prepareToolInputSchema pruneUnreachableDefinitions
  split
  · next map heq =>
    rw [heq] at hsanitized
    exact canonical_pruneSchemaTable (canonical_pruneSchemaTable hsanitized _) _
  · exact hsanitized

/-- Every schema of the value is read from an object. -/
def ReadsObjects (value : JsonValue) : Prop := ∃ schema, read false .schema value = some schema

theorem read_of_deserialize (hobjects : ReadsObjects value)
    (h : deserializeToolInputSchema true value = some schema) :
    read false .schema value = some schema := by
  obtain ⟨schema', hread⟩ := hobjects
  have hschema : read true .schema value = some schema := (Option.filter_eq_some_iff.1 h).1
  rw [read_of_objects hread] at hschema
  rw [hread, hschema]

theorem resolves_deserialized (hcanonical : value.Canonical) (hobjects : ReadsObjects value)
    (h : deserializeToolInputSchema true value = some schema)
    (hkeep : RefersTo value pointer → definitionForPointer value pointer ≠ none)
    (href : RefersTo schema pointer) : definitionForPointer schema pointer ≠ none := by
  have hread := read_of_deserialize hobjects h
  exact definitionForPointer_read hread (hkeep (refersTo_of_read hcanonical hread href))

/-- **A reference that the input resolves is resolved by what is parsed**, where it is outside the
definition tables of the schema, or inside an entry of its root tables. Without compaction nothing is
left in these tables that is not referred to. -/
theorem parse_keeps_references (hcanonical : inputSchema.Canonical) :
    (parseToolInputSchema inputSchema = some schema →
      ReadsObjects (compactLargeToolSchema (prepareToolInputSchema inputSchema)) →
      ∀ pointer, RefersTo schema pointer → definitionForPointer inputSchema pointer ≠ none →
        definitionForPointer schema pointer ≠ none) ∧
    (parseToolInputSchemaWithoutCompaction inputSchema = some schema →
      ReadsObjects (prepareToolInputSchema inputSchema) →
      (∀ pointer, RefersTo schema pointer → definitionForPointer inputSchema pointer ≠ none →
        definitionForPointer schema pointer ≠ none) ∧
      ∀ pointer, definitionForPointer schema pointer ≠ none →
        Referenced anyShape (prepareToolInputSchema inputSchema) pointer) := by
  have hprepared := canonical_prepare hcanonical
  refine ⟨fun hparse hobjects pointer href hresolves => ?_, fun hparse hobjects =>
    ⟨fun pointer href hresolves => ?_, fun pointer hentry => ?_⟩⟩
  · have hcompacted : (compactLargeToolSchema (prepareToolInputSchema inputSchema)).Canonical :=
      (compactWith_trims (fun pass hpass => pass_trims hpass) _).canonical hprepared
    refine resolves_deserialized hcompacted hobjects hparse (fun href => ?_) href
    exact resolves_compact href fun href => resolves_prepared href hresolves
  · exact resolves_deserialized hprepared hobjects hparse
      (fun href => resolves_prepared href hresolves) href
  · refine referenced_of_pruned (canonical_sanitizeJsonSchema hcanonical) ?_
    obtain ⟨definition, hdefinition⟩ := Option.ne_none_iff_exists'.1 hentry
    have hread : ReadFrom schema (prepareToolInputSchema inputSchema) :=
      .inr ⟨.schema, read_of_deserialize hobjects hparse⟩
    obtain ⟨map', definitions', rfl, htable', hentry'⟩ := definitionForPointer_eq_some.1 hdefinition
    obtain ⟨map, hmap, hfields⟩ := hread.object hprepared
    obtain ⟨table, htable, hread'⟩ := hfields _ _ htable'
    rw [hmap] at hprepared
    obtain ⟨definitions, rfl, hdefinitions⟩ :=
      hread'.object (JsonObject.Canonical.get hprepared htable)
    obtain ⟨definition', hget, -⟩ := hdefinitions _ _ hentry'
    rw [← prepareToolInputSchema, definitionForPointer_eq_some.2 ⟨map, definitions, hmap, htable, hget⟩]
    exact Option.some_ne_none _

end Parse

/-! ### Examples -/

/-- A schema with a root table and the fields given. -/
def schemaWith (definitions fields : JsonMap) : JsonValue :=
  .object (.cons "$defs".toList (.object definitions) fields)

/-- An object schema with one property. -/
def ofProperty (property : JsonMap) : JsonMap :=
  .cons "properties".toList (.object (.cons ['x'] (.object property) .nil))
    (.cons "type".toList (stringValue (schemaTypeName .object)) .nil)

def definitionA : DefinitionPointer := ⟨"$defs".toList, ['A'], by decide⟩

def definitionB : DefinitionPointer := ⟨"$defs".toList, ['B'], by decide⟩

def refA : JsonMap := .cons "$ref".toList (stringValue "#/$defs/A".toList) .nil

def refB : JsonMap := .cons "$ref".toList (stringValue "#/$defs/B".toList) .nil

theorem refFromMap_refA : refFromMap refA = some definitionA := by decide +kernel

/-- If nothing outside the root tables refers to an entry, they are dropped. -/
theorem prepare_schemaWith {definitions fields : JsonMap}
    (hsanitize : sanitizeJsonSchema (schemaWith definitions fields) = schemaWith definitions fields)
    {visited : List DefinitionPointer}
    (hvisit : collectReachableDefinitions (schemaWith definitions fields) = visited) :
    prepareToolInputSchema (schemaWith definitions fields) =
      .object (definitionTableKeys.foldl (pruneSchemaTable visited)
        (.cons "$defs".toList (.object definitions) fields)) := by
  rw [prepareToolInputSchema, hsanitize, ← hvisit]
  rfl

theorem reachable_nil (h : collectRefsOutsideDefinitions value = []) :
    collectReachableDefinitions value = [] := by
  rw [collectReachableDefinitions, h, reverse_nil, Successors.visit]

/-- One entry is referred to, and refers to none. -/
def sharedSchema : JsonValue := schemaWith (.cons ['A'] typeString .nil) (ofProperty refA)

theorem prepare_sharedSchema : prepareToolInputSchema sharedSchema = sharedSchema := by
  have houtside : collectRefsOutsideDefinitions sharedSchema = [definitionA] := by decide +kernel
  have hnext : (definitionGraph sharedSchema).next definitionA = [] := rfl
  have hvisit : collectReachableDefinitions sharedSchema = [definitionA] := by
    rw [collectReachableDefinitions, houtside, reverse_singleton, Successors.visit,
      if_neg not_mem_nil, Successors.push, hnext, reverse_nil, append_nil,
      Successors.visit]
  exact prepare_schemaWith rfl hvisit

theorem canonical_cons {v : JsonValue} {rest : JsonMap} (hlt : ∀ k ∈ rest.keys, key < k)
    (hv : v.Canonical) (hrest : rest.Canonical) : (JsonObject.cons key v rest).Canonical :=
  ⟨fun k hk => hlt k (JsonObject.mem_keys.2 hk), hv, hrest⟩

theorem canonical_sharedSchema : sharedSchema.Canonical := by
  have hproperty : Json.Canonical (.object refA) := canonical_cons nofun trivial trivial
  have hproperties : (ofProperty refA).Canonical :=
    canonical_cons (by decide) (canonical_cons nofun hproperty trivial)
      (canonical_cons nofun trivial trivial)
  have hdefinitions : JsonObject.Canonical (.cons ['A'] typeString .nil) :=
    canonical_cons nofun canonical_typeString trivial
  exact canonical_cons (by decide) hdefinitions hproperties

theorem child_property (property : JsonMap) (definitions : JsonMap) :
    (childShape traversal).Child (schemaWith definitions (ofProperty property)) (.object property) ∧
      (childShape traversal).Child (.object (ofProperty property)) (.object property) := by
  have htable : (childShape traversal).table "properties".toList = true := by
    cases traversal <;> decide
  have hget : (ofProperty property).get? "properties".toList =
      some (.object (.cons ['x'] (.object property) .nil)) := rfl
  have hget' : (JsonObject.cons "$defs".toList (.object definitions) (ofProperty property)).get?
      "properties".toList = some (.object (.cons ['x'] (.object property) .nil)) := rfl
  have hentry : (JsonObject.cons ['x'] (.object property) .nil : JsonMap).get? ['x'] =
      some (.object property) := rfl
  exact ⟨.entry hget' htable hentry, .entry hget htable hentry⟩

theorem refersTo_sharedSchema : RefersTo sharedSchema definitionA :=
  .outside (.single (child_property refA _).1) refFromMap_refA

theorem parse_keeps_references_shared :
    definitionForPointer sharedSchema definitionA ≠ none ∧
      Referenced anyShape sharedSchema definitionA := by
  have hcompact : compactLargeToolSchema sharedSchema = sharedSchema := by
    have hfits : compactSchemaFitsBudget sharedSchema = true := by decide +kernel
    rw [compactLargeToolSchema_eq]
    exact if_pos hfits
  have hobjects : ReadsObjects sharedSchema := ⟨sharedSchema, rfl⟩
  have hresolves : definitionForPointer sharedSchema definitionA ≠ none := by decide
  have hparse : deserializeToolInputSchema true sharedSchema = some sharedSchema := rfl
  obtain ⟨hcompacted, hplain⟩ :=
    @parse_keeps_references sharedSchema sharedSchema canonical_sharedSchema
  rw [parseToolInputSchema, prepare_sharedSchema, hcompact] at hcompacted
  rw [parseToolInputSchemaWithoutCompaction, prepare_sharedSchema] at hplain
  exact ⟨hcompacted hparse hobjects definitionA refersTo_sharedSchema hresolves,
    (hplain hparse hobjects).2 definitionA hresolves⟩

/-- A property with a table of its own. -/
def nestedReference : JsonMap :=
  .cons "$defs".toList (.object (.cons ['B'] (.object refA) .nil))
    (.cons "type".toList (stringValue (schemaTypeName .string)) .nil)

/-- An array that serde reads a schema from. -/
def sequenceSchema : JsonValue :=
  .array (ofList (stringValue "#/$defs/A".toList :: List.replicate 13 .null))

def ofItems (items : JsonValue) : JsonMap :=
  .cons "items".toList items (.cons "type".toList (stringValue (schemaTypeName .array)) .nil)

/-- A definition that has a reference among its values. -/
def enumDefinitions : JsonMap :=
  .cons ['A'] (.object (.cons "enum".toList (.array (.cons (.object refB) .nil))
      (.cons "type".toList (stringValue (schemaTypeName .string)) .nil)))
    (.cons ['B'] typeString .nil)

def enumSchema : JsonValue := schemaWith enumDefinitions (ofProperty refA)

theorem outside_enumSchema : collectRefsOutsideDefinitions enumSchema = [definitionA] := by
  decide +kernel

theorem visit_enumSchema : collectReachableDefinitions enumSchema = [definitionB, definitionA] := by
  have hnextA : (definitionGraph enumSchema).next definitionA = [definitionB] := by decide +kernel
  have hnextB : (definitionGraph enumSchema).next definitionB = [] := rfl
  rw [collectReachableDefinitions, outside_enumSchema, reverse_singleton, Successors.visit,
    if_neg not_mem_nil, Successors.push, hnextA, reverse_singleton, append_nil,
    Successors.visit, if_neg (by decide), Successors.push, hnextB, reverse_nil,
    append_nil, Successors.visit]

/-- By its schemas alone only the first entry is referred to. -/
theorem referenced_enumSchema (h : Referenced (childShape .included) enumSchema pointer) :
    pointer = definitionA := by
  induction h with
  | outside hat href =>
    have hmem := JsonShape.mem_collect_of_at hat (mem_collectRefFromMap.2 href)
    rw [← collectRefsOutsideDefinitions, outside_enumSchema] at hmem
    exact mem_singleton.1 hmem
  | @inside pointer inner definition map _ hdefinition hat href ih =>
    subst ih
    have hnone : (childShape .included).collect collectRefFromMap definition = [] := by
      rw [← Option.some_inj.1 hdefinition]
      rfl
    have hmem := JsonShape.mem_collect_of_at hat (mem_collectRefFromMap.2 href)
    rw [hnone] at hmem
    cases hmem

/-- The root table of the input has an entry, and a schema of the result refers to it in vain. -/
def Dangles (inputSchema schema : JsonValue) (pointer : DefinitionPointer) : Prop :=
  definitionForPointer inputSchema pointer ≠ none ∧
    (∃ map, (childShape .included).At schema (.object map) ∧ refFromMap map = some pointer) ∧
    definitionForPointer schema pointer = none

def nestedSchema : JsonValue := schemaWith (.cons ['A'] typeString .nil) (ofProperty nestedReference)

def itemsSchema : JsonValue := schemaWith (.cons ['A'] typeString .nil) (ofItems sequenceSchema)

/-- A reference in the table of a property dangles, and so does one that is read from an array. An entry
is left that only an enum value refers to. -/
theorem dangling_references :
    (∃ schema, parseToolInputSchemaWithoutCompaction nestedSchema = some schema ∧
      Dangles nestedSchema schema definitionA) ∧
    (∃ schema, parseToolInputSchemaWithoutCompaction itemsSchema = some schema ∧
      Dangles itemsSchema schema definitionA) ∧
    ∃ schema, parseToolInputSchemaWithoutCompaction enumSchema = some schema ∧
      definitionForPointer schema definitionB ≠ none ∧
      ¬ Referenced (childShape .included) schema definitionB := by
  refine ⟨?_, ?_, ?_⟩
  · refine ⟨.object (ofProperty nestedReference), ?_, by decide, ⟨refA, ?_, refFromMap_refA⟩, by decide⟩
    · rw [parseToolInputSchemaWithoutCompaction, nestedSchema,
        prepare_schemaWith rfl (reachable_nil rfl)]
      rfl
    · have hget : nestedReference.get? "$defs".toList =
          some (.object (.cons ['B'] (.object refA) .nil)) := rfl
      have hentry : (JsonObject.cons ['B'] (.object refA) .nil : JsonMap).get? ['B'] =
          some (.object refA) := rfl
      have hnested : (childShape .included).Child (.object nestedReference) (.object refA) :=
        .entry hget (by decide) hentry
      exact .tail (.single (child_property nestedReference .nil).2) hnested
  · refine ⟨.object (ofItems (.object refA)), ?_, by decide, ⟨refA, ?_, refFromMap_refA⟩, by decide⟩
    · rw [parseToolInputSchemaWithoutCompaction, itemsSchema,
        prepare_schemaWith rfl (reachable_nil rfl)]
      rfl
    · have hget : (ofItems (.object refA)).get? "items".toList = some (.object refA) := rfl
      exact .single (.field hget (by decide) (by decide))
  · refine ⟨enumSchema, ?_, by decide, fun href => ?_⟩
    · rw [parseToolInputSchemaWithoutCompaction, enumSchema, prepare_schemaWith rfl visit_enumSchema]
      rfl
    · have hsame : definitionB = definitionA := referenced_enumSchema href
      exact absurd hsame (by decide)

end Codex.ToolSchema
