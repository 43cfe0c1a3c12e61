import Codex.Base.JsonValue
import Codex.Rollout.Item

/-!
# Merge patches

`create_merge_patch` and `apply_merge_patch_value` of
`core/src/context/world_state/mod.rs`: a patch holds the fields that are new or
changed, and null for those that are gone. `apply_createMergePatch` says that
applying the patch from one value to another gives the other, if that has no
null fields.
-/

namespace Codex.Rollout

open Codex.Text

inductive Scalar where
  | bool (b : Bool)
  | number (n : Carried)
  | string (s : Str)
  deriving DecidableEq

abbrev Value := Json Str Scalar

abbrev Object := JsonObject Str Scalar

/-! ## Merge patches -/

/-- The first loop of `create_merge_patch`: the keys that are gone. -/
def removedFields (previous : Option Object) (current : Object) : Object :=
  match previous with
  | some previous => previous.keys.foldl (fun patch key =>
      if current.get? key = none then patch.insert key .null else patch) .nil
  | none => .nil

mutual

def createMergePatch (previous : Value) : Value → Option Value
  | .object current =>
    if previous = .object current then none
    else some (.object
      (patchFields previous.asObject current (removedFields previous.asObject current)))
  | .null => if previous = .null then none else some .null
  | .scalar a => if previous = .scalar a then none else some (.scalar a)
  | .array items => if previous = .array items then none else some (.array items)

/-- The second loop of `create_merge_patch`: the fields that are new or changed. -/
def patchFields (previous : Option Object) : Object → Object → Object
  | .nil, patch => patch
  | .cons key value rest, patch =>
    patchFields previous rest <|
      match previous.bind (·.get? key) with
      | none => patch.insert key value
      | some previousValue =>
        match createMergePatch previousValue value with
        | some valuePatch => patch.insert key valuePatch
        | none => patch

end

mutual

def applyMergePatchValue (target : Value) : Value → Value
  | .object patch => .object (applyFields (target.asObject.getD .nil) patch)
  | .null => .null
  | .scalar a => .scalar a
  | .array items => .array items

def applyFields (target : Object) : Object → Object
  | .nil => target
  | .cons key value rest =>
    applyFields
      (if value.isNull then target.remove key
      else target.insert key (applyMergePatchValue ((target.get? key).getD .null) value))
      rest

end

variable {previous target patch : Object} {key : Str} {value : Value}

/-! ## The patch of two objects -/

theorem get?_removedFields (previous : Option Object) (current : Object) (key : Str) :
    (removedFields previous current).get? key =
      if (previous.bind (·.get? key)).isSome ∧ current.get? key = none then some .null
      else none := by
  cases previous with
  | none => rfl
  | some previous =>
    have hloop : ∀ (keys : List Str) (patch : Object), (keys.foldl (fun patch key =>
        if current.get? key = none then patch.insert key .null else patch) patch).get? key =
          if key ∈ keys ∧ current.get? key = none then some .null else patch.get? key := by
      intro keys
      induction keys with
      | nil => simp
      | cons k keys ih =>
        intro patch
        rw [List.foldl_cons, ih]
        by_cases hk : key = k
        · subst hk
          by_cases hcurrent : current.get? key = none
          · simp [hcurrent]
          · simp [hcurrent]
        · by_cases hcurrent : current.get? k = none
          · simp [hcurrent, hk]
          · simp [hcurrent, hk]
    rw [removedFields, hloop]
    simp only [JsonObject.mem_keys, JsonObject.get?_nil, Option.bind_some, ne_eq,
      Option.isSome_iff_ne_none]

theorem canonical_removedFields (previous : Option Object) (current : Object) :
    (removedFields previous current).Canonical := by
  cases previous with
  | none => trivial
  | some previous =>
    have hloop : ∀ (keys : List Str) (patch : Object), patch.Canonical → (keys.foldl (fun patch key =>
        if current.get? key = none then patch.insert key .null else patch) patch).Canonical := by
      intro keys
      induction keys with
      | nil => exact fun patch h => h
      | cons k keys ih =>
        intro patch h
        rw [List.foldl_cons]
        by_cases hk : current.get? k = none
        · rw [if_pos hk]
          exact ih _ (h.insert trivial)
        · rw [if_neg hk]
          exact ih _ h
    exact hloop previous.keys .nil trivial

/-- The patch of one field. -/
def fieldPatch (previous : Option Object) (key : Str) (value : Value) : Option Value :=
  match previous.bind (·.get? key) with
  | none => some value
  | some previousValue => createMergePatch previousValue value

/-- The patch with the patch of one field, if it has one. -/
def putPatch (patch : Object) (key : Str) : Option Value → Object
  | some valuePatch => patch.insert key valuePatch
  | none => patch

theorem get?_putPatch (patch : Object) (key : Str) (valuePatch : Option Value) (key' : Str) :
    (putPatch patch key valuePatch).get? key' =
      if key' = key then valuePatch.or (patch.get? key') else patch.get? key' := by
  cases valuePatch with
  | none => simp [putPatch]
  | some valuePatch => simp [putPatch]

theorem patchFields_cons (previous : Option Object) (key : Str) (value : Value)
    (rest patch : Object) :
    patchFields previous (.cons key value rest) patch =
      patchFields previous rest (putPatch patch key (fieldPatch previous key value)) := by
  rw [patchFields, fieldPatch]
  cases previous.bind (·.get? key) with
  | none => rfl
  | some previousValue =>
    dsimp only
    cases createMergePatch previousValue value with
    | none => rfl
    | some valuePatch => rfl

theorem get?_patchFields (previous : Option Object) {current : Object} (hc : current.Canonical)
    (patch : Object) (key : Str) :
    (patchFields previous current patch).get? key =
      match current.get? key with
      | none => patch.get? key
      | some value => (fieldPatch previous key value).or (patch.get? key) := by
  induction current using JsonObject.fields_induction generalizing patch with
  | nil => rfl
  | cons k value rest ih =>
    rw [patchFields_cons, ih hc.2.2, get?_putPatch, JsonObject.get?_cons]
    by_cases hk : key = k
    · subst hk
      rw [hc.get_rest, if_pos rfl, if_pos rfl]
    · rw [if_neg hk, if_neg hk]

theorem canonical_patchFields {previous : Option Object} {current patch : Object}
    (hvalues : ∀ key value, current.get? key = some value → ∀ valuePatch,
      fieldPatch previous key value = some valuePatch → valuePatch.Canonical)
    (hc : current.Canonical) (hp : patch.Canonical) :
    (patchFields previous current patch).Canonical := by
  induction current using JsonObject.fields_induction generalizing patch with
  | nil => exact hp
  | cons k value rest ih =>
    rw [patchFields_cons]
    refine ih (fun key value' hget => hvalues key value' ?_) hc.2.2 ?_
    · have hne : key ≠ k := by
        rintro rfl
        rw [hc.get_rest] at hget
        cases hget
      rwa [JsonObject.get?_cons, if_neg hne]
    · cases hfield : fieldPatch previous k value with
      | none => exact hp
      | some valuePatch =>
        exact hp.insert (hvalues k value (by rw [JsonObject.get?_cons, if_pos rfl]) valuePatch hfield)

theorem createMergePatch_leaf {current : Value} (h : current.asObject = none) (previous : Value) :
    createMergePatch previous current = if previous = current then none else some current := by
  cases current with
  | object fields => cases h
  | _ => rw [createMergePatch]

theorem createMergePatch_object (previous : Value) (current : Object) :
    createMergePatch previous (.object current) =
      if previous = .object current then none
      else some (.object
        (patchFields previous.asObject current (removedFields previous.asObject current))) := by
  rw [createMergePatch]

theorem canonical_createMergePatch {current : Value} (hc : current.Canonical)
    {previous patch : Value} (h : createMergePatch previous current = some patch) :
    patch.Canonical := by
  induction current using Json.object_induction generalizing previous patch with
  | leaf current hleaf =>
    rw [createMergePatch_leaf hleaf] at h
    split at h
    · cases h
    · cases h
      exact hc
  | object current ih =>
    rw [createMergePatch_object] at h
    split at h
    · cases h
    · cases h
      refine canonical_patchFields (fun key value hget valuePatch hfield => ?_) hc
        (canonical_removedFields _ _)
      unfold fieldPatch at hfield
      split at hfield
      · cases hfield
        exact JsonObject.Canonical.get hc hget
      · exact ih key value hget (JsonObject.Canonical.get hc hget) hfield

/-- A patch is null only for the value null. -/
theorem createMergePatch_ne_null {current : Value} (h : current ≠ .null) (previous : Value) :
    createMergePatch previous current ≠ some .null := by
  intro hnull
  cases hobject : current.asObject with
  | none =>
    rw [createMergePatch_leaf hobject] at hnull
    split at hnull
    · cases hnull
    · exact h (Option.some.inj hnull)
  | some fields =>
    cases current with
    | object current =>
      rw [createMergePatch_object] at hnull
      split at hnull
      · cases hnull
      · cases hnull
    | _ => cases hobject

/-! ## Applying a patch -/

theorem applyMergePatchValue_leaf {patch : Value} (h : patch.asObject = none) (target : Value) :
    applyMergePatchValue target patch = patch := by
  cases patch with
  | object fields => cases h
  | _ => rfl

theorem applyMergePatchValue_object (target : Value) (patch : Object) :
    applyMergePatchValue target (.object patch) =
      .object (applyFields (target.asObject.getD .nil) patch) := rfl

theorem applyFields_cons (target : Object) (key : Str) (value : Value) (rest : Object) :
    applyFields target (.cons key value rest) =
      applyFields (if value.isNull then target.remove key
        else target.insert key (applyMergePatchValue ((target.get? key).getD .null) value)) rest := rfl

theorem get?_applyFields (hp : patch.Canonical) (target : Object) (key : Str) :
    (applyFields target patch).get? key =
      match patch.get? key with
      | none => target.get? key
      | some value =>
        if value.isNull then none
        else some (applyMergePatchValue ((target.get? key).getD .null) value) := by
  induction patch using JsonObject.fields_induction generalizing target with
  | nil => rfl
  | cons k value rest ih =>
    rw [applyFields_cons, ih hp.2.2, JsonObject.get?_cons]
    by_cases hk : key = k
    · subst hk
      rw [hp.get_rest, if_pos rfl]
      by_cases hnull : value.isNull = true
      · simp [hnull]
      · simp [hnull]
    · have hsame : (if value.isNull then target.remove k
          else target.insert k (applyMergePatchValue ((target.get? k).getD .null) value)).get? key =
          target.get? key := by
        split
        · simp [hk]
        · simp [hk]
      rw [if_neg hk, hsame]

theorem canonical_asObject {value : Value} (h : value.Canonical) :
    (value.asObject.getD .nil).Canonical := by
  cases value with
  | object fields => exact h
  | _ => trivial

theorem canonical_applyMergePatchValue {patch : Value} (hp : patch.Canonical) {target : Value}
    (ht : target.Canonical) : (applyMergePatchValue target patch).Canonical := by
  induction patch using Json.object_induction generalizing target with
  | leaf patch hleaf =>
    rw [applyMergePatchValue_leaf hleaf]
    exact hp
  | object patch ih =>
    rw [applyMergePatchValue_object]
    have hfields : ∀ fields target : Object, fields.Canonical → target.Canonical →
        (∀ key value, fields.get? key = some value → value.Canonical → ∀ {t : Value}, t.Canonical →
          (applyMergePatchValue t value).Canonical) → (applyFields target fields).Canonical := by
      intro fields
      induction fields using JsonObject.fields_induction with
      | nil =>
        intro target _ ht _
        exact ht
      | cons k value rest ihrest =>
        intro target hf ht hvalues
        rw [applyFields_cons]
        refine ihrest _ hf.2.2 ?_ fun key value' hget => hvalues key value' ?_
        · split
          · exact ht.remove
          · refine ht.insert (hvalues k value (by rw [JsonObject.get?_cons, if_pos rfl]) hf.2.1 ?_)
            cases hget : target.get? k with
            | none => trivial
            | some t => exact JsonObject.Canonical.get ht hget
        · have hne : key ≠ k := by
            rintro rfl
            rw [hf.get_rest] at hget
            cases hget
          rwa [JsonObject.get?_cons, if_neg hne]
    exact hfields patch _ hp (canonical_asObject ht) ih

theorem canonical_applyFields (hp : patch.Canonical) (ht : target.Canonical) :
    (applyFields target patch).Canonical := by
  have hpatch : Json.Canonical (.object patch) := hp
  have htarget : Json.Canonical (.object target) := ht
  have h := canonical_applyMergePatchValue hpatch htarget
  rw [applyMergePatchValue_object] at h
  exact h

/-- A value without null fields is its own patch, wherever there is no object. -/
theorem applyMergePatchValue_fresh {value : Value} (hc : value.Canonical) (hn : value.NullFree)
    {target : Value} (ht : target.asObject = none) : applyMergePatchValue target value = value := by
  induction value using Json.object_induction generalizing target with
  | leaf value hleaf => exact applyMergePatchValue_leaf hleaf target
  | object fields ih =>
    have hfields : JsonObject.Canonical fields := hc
    rw [applyMergePatchValue_object, ht, Option.getD_none]
    refine congrArg Json.object
      (JsonObject.ext_of_canonical (canonical_applyFields hfields trivial) hfields fun key => ?_)
    rw [get?_applyFields hfields]
    cases hget : fields.get? key with
    | none => rfl
    | some value =>
      obtain ⟨hne, hnull⟩ := JsonObject.NullFree.get hn hget
      rw [JsonObject.get?_nil, Option.getD_none]
      show (if value.isNull = true then none else some _) = some value
      rw [if_neg (Json.isNull_iff.not.2 hne), ih key value hget (hfields.get hget) hnull rfl]

theorem get?_getD_nil (fields : Option Object) (key : Str) :
    (fields.getD .nil).get? key = fields.bind (·.get? key) := by
  cases fields <;> rfl

/-- **Applying the patch from one value to another gives the other.** -/
theorem apply_createMergePatch {previous current : Value} (hp : previous.Canonical)
    (hc : current.Canonical) (hn : current.NullFree) :
    (match createMergePatch previous current with
      | some patch => applyMergePatchValue previous patch
      | none => previous) = current := by
  induction current using Json.object_induction generalizing previous with
  | leaf current hleaf =>
    rw [createMergePatch_leaf hleaf]
    by_cases heq : previous = current
    · rw [if_pos heq]
      exact heq
    · rw [if_neg heq]
      exact applyMergePatchValue_leaf hleaf previous
  | object current ih =>
    have hcurrent : JsonObject.Canonical current := hc
    rw [createMergePatch_object]
    by_cases heq : previous = .object current
    · rw [if_pos heq]
      exact heq
    rw [if_neg heq]
    have hpatch := canonical_createMergePatch hc ((createMergePatch_object previous current).trans
      (if_neg heq))
    have hpatch' : (patchFields previous.asObject current
      (removedFields previous.asObject current)).Canonical := hpatch
    show applyMergePatchValue previous (.object _) = _
    rw [applyMergePatchValue_object]
    refine congrArg Json.object (JsonObject.ext_of_canonical
      (canonical_applyFields hpatch' (canonical_asObject hp)) hcurrent fun key => ?_)
    have hprevious : ∀ value, previous.asObject.bind (·.get? key) = some value →
        value.Canonical := by
      intro value hget
      rw [← get?_getD_nil] at hget
      exact (canonical_asObject hp).get hget
    rw [get?_applyFields hpatch', get?_patchFields _ hcurrent, get?_removedFields, get?_getD_nil]
    cases hget : current.get? key with
    | none =>
      -- the field is gone, or never was
      cases hold : previous.asObject.bind (·.get? key) with
      | none => rfl
      | some value => rfl
    | some value =>
      obtain ⟨hne, hnull⟩ := JsonObject.NullFree.get hn hget
      have hkept : ¬ ((previous.asObject.bind (·.get? key)).isSome = true ∧ some value = none) := by
        simp
      have hnot : ¬ value.isNull = true := Json.isNull_iff.not.2 hne
      rw [if_neg hkept]
      dsimp only
      rw [Option.or_none, fieldPatch]
      cases hold : previous.asObject.bind (·.get? key) with
      | none =>
        dsimp only
        rw [if_neg hnot, Option.getD_none, applyMergePatchValue_fresh (hcurrent.get hget) hnull rfl]
      | some old =>
        have hfield := ih key value hget (hprevious old hold) (hcurrent.get hget) hnull
        dsimp only
        cases hcreate : createMergePatch old value with
        | none =>
          rw [hcreate] at hfield
          exact congrArg some hfield
        | some valuePatch =>
          rw [hcreate] at hfield
          have hpatchNull : ¬ valuePatch.isNull = true := by
            intro h
            rw [Json.isNull_iff] at h
            exact createMergePatch_ne_null hne old (h ▸ hcreate)
          dsimp only
          rw [if_neg hpatchNull, Option.getD_some]
          exact congrArg some hfield

end Codex.Rollout
