import Mathlib.Data.List.Basic
import Mathlib.Order.Lattice

/-!
# JSON values

Values over arbitrary keys and scalars. An object is a map: its fields are kept
in the order of their keys, each key once (`Canonical`), so that two objects are
equal exactly when they have the same fields (`JsonObject.ext_of_canonical`).
-/

namespace Codex

mutual

inductive Json (κ α : Type) where
  | null
  | scalar (a : α)
  | array (items : JsonArray κ α)
  | object (fields : JsonObject κ α)
  deriving DecidableEq

inductive JsonArray (κ α : Type) where
  | nil
  | cons (value : Json κ α) (rest : JsonArray κ α)
  deriving DecidableEq

inductive JsonObject (κ α : Type) where
  | nil
  | cons (key : κ) (value : Json κ α) (rest : JsonObject κ α)
  deriving DecidableEq

end

variable {κ α : Type}

/-- Induction over the fields of an object, as over a list. -/
@[induction_eliminator]
theorem JsonObject.fields_induction {motive : JsonObject κ α → Prop} (nil : motive .nil)
    (cons : ∀ k v rest, motive rest → motive (.cons k v rest)) : ∀ fields, motive fields
  | .nil => nil
  | .cons k v rest => cons k v rest (fields_induction nil cons rest)

variable [LinearOrder κ]

namespace JsonObject

def get? : JsonObject κ α → κ → Option (Json κ α)
  | .nil, _ => none
  | .cons k v rest, key => if key = k then some v else rest.get? key

def keys : JsonObject κ α → List κ
  | .nil => []
  | .cons k _ rest => k :: rest.keys

def insert (key : κ) (value : Json κ α) : JsonObject κ α → JsonObject κ α
  | .nil => .cons key value .nil
  | .cons k v rest =>
    if key < k then .cons key value (.cons k v rest)
    else if key = k then .cons key value rest
    else .cons k v (rest.insert key value)

def remove (key : κ) : JsonObject κ α → JsonObject κ α
  | .nil => .nil
  | .cons k v rest => if key = k then rest.remove key else .cons k v (rest.remove key)

end JsonObject

def Json.isNull : Json κ α → Bool
  | .null => true
  | _ => false

/-- The fields of an object. -/
def Json.asObject : Json κ α → Option (JsonObject κ α)
  | .object fields => some fields
  | _ => none

mutual

/-- Every object is sorted. -/
def Json.Canonical : Json κ α → Prop
  | .null | .scalar _ => True
  | .array items => items.Canonical
  | .object fields => fields.Canonical

def JsonArray.Canonical : JsonArray κ α → Prop
  | .nil => True
  | .cons value rest => value.Canonical ∧ rest.Canonical

def JsonObject.Canonical : JsonObject κ α → Prop
  | .nil => True
  | .cons k v rest => (∀ key, rest.get? key ≠ none → k < key) ∧ v.Canonical ∧ rest.Canonical

end

mutual

/-- No field of the value, or of an object below it, is null. Arrays are not looked into. -/
def Json.NullFree : Json κ α → Prop
  | .object fields => fields.NullFree
  | _ => True

def JsonObject.NullFree : JsonObject κ α → Prop
  | .nil => True
  | .cons _ v rest => v ≠ .null ∧ v.NullFree ∧ rest.NullFree

end

mutual

/-- Induction over the objects of a value. -/
theorem Json.object_induction {P : Json κ α → Prop}
    (leaf : ∀ v, v.asObject = none → P v)
    (object : ∀ fields, (∀ key v, fields.get? key = some v → P v) → P (.object fields)) :
    ∀ v, P v
  | .null => leaf .null rfl
  | .scalar a => leaf (.scalar a) rfl
  | .array items => leaf (.array items) rfl
  | .object fields => object fields (JsonObject.object_induction leaf object fields)

theorem JsonObject.object_induction {P : Json κ α → Prop}
    (leaf : ∀ v, v.asObject = none → P v)
    (object : ∀ fields, (∀ key v, fields.get? key = some v → P v) → P (.object fields)) :
    ∀ (fields : JsonObject κ α) (key : κ) (v : Json κ α), fields.get? key = some v → P v
  | .nil, _, _, h => nomatch h
  | .cons k value rest, key, v, h => by
    unfold JsonObject.get? at h
    split at h
    · cases h
      exact Json.object_induction leaf object value
    · exact JsonObject.object_induction leaf object rest key v h

end

omit [LinearOrder κ] in
theorem Json.isNull_iff {v : Json κ α} : v.isNull = true ↔ v = .null := by
  cases v <;> simp [Json.isNull]

namespace JsonObject

variable {fields fields' : JsonObject κ α} {key key' : κ} {value v : Json κ α}

@[simp] theorem get?_nil (key : κ) : (JsonObject.nil : JsonObject κ α).get? key = none := rfl

theorem get?_cons (k : κ) (v : Json κ α) (rest : JsonObject κ α) (key : κ) :
    (JsonObject.cons k v rest).get? key = if key = k then some v else rest.get? key := rfl

theorem insert_cons (k : κ) (v : Json κ α) (rest : JsonObject κ α) :
    (JsonObject.cons k v rest).insert key value =
      if key < k then .cons key value (.cons k v rest)
      else if key = k then .cons key value rest
      else .cons k v (rest.insert key value) := rfl

theorem remove_cons (k : κ) (v : Json κ α) (rest : JsonObject κ α) :
    (JsonObject.cons k v rest).remove key =
      if key = k then rest.remove key else .cons k v (rest.remove key) := rfl

@[simp] theorem get?_insert (key : κ) (value : Json κ α) (fields : JsonObject κ α) (key' : κ) :
    (fields.insert key value).get? key' = if key' = key then some value else fields.get? key' := by
  induction fields with
  | nil => rfl
  | cons k v rest ih =>
    rw [insert_cons]
    split
    · rfl
    · split
      · next heq =>
        rw [get?_cons, get?_cons, heq]
        split
        · rfl
        · rfl
      · next hne =>
        rw [get?_cons, get?_cons, ih]
        by_cases hk : key' = k
        · rw [if_pos hk, if_pos hk, if_neg]
          rintro rfl
          exact hne hk
        · rw [if_neg hk, if_neg hk]

@[simp] theorem get?_remove (key : κ) (fields : JsonObject κ α) (key' : κ) :
    (fields.remove key).get? key' = if key' = key then none else fields.get? key' := by
  induction fields with
  | nil =>
    split
    · rfl
    · rfl
  | cons k v rest ih =>
    rw [remove_cons]
    split
    · next heq =>
      rw [ih, get?_cons, heq]
      split
      · rfl
      · rfl
    · next hne =>
      rw [get?_cons, get?_cons, ih]
      by_cases hk : key' = k
      · rw [if_pos hk, if_pos hk, if_neg]
        rintro rfl
        exact hne hk
      · rw [if_neg hk, if_neg hk]

theorem mem_keys : key ∈ fields.keys ↔ fields.get? key ≠ none := by
  induction fields with
  | nil => simp [keys]
  | cons k v rest ih =>
    rw [keys, List.mem_cons, ih, get?_cons]
    split
    · next h => simp [h]
    · next h => simp [h]

/-! ## Canonical objects -/

theorem Canonical.get (h : fields.Canonical) (hget : fields.get? key = some v) : v.Canonical := by
  induction fields with
  | nil => cases hget
  | cons k v' rest ih =>
    obtain ⟨-, hv, hrest⟩ := h
    rw [get?_cons] at hget
    split at hget
    · cases hget
      exact hv
    · exact ih hrest hget

/-- The first key of a canonical object is its least. -/
theorem Canonical.get_rest {k : κ} {rest : JsonObject κ α}
    (h : (JsonObject.cons k v rest).Canonical) : rest.get? k = none := by
  by_contra hne
  exact lt_irrefl k (h.1 k hne)

theorem Canonical.insert (h : fields.Canonical) (hv : value.Canonical) :
    (fields.insert key value).Canonical := by
  induction fields with
  | nil => exact ⟨fun _ hne => absurd rfl hne, hv, trivial⟩
  | cons k v rest ih =>
    obtain ⟨habove, hv', hrest⟩ := h
    rw [insert_cons]
    split
    · next hlt =>
      refine ⟨fun key' hne => ?_, hv, habove, hv', hrest⟩
      rw [get?_cons] at hne
      split at hne
      · next heq => rwa [heq]
      · exact lt_trans hlt (habove key' hne)
    · next hlt =>
      split
      · next heq =>
        rw [heq]
        exact ⟨habove, hv, hrest⟩
      · next hne =>
        refine ⟨fun key' hget => ?_, hv', ih hrest⟩
        rw [get?_insert] at hget
        split at hget
        · next heq =>
          rw [heq]
          exact lt_of_le_of_ne (not_lt.1 hlt) (Ne.symm hne)
        · exact habove key' hget

theorem Canonical.remove (h : fields.Canonical) : (fields.remove key).Canonical := by
  induction fields with
  | nil => exact h
  | cons k v rest ih =>
    obtain ⟨habove, hv, hrest⟩ := h
    rw [remove_cons]
    split
    · exact ih hrest
    · refine ⟨fun key' hget => habove key' ?_, hv, ih hrest⟩
      rw [get?_remove] at hget
      split at hget
      · exact absurd rfl hget
      · exact hget

/-- **Canonical objects with the same fields are equal.** -/
theorem ext_of_canonical (h : fields.Canonical) (h' : fields'.Canonical)
    (hget : ∀ key, fields.get? key = fields'.get? key) : fields = fields' := by
  induction fields generalizing fields' with
  | nil =>
    cases fields' with
    | nil => rfl
    | cons k' v' rest' =>
      have hk := hget k'
      rw [get?_cons, if_pos rfl] at hk
      cases hk
  | cons k v rest ih =>
    cases fields' with
    | nil =>
      have hk := hget k
      rw [get?_cons, if_pos rfl] at hk
      cases hk
    | cons k' v' rest' =>
      -- the least keys agree
      have hkk : k = k' := by
        by_contra hne
        have hk := hget k
        have hk' := hget k'
        rw [get?_cons, get?_cons, if_pos rfl, if_neg hne] at hk
        rw [get?_cons, get?_cons, if_pos rfl, if_neg (Ne.symm hne)] at hk'
        exact lt_asymm (h.1 k' (by rw [hk']; simp)) (h'.1 k (by rw [← hk]; simp))
      subst hkk
      have hv := hget k
      rw [get?_cons, get?_cons, if_pos rfl, if_pos rfl, Option.some_inj] at hv
      have hrest : rest = rest' := by
        refine ih h.2.2 h'.2.2 fun key => ?_
        by_cases heq : key = k
        · rw [heq, h.get_rest, h'.get_rest]
        · have hkey := hget key
          rwa [get?_cons, get?_cons, if_neg heq, if_neg heq] at hkey
      rw [hv, hrest]

theorem NullFree.get (h : fields.NullFree) (hget : fields.get? key = some v) :
    v ≠ .null ∧ v.NullFree := by
  induction fields with
  | nil => cases hget
  | cons k v' rest ih =>
    obtain ⟨hne, hv, hrest⟩ := h
    rw [get?_cons] at hget
    split at hget
    · cases hget
      exact ⟨hne, hv⟩
    · exact ih hrest hget

end JsonObject

end Codex
