import Codex.Base.JsonValue
import Mathlib.Logic.Relation

/-!
# Passes over JSON values

A shape says which fields of an object hold a value to look into and which hold a
table of them. A pass rewrites the values that a shape reaches, from the root or from
below. `Trims v' v` says that `v'` is `v` with fields of objects taken out, at any
place: what reads a value field by field finds no more in the trimmed one.
-/

namespace Codex

open List

variable {κ α : Type} [LinearOrder κ]

omit [LinearOrder κ] in
def JsonArray.toList : JsonArray κ α → List (Json κ α)
  | .nil => []
  | .cons value rest => value :: rest.toList

theorem JsonArray.canonical_mem {items : JsonArray κ α} (h : items.Canonical) {v : Json κ α}
    (hv : v ∈ items.toList) : v.Canonical := by
  match items with
  | .nil => cases hv
  | .cons first rest =>
    rcases mem_cons.1 hv with rfl | hv
    · exact h.1
    · exact canonical_mem h.2 hv

omit [LinearOrder κ] in
theorem JsonArray.sizeOf_mem {items : JsonArray κ α} {v : Json κ α} (h : v ∈ items.toList) :
    sizeOf v < sizeOf items := by
  match items with
  | .nil => cases h
  | .cons first rest =>
    rw [cons.sizeOf_spec]
    rcases mem_cons.1 h with rfl | h
    · omega
    · have hlt := sizeOf_mem h
      omega

theorem JsonObject.sizeOf_get {fields : JsonObject κ α} {key : κ} {v : Json κ α}
    (h : fields.get? key = some v) : sizeOf v < sizeOf fields := by
  induction fields with
  | nil => cases h
  | cons k value rest ih =>
    rw [JsonObject.cons.sizeOf_spec]
    rw [get?_cons] at h
    split at h
    · cases h
      omega
    · have hlt := ih h
      omega

/-- In a canonical object a key is not found twice. -/
theorem JsonObject.Canonical.get_of_rest {k key : κ} {value v : Json κ α} {rest : JsonObject κ α}
    (h : (cons k value rest).Canonical) (hget : rest.get? key = some v) :
    (cons k value rest).get? key = some v := by
  rw [get?_cons, if_neg]
  · exact hget
  · rintro rfl
    rw [h.get_rest] at hget
    cases hget

namespace JsonObject

omit [LinearOrder κ] in
/-- The fields whose keys are to be kept. -/
def retain (keep : κ → Bool) : JsonObject κ α → JsonObject κ α
  | .nil => .nil
  | .cons k v rest => if keep k then .cons k v (rest.retain keep) else rest.retain keep

omit [LinearOrder κ] in
theorem retain_cons (keep : κ → Bool) (k : κ) (v : Json κ α) (rest : JsonObject κ α) :
    (cons k v rest).retain keep =
      if keep k then .cons k v (rest.retain keep) else rest.retain keep := rfl

theorem get?_retain (keep : κ → Bool) (fields : JsonObject κ α) (key : κ) :
    (fields.retain keep).get? key = if keep key then fields.get? key else none := by
  induction fields with
  | nil =>
    rw [retain, get?_nil, ite_self]
  | cons k v rest ih =>
    rw [retain_cons]
    split
    · next hkeep =>
      rw [get?_cons, get?_cons, ih]
      by_cases hkey : key = k
      · rw [if_pos hkey, if_pos hkey, hkey, if_pos hkeep]
      · rw [if_neg hkey, if_neg hkey]
    · next hdrop =>
      rw [ih, get?_cons]
      by_cases hkey : key = k
      · rw [hkey, if_neg hdrop, if_neg hdrop]
      · rw [if_neg hkey]

theorem Canonical.retain {fields : JsonObject κ α} (h : fields.Canonical) (keep : κ → Bool) :
    (fields.retain keep).Canonical := by
  induction fields with
  | nil => exact h
  | cons k v rest ih =>
    rw [retain_cons]
    split
    · refine ⟨fun key hkey => h.1 key fun hnone => hkey ?_, h.2.1, ih h.2.2⟩
      rw [get?_retain, hnone, ite_self]
    · exact ih h.2.2

end JsonObject

/-! ## Shapes -/

/-- Which fields a traversal visits, by key and value, and which it takes for tables. -/
structure JsonShape (κ α : Type) where
  visits : κ → Json κ α → Bool
  table : κ → Bool

namespace JsonShape

variable (shape : JsonShape κ α)

/-- A value that is reached from another in one step. -/
inductive Child : Json κ α → Json κ α → Prop where
  | item {items : JsonArray κ α} {v : Json κ α} (h : v ∈ items.toList) : Child (.array items) v
  | field {fields : JsonObject κ α} {key : κ} {v : Json κ α} (hget : fields.get? key = some v)
      (htable : shape.table key = false) (hvisits : shape.visits key v = true) :
      Child (.object fields) v
  | entry {fields table : JsonObject κ α} {key name : κ} {v : Json κ α}
      (hget : fields.get? key = some (.object table)) (htable : shape.table key = true)
      (hentry : table.get? name = some v) : Child (.object fields) v

/-- A value at some position of another. -/
def At : Json κ α → Json κ α → Prop := Relation.ReflTransGen shape.Child

/-! ### Children of objects -/

variable {shape} {fields fields' : JsonObject κ α} {key : κ} {v w : Json κ α}

/-- The keys at which a traversal may find a child. -/
def Reads (shape : JsonShape κ α) (key : κ) : Prop :=
  shape.table key = true ∨ ∃ v, shape.visits key v = true

theorem child_of_get (h : ∀ key v, shape.Reads key → fields.get? key = some v →
    fields'.get? key = some v) (hchild : shape.Child (.object fields) w) :
    shape.Child (.object fields') w := by
  cases hchild with
  | field hget htable hvisits => exact .field (h _ _ (.inr ⟨_, hvisits⟩) hget) htable hvisits
  | entry hget htable hentry => exact .entry (h _ _ (.inl htable) hget) htable hentry

theorem child_congr (h : ∀ key, shape.Reads key → fields'.get? key = fields.get? key) :
    shape.Child (.object fields') w ↔ shape.Child (.object fields) w := by
  constructor
  · exact child_of_get fun key v hreads hget => by rwa [← h key hreads]
  · exact child_of_get fun key v hreads hget => by rwa [h key hreads]

/-- A new field brings its value as a child, or the entries of its table. -/
theorem child_insert (h : shape.Child (.object (fields.insert key v)) w) :
    shape.Child (.object fields) w ∨ (shape.table key = false ∧ w = v) ∨
      (shape.table key = true ∧ ∃ table name, v = .object table ∧ table.get? name = some w) := by
  cases h with
  | @field _ key' _ hget htable hvisits =>
    rw [JsonObject.get?_insert] at hget
    split at hget
    · next hkey =>
      cases hget
      exact .inr (.inl ⟨hkey ▸ htable, rfl⟩)
    · exact .inl (.field hget htable hvisits)
  | @entry _ table key' name _ hget htable hentry =>
    rw [JsonObject.get?_insert] at hget
    split at hget
    · next hkey =>
      cases hget
      exact .inr (.inr ⟨hkey ▸ htable, table, name, rfl, hentry⟩)
    · exact .inl (.entry hget htable hentry)

theorem child_insert_of (hnone : fields.get? key = none) (h : shape.Child (.object fields) w) :
    shape.Child (.object (fields.insert key v)) w := by
  refine child_of_get (fun key' v' _ hget => ?_) h
  rw [JsonObject.get?_insert, if_neg]
  · exact hget
  · rintro rfl
    rw [hnone] at hget
    cases hget

/-- Below the root there is no difference between values with the same children. -/
theorem at_congr {v' : Json κ α} (h : ∀ w, shape.Child v w → shape.Child v' w) (hat : shape.At v w) :
    w = v ∨ shape.At v' w := by
  rcases Relation.ReflTransGen.cases_head hat with rfl | ⟨u, hchild, hat⟩
  · exact .inl rfl
  · exact .inr (.head (h u hchild) hat)

theorem child_nil : ¬ shape.Child (.object .nil) w := by
  intro h
  cases h with
  | field hget => cases hget
  | entry hget => cases hget

end JsonShape

/-! ## What is found on the way -/

namespace JsonShape

section Collect

variable {β : Type} (shape : JsonShape κ α) (found : JsonObject κ α → List β)

mutual

/-- What is found in the objects of a value, each before what is below it. -/
def collect : Json κ α → List β
  | .null => []
  | .scalar _ => []
  | .array items => collectItems items
  | .object fields => found fields ++ collectFields fields

def collectItems : JsonArray κ α → List β
  | .nil => []
  | .cons value rest => collect value ++ collectItems rest

def collectFields : JsonObject κ α → List β
  | .nil => []
  | .cons key (.object table) rest =>
    (if shape.table key then collectTable table
    else if shape.visits key (.object table) then collect (.object table) else []) ++
      collectFields rest
  | .cons key value rest =>
    (if !shape.table key && shape.visits key value then collect value else []) ++
      collectFields rest

def collectTable : JsonObject κ α → List β
  | .nil => []
  | .cons _ value rest => collect value ++ collectTable rest

end

/-- What is found in a field. -/
def collectField (key : κ) (value : Json κ α) : List β :=
  if shape.table key then
    match value with
    | .object table => shape.collectTable found table
    | _ => []
  else if shape.visits key value then shape.collect found value else []

variable {shape found} {b : β}

omit [LinearOrder κ] in
theorem collectFields_cons (key : κ) (value : Json κ α) (rest : JsonObject κ α) :
    shape.collectFields found (.cons key value rest) =
      shape.collectField found key value ++ shape.collectFields found rest := by
  unfold collectField
  cases value <;> rw [collectFields] <;> cases shape.table key <;> simp

omit [LinearOrder κ] in
theorem collect_array (items : JsonArray κ α) :
    shape.collect found (.array items) = shape.collectItems found items := rfl

omit [LinearOrder κ] in
theorem collect_object (fields : JsonObject κ α) :
    shape.collect found (.object fields) = found fields ++ shape.collectFields found fields := rfl

omit [LinearOrder κ] in
theorem collectTable_cons (key : κ) (value : Json κ α) (rest : JsonObject κ α) :
    shape.collectTable found (.cons key value rest) =
      shape.collect found value ++ shape.collectTable found rest := rfl

omit [LinearOrder κ] in
theorem mem_collectItems (items : JsonArray κ α) :
    b ∈ shape.collectItems found items ↔ ∃ v ∈ items.toList, b ∈ shape.collect found v := by
  match items with
  | .nil => simp [collectItems, JsonArray.toList]
  | .cons value rest =>
    have hrest := mem_collectItems rest
    simp only [collectItems, JsonArray.toList, mem_append, mem_cons, hrest,
      exists_eq_or_imp]

theorem mem_collectTable_of_get {table : JsonObject κ α} {name : κ} {v : Json κ α}
    (hget : table.get? name = some v) (hb : b ∈ shape.collect found v) :
    b ∈ shape.collectTable found table := by
  induction table with
  | nil => cases hget
  | cons k value rest ih =>
    rw [collectTable_cons, mem_append]
    rw [JsonObject.get?_cons] at hget
    split at hget
    · cases hget
      exact .inl hb
    · exact .inr (ih hget)

theorem mem_collectTable {table : JsonObject κ α} (h : table.Canonical)
    (hb : b ∈ shape.collectTable found table) :
    ∃ name v, table.get? name = some v ∧ b ∈ shape.collect found v := by
  induction table with
  | nil => cases hb
  | cons k value rest ih =>
    rw [collectTable_cons, mem_append] at hb
    rcases hb with hb | hb
    · exact ⟨k, value, by rw [JsonObject.get?_cons, if_pos rfl], hb⟩
    · obtain ⟨name, v, hget, hb⟩ := ih h.2.2 hb
      exact ⟨name, v, h.get_of_rest hget, hb⟩

theorem mem_collectFields_of_get {fields : JsonObject κ α} {key : κ} {v : Json κ α}
    (hget : fields.get? key = some v) (hb : b ∈ shape.collectField found key v) :
    b ∈ shape.collectFields found fields := by
  induction fields with
  | nil => cases hget
  | cons k value rest ih =>
    rw [collectFields_cons, mem_append]
    rw [JsonObject.get?_cons] at hget
    split at hget
    · next hkey =>
      cases hget
      rw [hkey] at hb
      exact .inl hb
    · exact .inr (ih hget)

theorem mem_collectFields {fields : JsonObject κ α} (h : fields.Canonical)
    (hb : b ∈ shape.collectFields found fields) :
    ∃ key v, fields.get? key = some v ∧ b ∈ shape.collectField found key v := by
  induction fields with
  | nil => cases hb
  | cons k value rest ih =>
    rw [collectFields_cons, mem_append] at hb
    rcases hb with hb | hb
    · exact ⟨k, value, by rw [JsonObject.get?_cons, if_pos rfl], hb⟩
    · obtain ⟨key, v, hget, hb⟩ := ih h.2.2 hb
      exact ⟨key, v, h.get_of_rest hget, hb⟩

/-- What is found in the fields is found in a child. -/
theorem exists_child_of_mem_collectFields {fields : JsonObject κ α} (h : fields.Canonical)
    (hb : b ∈ shape.collectFields found fields) :
    ∃ v, shape.Child (.object fields) v ∧ b ∈ shape.collect found v := by
  obtain ⟨key, v, hget, hb⟩ := mem_collectFields h hb
  unfold collectField at hb
  split at hb
  · next htable =>
    split at hb
    · next table =>
      obtain ⟨name, v', hentry, hb⟩ := mem_collectTable (h.get hget) hb
      exact ⟨v', .entry hget htable hentry, hb⟩
    · cases hb
  · next htable =>
    split at hb
    · next hvisits => exact ⟨v, .field hget (Bool.eq_false_iff.2 htable) hvisits, hb⟩
    · cases hb

theorem canonical_child {v w : Json κ α} (hchild : shape.Child v w) (h : v.Canonical) :
    w.Canonical := by
  cases hchild with
  | item hmem => exact JsonArray.canonical_mem h hmem
  | field hget _ _ => exact JsonObject.Canonical.get h hget
  | entry hget _ hentry =>
    have htable : Json.Canonical (.object _) := JsonObject.Canonical.get h hget
    exact JsonObject.Canonical.get htable hentry

theorem sizeOf_child {v w : Json κ α} (h : shape.Child v w) : sizeOf w < sizeOf v := by
  cases h with
  | item hmem =>
    have hlt := JsonArray.sizeOf_mem hmem
    rw [Json.array.sizeOf_spec]
    omega
  | field hget _ _ =>
    have hlt := JsonObject.sizeOf_get hget
    rw [Json.object.sizeOf_spec]
    omega
  | entry hget _ hentry =>
    have hlt := JsonObject.sizeOf_get hget
    have hlt' := JsonObject.sizeOf_get hentry
    rw [Json.object.sizeOf_spec] at hlt ⊢
    omega

theorem mem_collect_of_child {v w : Json κ α} (h : shape.Child v w)
    (hb : b ∈ shape.collect found w) : b ∈ shape.collect found v := by
  cases h with
  | item hmem =>
    rw [collect_array]
    exact (mem_collectItems _).2 ⟨w, hmem, hb⟩
  | field hget htable hvisits =>
    rw [collect_object]
    refine mem_append_right _ (mem_collectFields_of_get hget ?_)
    unfold collectField
    rwa [htable, if_neg Bool.false_ne_true, if_pos hvisits]
  | entry hget htable hentry =>
    rw [collect_object]
    refine mem_append_right _ (mem_collectFields_of_get hget ?_)
    unfold collectField
    rw [if_pos htable]
    exact mem_collectTable_of_get hentry hb

theorem mem_collect_of_at {v : Json κ α} {fields : JsonObject κ α}
    (h : shape.At v (.object fields)) (hb : b ∈ found fields) : b ∈ shape.collect found v := by
  induction h using Relation.ReflTransGen.head_induction_on with
  | refl =>
    rw [collect_object]
    exact mem_append_left _ hb
  | head hchild _ ih => exact mem_collect_of_child hchild ih

/-- What is collected from a value is what is found in an object at one of its positions. -/
theorem exists_at_of_mem_collect {v : Json κ α} (h : v.Canonical)
    (hb : b ∈ shape.collect found v) :
    ∃ fields, shape.At v (.object fields) ∧ b ∈ found fields := by
  match v with
  | .null => cases hb
  | .scalar a => cases hb
  | .array items =>
    rw [collect_array] at hb
    obtain ⟨w, hmem, hb⟩ := (mem_collectItems items).1 hb
    have hchild : shape.Child (.array items) w := .item hmem
    have hlt := sizeOf_child hchild
    obtain ⟨fields, hat, hfound⟩ := exists_at_of_mem_collect (canonical_child hchild h) hb
    exact ⟨fields, .head hchild hat, hfound⟩
  | .object fields =>
    rw [collect_object] at hb
    rcases mem_append.1 hb with hb | hb
    · exact ⟨fields, .refl, hb⟩
    · obtain ⟨w, hchild, hb⟩ := exists_child_of_mem_collectFields h hb
      have hlt := sizeOf_child hchild
      obtain ⟨fields', hat, hfound⟩ := exists_at_of_mem_collect (canonical_child hchild h) hb
      exact ⟨fields', .head hchild hat, hfound⟩
termination_by sizeOf v
decreasing_by
  · exact hlt
  · exact hlt

end Collect

end JsonShape

/-! ## Passes -/

/-- An object that is cut is replaced by an empty one. The others are left with what `leave` makes
of them when their fields are done. -/
structure JsonPass (κ α : Type) extends JsonShape κ α where
  cut : ℕ → JsonObject κ α → Bool
  leave : JsonObject κ α → JsonObject κ α
  leaf : α → Json κ α

namespace JsonPass

variable (pass : JsonPass κ α)

mutual

/-- The pass at a depth, which counts the objects around. -/
def run (depth : ℕ) : Json κ α → Json κ α
  | .null => .null
  | .scalar a => pass.leaf a
  | .array items => .array (runItems depth items)
  | .object fields =>
    if pass.cut depth fields then .object .nil
    else .object (pass.leave (runFields (depth + 1) fields))

def runItems (depth : ℕ) : JsonArray κ α → JsonArray κ α
  | .nil => .nil
  | .cons value rest => .cons (run depth value) (runItems depth rest)

def runFields (depth : ℕ) : JsonObject κ α → JsonObject κ α
  | .nil => .nil
  | .cons key (.object table) rest =>
    .cons key
      (if pass.table key then .object (runTable depth table)
      else if pass.visits key (.object table) then run depth (.object table) else .object table)
      (runFields depth rest)
  | .cons key value rest =>
    .cons key (if !pass.table key && pass.visits key value then run depth value else value)
      (runFields depth rest)

def runTable (depth : ℕ) : JsonObject κ α → JsonObject κ α
  | .nil => .nil
  | .cons name value rest => .cons name (run depth value) (runTable depth rest)

end

/-- What becomes of a field. -/
def field (depth : ℕ) (key : κ) (value : Json κ α) : Json κ α :=
  if pass.table key then
    match value with
    | .object table => .object (pass.runTable depth table)
    | value => value
  else if pass.visits key value then pass.run depth value else value

variable {pass} {depth : ℕ}

omit [LinearOrder κ] in
theorem run_object (fields : JsonObject κ α) :
    pass.run depth (.object fields) =
      if pass.cut depth fields then .object .nil
      else .object (pass.leave (pass.runFields (depth + 1) fields)) := rfl

omit [LinearOrder κ] in
theorem runFields_cons (key : κ) (value : Json κ α) (rest : JsonObject κ α) :
    pass.runFields depth (.cons key value rest) =
      .cons key (pass.field depth key value) (pass.runFields depth rest) := by
  unfold field
  cases value <;> rw [runFields] <;> cases pass.table key <;> simp

theorem get?_runFields (fields : JsonObject κ α) (key : κ) :
    (pass.runFields depth fields).get? key = (fields.get? key).map (pass.field depth key) := by
  induction fields with
  | nil => rfl
  | cons k v rest ih =>
    rw [runFields_cons, JsonObject.get?_cons, JsonObject.get?_cons, ih]
    split
    · next h => rw [h]; rfl
    · rfl

theorem get?_runTable (table : JsonObject κ α) (name : κ) :
    (pass.runTable depth table).get? name = (table.get? name).map (pass.run depth) := by
  induction table with
  | nil => rfl
  | cons k v rest ih =>
    rw [runTable, JsonObject.get?_cons, JsonObject.get?_cons, ih]
    split <;> rfl

omit [LinearOrder κ] in
theorem toList_runItems (items : JsonArray κ α) :
    (pass.runItems depth items).toList = items.toList.map (pass.run depth) := by
  match items with
  | .nil => rfl
  | .cons value rest =>
    have hrest := toList_runItems rest
    rw [runItems, JsonArray.toList, JsonArray.toList, map_cons, hrest]

omit [LinearOrder κ] in
theorem field_of_other {key : κ} (htable : pass.table key = false)
    (hvisits : ∀ v, pass.visits key v = false) (value : Json κ α) :
    pass.field depth key value = value := by
  unfold field
  rw [htable, hvisits]
  rfl

/-- A field that the pass has nothing to do with. -/
theorem get?_runFields_other {key : κ} (htable : pass.table key = false)
    (hvisits : ∀ v, pass.visits key v = false) (fields : JsonObject κ α) :
    (pass.runFields depth fields).get? key = fields.get? key := by
  rw [get?_runFields]
  cases fields.get? key with
  | none => rfl
  | some v => exact congrArg some (field_of_other htable hvisits v)

theorem get?_runFields_eq_none {fields : JsonObject κ α} {key : κ} :
    (pass.runFields depth fields).get? key = none ↔ fields.get? key = none := by
  rw [get?_runFields, Option.map_eq_none_iff]

/-- The pass does not hide from the shape what it visits. -/
def Stable (pass : JsonPass κ α) : Prop :=
  ∀ depth key v, pass.visits key v = true → pass.visits key (pass.run depth v) = true

/-- The children of the fields that are done are the children done. -/
theorem child_runFields (hstable : pass.Stable) {fields : JsonObject κ α} {w : Json κ α} :
    pass.Child (.object (pass.runFields depth fields)) w ↔
      ∃ v, pass.Child (.object fields) v ∧ w = pass.run depth v := by
  constructor
  · intro h
    cases h with
    | @field _ key _ hget htable hvisits =>
      rw [get?_runFields] at hget
      obtain ⟨v, hv, rfl⟩ := Option.map_eq_some_iff.1 hget
      by_cases hvisit : pass.visits key v = true
      · refine ⟨v, .field hv htable hvisit, ?_⟩
        simp only [JsonPass.field, htable, hvisit, Bool.false_eq_true, if_false, if_true]
      · have hfield : pass.field depth key v = v := by
          simp only [JsonPass.field, htable, hvisit, Bool.false_eq_true, if_false]
        rw [hfield] at hvisits
        exact absurd hvisits hvisit
    | @entry _ table key name _ hget htable hentry =>
      rw [get?_runFields] at hget
      obtain ⟨v, hv, heq⟩ := Option.map_eq_some_iff.1 hget
      unfold JsonPass.field at heq
      rw [if_pos htable] at heq
      split at heq
      · next table' =>
        cases heq
        rw [get?_runTable] at hentry
        obtain ⟨v', hv', rfl⟩ := Option.map_eq_some_iff.1 hentry
        exact ⟨v', .entry hv htable hv', rfl⟩
      · next hno => exact absurd heq (hno table)
  · rintro ⟨v, h, rfl⟩
    cases h with
    | @field _ key _ hget htable hvisits =>
      have hfield : pass.field depth key v = pass.run depth v := by
        simp only [JsonPass.field, htable, hvisits, Bool.false_eq_true, if_false, if_true]
      refine .field ?_ htable (hstable depth key v hvisits)
      rw [get?_runFields, hget, Option.map_some, hfield]
    | @entry _ table key name _ hget htable hentry =>
      have hfield : pass.field depth key (.object table) = .object (pass.runTable depth table) :=
        if_pos htable
      have hget' : (pass.runFields depth fields).get? key =
          some (.object (pass.runTable depth table)) := by
        rw [get?_runFields, hget, Option.map_some, hfield]
      have hentry' : (pass.runTable depth table).get? name = some (pass.run depth v) := by
        rw [get?_runTable, hentry, Option.map_some]
      exact .entry hget' htable hentry'

end JsonPass

/-! ## Canonical values -/

namespace JsonPass

/-- A pass that leaves objects sorted. -/
structure KeepsCanonical (pass : JsonPass κ α) : Prop where
  leave : ∀ fields, fields.Canonical → (pass.leave fields).Canonical
  leaf : ∀ a, (pass.leaf a).Canonical

variable {pass : JsonPass κ α}

theorem canonical_field {depth : ℕ} (key : κ) {v : Json κ α} (hv : v.Canonical)
    (hrun : (pass.run depth v).Canonical)
    (htable : ∀ table, v = .object table → (pass.runTable depth table).Canonical) :
    (pass.field depth key v).Canonical := by
  unfold field
  split
  · split
    · next table => exact htable table rfl
    · exact hv
  · split
    · exact hrun
    · exact hv

mutual

theorem KeepsCanonical.run (h : pass.KeepsCanonical) :
    ∀ (v : Json κ α) (depth : ℕ), v.Canonical → (pass.run depth v).Canonical
  | .null, _, _ => trivial
  | .scalar a, _, _ => h.leaf a
  | .array items, depth, hv => h.runItems items depth hv
  | .object fields, depth, hv => by
    rw [run_object]
    split
    · exact trivial
    · exact h.leave _ (h.runFields fields (depth + 1) hv)

theorem KeepsCanonical.runItems (h : pass.KeepsCanonical) :
    ∀ (items : JsonArray κ α) (depth : ℕ), items.Canonical → (pass.runItems depth items).Canonical
  | .nil, _, _ => trivial
  | .cons v rest, depth, hv => ⟨h.run v depth hv.1, h.runItems rest depth hv.2⟩

theorem KeepsCanonical.runFields (h : pass.KeepsCanonical) :
    ∀ (fields : JsonObject κ α) (depth : ℕ), fields.Canonical →
      (pass.runFields depth fields).Canonical
  | .nil, _, _ => trivial
  | .cons key v rest, depth, hv => by
    rw [runFields_cons]
    refine ⟨fun key' hkey => hv.1 key' fun hnone => hkey (get?_runFields_eq_none.2 hnone), ?_,
      h.runFields rest depth hv.2.2⟩
    have hvalue := hv.2.1
    cases v with
    | object table => exact canonical_field key hvalue (h.run _ depth hvalue) fun _ heq =>
        Json.object.inj heq ▸ h.runTable table depth hvalue
    | null | scalar a | array items => exact canonical_field key hvalue (h.run _ depth hvalue) nofun

theorem KeepsCanonical.runTable (h : pass.KeepsCanonical) :
    ∀ (table : JsonObject κ α) (depth : ℕ), table.Canonical →
      (pass.runTable depth table).Canonical
  | .nil, _, _ => trivial
  | .cons _ v rest, depth, hv => by
    refine ⟨fun key' hkey => hv.1 key' fun hnone => hkey ?_, h.run v depth hv.2.1,
      h.runTable rest depth hv.2.2⟩
    rw [get?_runTable, hnone]
    rfl

end

end JsonPass

/-! ## Trimmed values -/

mutual

/-- Fields of objects are taken out, anywhere. -/
def Json.Trims : Json κ α → Json κ α → Prop
  | v', .null => v' = .null
  | v', .scalar a => v' = .scalar a
  | v', .array items => ∃ items', v' = .array items' ∧ JsonArray.Trims items' items
  | v', .object fields => ∃ fields', v' = .object fields' ∧ JsonObject.Trims fields' fields

def JsonArray.Trims : JsonArray κ α → JsonArray κ α → Prop
  | items', .nil => items' = .nil
  | items', .cons v rest =>
    ∃ v' rest', items' = .cons v' rest' ∧ Json.Trims v' v ∧ JsonArray.Trims rest' rest

def JsonObject.Trims : JsonObject κ α → JsonObject κ α → Prop
  | fields', .nil => fields' = .nil
  | fields', .cons k v rest =>
    (∃ v' rest', fields' = .cons k v' rest' ∧ Json.Trims v' v ∧ JsonObject.Trims rest' rest) ∨
      (fields'.get? k = none ∧ JsonObject.Trims fields' rest)

end

mutual

theorem Json.trims_refl : ∀ v : Json κ α, v.Trims v
  | .null => rfl
  | .scalar _ => rfl
  | .array items => ⟨items, rfl, items.trims_refl⟩
  | .object fields => ⟨fields, rfl, fields.trims_refl⟩

theorem JsonArray.trims_refl : ∀ items : JsonArray κ α, items.Trims items
  | .nil => rfl
  | .cons v rest => ⟨v, rest, rfl, v.trims_refl, rest.trims_refl⟩

theorem JsonObject.trims_refl : ∀ fields : JsonObject κ α, fields.Trims fields
  | .nil => rfl
  | .cons _ v rest => .inl ⟨v, rest, rfl, v.trims_refl, rest.trims_refl⟩

end

/-- Only an object is trimmed to an object. -/
theorem Json.Trims.object {v : Json κ α} {fields' : JsonObject κ α}
    (h : (Json.object fields').Trims v) : ∃ fields, v = .object fields ∧ fields'.Trims fields := by
  cases v with
  | null => cases h
  | scalar a => cases h
  | array items =>
    obtain ⟨_, heq, -⟩ := h
    cases heq
  | object fields =>
    obtain ⟨_, heq, hfields⟩ := h
    cases heq
    exact ⟨fields, rfl, hfields⟩

theorem JsonArray.Trims.mem {items items' : JsonArray κ α} {v' : Json κ α}
    (h : items'.Trims items) (hv : v' ∈ items'.toList) : ∃ v ∈ items.toList, v'.Trims v := by
  match items with
  | .nil =>
    cases h
    cases hv
  | .cons v rest =>
    obtain ⟨v₁, rest', rfl, htrims, hrest⟩ := h
    rcases mem_cons.1 hv with rfl | hv
    · exact ⟨v, mem_cons_self, htrims⟩
    · obtain ⟨w, hw, htrims'⟩ := mem hrest hv
      exact ⟨w, mem_cons_of_mem v hw, htrims'⟩

namespace JsonObject

variable {fields fields' : JsonObject κ α} {key : κ} {v v' : Json κ α}

/-- A field that is left is a field trimmed. -/
theorem Trims.get (h : fields'.Trims fields) (hget : fields'.get? key = some v') :
    ∃ v, fields.get? key = some v ∧ v'.Trims v := by
  induction fields generalizing fields' with
  | nil =>
    cases h
    cases hget
  | cons k v rest ih =>
    rcases h with ⟨v₁, rest', rfl, hv, hrest⟩ | ⟨hnone, hrest⟩
    · rw [get?_cons] at hget ⊢
      split at hget
      · next hkey =>
        cases hget
        exact ⟨v, if_pos hkey, hv⟩
      · next hkey =>
        rw [if_neg hkey]
        exact ih hrest hget
    · rw [get?_cons, if_neg]
      · exact ih hrest hget
      · rintro rfl
        rw [hnone] at hget
        cases hget

theorem Trims.get_none (h : fields'.Trims fields) (hnone : fields.get? key = none) :
    fields'.get? key = none := by
  by_contra hsome
  obtain ⟨v', hget⟩ := Option.ne_none_iff_exists'.1 hsome
  obtain ⟨v, hv, -⟩ := h.get hget
  rw [hnone] at hv
  cases hv

theorem nil_trims (fields : JsonObject κ α) : JsonObject.nil.Trims fields := by
  induction fields with
  | nil => rfl
  | cons k v rest ih => exact .inr ⟨rfl, ih⟩

theorem remove_trims (key : κ) (fields : JsonObject κ α) : (fields.remove key).Trims fields := by
  induction fields with
  | nil => rfl
  | cons k v rest ih =>
    unfold remove
    split
    · next hkey => exact .inr ⟨by rw [get?_remove, if_pos hkey.symm], ih⟩
    · exact .inl ⟨v, _, rfl, v.trims_refl, ih⟩

end JsonObject

mutual

theorem Json.Trims.trans : ∀ {v v' v'' : Json κ α}, v''.Trims v' → v'.Trims v → v''.Trims v
  | .null, _, _, h', h => by
    cases h
    exact h'
  | .scalar _, _, _, h', h => by
    cases h
    exact h'
  | .array items, _, _, h', h => by
    obtain ⟨items', rfl, h⟩ := h
    obtain ⟨items'', rfl, h'⟩ := h'
    exact ⟨items'', rfl, h'.trans h⟩
  | .object fields, _, _, h', h => by
    obtain ⟨fields', rfl, h⟩ := h
    obtain ⟨fields'', rfl, h'⟩ := h'
    exact ⟨fields'', rfl, h'.trans h⟩
termination_by structural v => v

theorem JsonArray.Trims.trans :
    ∀ {items items' items'' : JsonArray κ α}, items''.Trims items' → items'.Trims items →
      items''.Trims items
  | .nil, _, _, h', h => by
    cases h
    exact h'
  | .cons v rest, _, _, h', h => by
    obtain ⟨v', rest', rfl, hv, hrest⟩ := h
    obtain ⟨v'', rest'', rfl, hv', hrest'⟩ := h'
    exact ⟨v'', rest'', rfl, hv'.trans hv, hrest'.trans hrest⟩
termination_by structural items => items

theorem JsonObject.Trims.trans :
    ∀ {fields fields' fields'' : JsonObject κ α}, fields''.Trims fields' → fields'.Trims fields →
      fields''.Trims fields
  | .nil, _, _, h', h => by
    cases h
    exact h'
  | .cons k v rest, _, _, h', h => by
    rcases h with ⟨v', rest', rfl, hv, hrest⟩ | ⟨hnone, hrest⟩
    · rcases h' with ⟨v'', rest'', rfl, hv', hrest'⟩ | ⟨hnone', hrest'⟩
      · exact .inl ⟨v'', rest'', rfl, hv'.trans hv, hrest'.trans hrest⟩
      · exact .inr ⟨hnone', hrest'.trans hrest⟩
    · exact .inr ⟨h'.get_none hnone, h'.trans hrest⟩
termination_by structural fields => fields

end

mutual

theorem Json.Trims.canonical : ∀ {v v' : Json κ α}, v'.Trims v → v.Canonical → v'.Canonical
  | .null, _, h, _ => by
    cases h
    exact trivial
  | .scalar _, _, h, _ => by
    cases h
    exact trivial
  | .array items, _, h, hv => by
    obtain ⟨items', rfl, h⟩ := h
    exact JsonArray.Trims.canonical h hv
  | .object fields, _, h, hv => by
    obtain ⟨fields', rfl, h⟩ := h
    exact JsonObject.Trims.canonical h hv
termination_by structural v => v

theorem JsonArray.Trims.canonical :
    ∀ {items items' : JsonArray κ α}, items'.Trims items → items.Canonical → items'.Canonical
  | .nil, _, h, _ => by
    cases h
    exact trivial
  | .cons v rest, _, h, hitems => by
    obtain ⟨v', rest', rfl, hv, hrest⟩ := h
    exact ⟨hv.canonical hitems.1, hrest.canonical hitems.2⟩
termination_by structural items => items

theorem JsonObject.Trims.canonical :
    ∀ {fields fields' : JsonObject κ α}, fields'.Trims fields → fields.Canonical →
      fields'.Canonical
  | .nil, _, h, _ => by
    cases h
    exact trivial
  | .cons k v rest, _, h, hfields => by
    rcases h with ⟨v', rest', rfl, hv, hrest⟩ | ⟨-, hrest⟩
    · exact ⟨fun key hkey => hfields.1 key fun hnone => hkey (hrest.get_none hnone),
        hv.canonical hfields.2.1, hrest.canonical hfields.2.2⟩
    · exact hrest.canonical hfields.2.2
termination_by structural fields => fields

end

namespace JsonPass

/-- A pass that only takes fields out. -/
structure Trimming (pass : JsonPass κ α) : Prop where
  leave : ∀ fields, (pass.leave fields).Trims fields
  leaf : ∀ a, pass.leaf a = .scalar a

variable {pass : JsonPass κ α}

theorem field_trims {depth : ℕ} (key : κ) {v : Json κ α} (hrun : (pass.run depth v).Trims v)
    (htable : ∀ table, v = .object table → (pass.runTable depth table).Trims table) :
    (pass.field depth key v).Trims v := by
  unfold field
  split
  · split
    · next table => exact ⟨_, rfl, htable table rfl⟩
    · exact Json.trims_refl _
  · split
    · exact hrun
    · exact Json.trims_refl _

mutual

theorem Trimming.run (h : pass.Trimming) : ∀ (v : Json κ α) (depth : ℕ), (pass.run depth v).Trims v
  | .null, _ => rfl
  | .scalar a, _ => h.leaf a
  | .array items, depth => ⟨_, rfl, h.runItems items depth⟩
  | .object fields, depth => by
    rw [run_object]
    split
    · exact ⟨_, rfl, JsonObject.nil_trims fields⟩
    · exact ⟨_, rfl, (h.leave _).trans (h.runFields fields (depth + 1))⟩

theorem Trimming.runItems (h : pass.Trimming) :
    ∀ (items : JsonArray κ α) (depth : ℕ), (pass.runItems depth items).Trims items
  | .nil, _ => rfl
  | .cons v rest, depth => ⟨_, _, rfl, h.run v depth, h.runItems rest depth⟩

theorem Trimming.runFields (h : pass.Trimming) :
    ∀ (fields : JsonObject κ α) (depth : ℕ), (pass.runFields depth fields).Trims fields
  | .nil, _ => rfl
  | .cons key v rest, depth => by
    rw [runFields_cons]
    refine .inl ⟨_, _, rfl, ?_, h.runFields rest depth⟩
    cases v with
    | object table => exact field_trims key (h.run _ depth) fun _ heq =>
        Json.object.inj heq ▸ h.runTable table depth
    | null | scalar a | array items => exact field_trims key (h.run _ depth) nofun

theorem Trimming.runTable (h : pass.Trimming) :
    ∀ (table : JsonObject κ α) (depth : ℕ), (pass.runTable depth table).Trims table
  | .nil, _ => rfl
  | .cons _ v rest, depth => .inl ⟨_, _, rfl, h.run v depth, h.runTable rest depth⟩

end

end JsonPass

namespace JsonShape

variable {shape : JsonShape κ α} {v v' w w' : Json κ α}

/-- What is visited in a trimmed field was visited before. -/
def Untrimmed (shape : JsonShape κ α) : Prop :=
  ∀ key (v v' : Json κ α), v'.Trims v → shape.visits key v' = true → shape.visits key v = true

theorem child_of_trims (hshape : shape.Untrimmed) (htrims : v'.Trims v) (h : shape.Child v' w') :
    ∃ w, shape.Child v w ∧ w'.Trims w := by
  cases v with
  | null | scalar a =>
    cases htrims
    cases h
  | array items =>
    obtain ⟨items', rfl, hitems⟩ := htrims
    cases h with
    | item hmem =>
      obtain ⟨w, hw, htrims⟩ := hitems.mem hmem
      exact ⟨w, .item hw, htrims⟩
  | object fields =>
    obtain ⟨fields', rfl, hfields⟩ := htrims
    cases h with
    | field hget htable hvisits =>
      obtain ⟨w, hw, htrims⟩ := hfields.get hget
      exact ⟨w, .field hw htable (hshape _ _ _ htrims hvisits), htrims⟩
    | entry hget htable hentry =>
      obtain ⟨_, hw, htrims⟩ := hfields.get hget
      obtain ⟨table, rfl, htable'⟩ := htrims.object
      obtain ⟨w, hw', htrims'⟩ := htable'.get hentry
      exact ⟨w, .entry hw htable hw', htrims'⟩

/-- A position in a trimmed value is one of the value. -/
theorem at_of_trims (hshape : shape.Untrimmed) (htrims : v'.Trims v) (h : shape.At v' w') :
    ∃ w, shape.At v w ∧ w'.Trims w := by
  induction h with
  | refl => exact ⟨v, .refl, htrims⟩
  | tail _ hchild ih =>
    obtain ⟨w, hw, htrims'⟩ := ih
    obtain ⟨u, hu, htrims''⟩ := child_of_trims hshape htrims' hchild
    exact ⟨u, hw.tail hu, htrims''⟩

end JsonShape

end Codex
