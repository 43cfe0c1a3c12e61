import Mathlib.Data.List.Basic
import Mathlib.Data.List.Induction
import Mathlib.Data.List.Nodup

/-!
# Layered trees

Trees of tables, arrays and scalars, over arbitrary keys and scalars. A table
keeps the order in which its keys were inserted. `merge` lays one tree over
another: tables are merged entry by entry, everything else is replaced. A scalar
of a pile of layers survives if no layer above it puts something of another shape
in its way (`leaf?_mergeAll`).
-/

namespace Codex

open List

/-! ## Entries -/

namespace Entries

variable {κ β : Type} [DecidableEq κ] {key key' : κ} {value : β} {entries : List (κ × β)}

def get? (key : κ) : List (κ × β) → Option β
  | [] => none
  | (k, v) :: rest => if k = key then some v else get? key rest

/-- Replaces the value in place, or appends an entry. -/
def insert (key : κ) (value : β) : List (κ × β) → List (κ × β)
  | [] => [(key, value)]
  | (k, v) :: rest => if k = key then (k, value) :: rest else (k, v) :: insert key value rest

def remove (key : κ) : List (κ × β) → List (κ × β)
  | [] => []
  | (k, v) :: rest => if k = key then remove key rest else (k, v) :: remove key rest

theorem get?_nil : get? key ([] : List (κ × β)) = none := rfl

theorem get?_cons (entry : κ × β) (rest : List (κ × β)) :
    get? key (entry :: rest) = if entry.1 = key then some entry.2 else get? key rest := rfl

theorem insert_cons (entry : κ × β) (rest : List (κ × β)) :
    insert key value (entry :: rest) =
      if entry.1 = key then (entry.1, value) :: rest else entry :: insert key value rest := rfl

theorem remove_cons (entry : κ × β) (rest : List (κ × β)) :
    remove key (entry :: rest) =
      if entry.1 = key then remove key rest else entry :: remove key rest := rfl

@[simp] theorem get?_insert :
    get? key' (insert key value entries) = if key' = key then some value else get? key' entries := by
  induction entries with
  | nil => simp [insert, get?_cons, get?_nil, eq_comm]
  | cons entry entries ih =>
    obtain ⟨k, v⟩ := entry
    by_cases hk : k = key
    · by_cases hk' : key' = key
      · simp [insert_cons, get?_cons, hk, hk']
      · simp [insert_cons, get?_cons, hk, hk', Ne.symm hk']
    · by_cases hk' : k = key'
      · have hne : ¬ key' = key := hk' ▸ hk
        simp [insert_cons, get?_cons, hk', hne]
      · simp [insert_cons, get?_cons, hk, hk', ih]

@[simp] theorem get?_remove :
    get? key' (remove key entries) = if key' = key then none else get? key' entries := by
  induction entries with
  | nil => simp [remove, get?_nil]
  | cons entry entries ih =>
    obtain ⟨k, v⟩ := entry
    by_cases hk : k = key
    · by_cases hk' : key' = key
      · rw [remove_cons, if_pos hk, ih, if_pos hk', if_pos hk']
      · simp [remove_cons, hk, ih, hk', get?_cons, Ne.symm hk']
    · by_cases hk' : k = key'
      · have hne : ¬ key' = key := hk' ▸ hk
        simp [remove_cons, get?_cons, hk', hne]
      · simp [remove_cons, hk, get?_cons, hk', ih]

theorem get?_insert_eq_some {value' : β} : get? key' (insert key value entries) = some value' ↔
    key' = key ∧ value = value' ∨ key' ≠ key ∧ get? key' entries = some value' := by
  rw [get?_insert]
  split <;> simp [*]

theorem get?_remove_eq_some : get? key' (remove key entries) = some value ↔
    key' ≠ key ∧ get? key' entries = some value := by
  rw [get?_remove]
  split <;> simp [*]

theorem insert_of_notMem (h : key ∉ entries.map Prod.fst) :
    insert key value entries = entries ++ [(key, value)] := by
  induction entries with
  | nil => rfl
  | cons entry entries ih =>
    rw [map_cons, mem_cons, not_or] at h
    rw [insert_cons, if_neg (Ne.symm h.1), ih h.2, cons_append]

theorem get?_mapWithKey {γ : Type} (f : κ → β → γ) :
    get? key (entries.map fun entry => (entry.1, f entry.1 entry.2)) =
      (get? key entries).map (f key) := by
  induction entries with
  | nil => rfl
  | cons entry entries ih =>
    by_cases hk : entry.1 = key
    · simp [get?_cons, hk]
    · simp [get?_cons, hk, ih]

theorem get?_map {γ : Type} (f : β → γ) :
    get? key (entries.map fun entry => (entry.1, f entry.2)) = (get? key entries).map f :=
  get?_mapWithKey fun _ => f

theorem insert_map {γ : Type} (f : β → γ) :
    insert key (f value) (entries.map fun entry => (entry.1, f entry.2)) =
      (insert key value entries).map fun entry => (entry.1, f entry.2) := by
  induction entries with
  | nil => rfl
  | cons entry entries ih =>
    by_cases hk : entry.1 = key
    · simp [insert_cons, hk]
    · simp [insert_cons, hk, ih]

theorem remove_map {γ : Type} (f : β → γ) :
    remove key (entries.map fun entry => (entry.1, f entry.2)) =
      (remove key entries).map fun entry => (entry.1, f entry.2) := by
  induction entries with
  | nil => rfl
  | cons entry entries ih =>
    by_cases hk : entry.1 = key
    · simp [remove_cons, hk, ih]
    · simp [remove_cons, hk, ih]

theorem mem_remove {entry : κ × β} (h : entry ∈ remove key entries) : entry ∈ entries := by
  induction entries with
  | nil => exact h
  | cons first entries ih =>
    rw [remove_cons] at h
    split at h
    · exact mem_cons_of_mem _ (ih h)
    · rcases mem_cons.1 h with rfl | h
      · exact mem_cons_self
      · exact mem_cons_of_mem _ (ih h)

theorem keys_remove_nodup (h : (entries.map Prod.fst).Nodup) :
    ((remove key entries).map Prod.fst).Nodup := by
  induction entries with
  | nil => exact h
  | cons first entries ih =>
    rw [map_cons, nodup_cons] at h
    rw [remove_cons]
    split
    · exact ih h.2
    · rw [map_cons, nodup_cons]
      refine ⟨fun hmem => h.1 ?_, ih h.2⟩
      obtain ⟨entry, hentry, hkey⟩ := mem_map.1 hmem
      exact mem_map.2 ⟨entry, mem_remove hentry, hkey⟩

theorem get?_eq_none : get? key entries = none ↔ key ∉ entries.map Prod.fst := by
  induction entries with
  | nil => simp [get?_nil]
  | cons entry entries ih =>
    by_cases hk : entry.1 = key
    · simp [get?_cons, hk]
    · simp [get?_cons, hk, Ne.symm hk, ih]

theorem mem_of_get? (h : get? key entries = some value) : (key, value) ∈ entries := by
  induction entries with
  | nil => cases h
  | cons entry entries ih =>
    rw [get?_cons] at h
    split at h
    · next hk =>
      cases h
      rw [← hk]
      exact mem_cons_self
    · exact mem_cons_of_mem _ (ih h)

theorem get?_of_mem (hnodup : (entries.map Prod.fst).Nodup) (h : (key, value) ∈ entries) :
    get? key entries = some value := by
  induction entries with
  | nil => cases h
  | cons entry entries ih =>
    rw [map_cons, nodup_cons] at hnodup
    rcases mem_cons.1 h with rfl | h
    · simp [get?_cons]
    · have hk : entry.1 ≠ key := by
        intro hk
        rw [hk] at hnodup
        exact hnodup.1 (mem_map_of_mem (f := Prod.fst) h)
      rw [get?_cons, if_neg hk, ih hnodup.2 h]

theorem mem_insert {entry : κ × β} (h : entry ∈ insert key value entries) :
    entry = (key, value) ∨ entry ∈ entries := by
  induction entries with
  | nil => exact .inl (mem_singleton.1 h)
  | cons first entries ih =>
    rw [insert_cons] at h
    split at h
    · next hk =>
      rcases mem_cons.1 h with rfl | h
      · exact .inl (by rw [hk])
      · exact .inr (mem_cons_of_mem _ h)
    · rcases mem_cons.1 h with rfl | h
      · exact .inr mem_cons_self
      · exact (ih h).imp_right (mem_cons_of_mem _)

theorem keys_insert_nodup (h : (entries.map Prod.fst).Nodup) :
    ((insert key value entries).map Prod.fst).Nodup := by
  induction entries with
  | nil => simp [insert]
  | cons entry entries ih =>
    rw [map_cons, nodup_cons] at h
    rw [insert_cons]
    split
    · simpa using h
    · next hk =>
      rw [map_cons, nodup_cons]
      refine ⟨?_, ih h.2⟩
      rw [← get?_eq_none, get?_insert, if_neg hk, get?_eq_none]
      exact h.1

end Entries

/-! ## Trees -/

inductive Tree (κ α : Type) where
  | scalar (a : α)
  | array (items : List (Tree κ α))
  | table (entries : List (κ × Tree κ α))

/-- A step down a tree. -/
inductive Step (κ : Type) where
  | key (k : κ)
  | index (i : ℕ)
  deriving DecidableEq

namespace Tree

mutual

/-- Induction over the values of a tree. -/
theorem nested_induction {κ α : Type} {P : Tree κ α → Prop} (scalar : ∀ a, P (.scalar a))
    (array : ∀ items, (∀ item ∈ items, P item) → P (.array items))
    (table : ∀ entries, (∀ entry ∈ entries, P entry.2) → P (.table entries)) : ∀ t, P t
  | .scalar a => scalar a
  | .array items => array items (nested_induction_items scalar array table items)
  | .table entries => table entries (nested_induction_entries scalar array table entries)

theorem nested_induction_items {κ α : Type} {P : Tree κ α → Prop} (scalar : ∀ a, P (.scalar a))
    (array : ∀ items, (∀ item ∈ items, P item) → P (.array items))
    (table : ∀ entries, (∀ entry ∈ entries, P entry.2) → P (.table entries)) :
    ∀ (items : List (Tree κ α)), ∀ item ∈ items, P item
  | [], _, h => nomatch h
  | first :: rest, item, h =>
    (mem_cons.1 h).elim (fun heq => heq ▸ nested_induction scalar array table first)
      (nested_induction_items scalar array table rest item)

theorem nested_induction_entries {κ α : Type} {P : Tree κ α → Prop} (scalar : ∀ a, P (.scalar a))
    (array : ∀ items, (∀ item ∈ items, P item) → P (.array items))
    (table : ∀ entries, (∀ entry ∈ entries, P entry.2) → P (.table entries)) :
    ∀ (entries : List (κ × Tree κ α)), ∀ entry ∈ entries, P entry.2
  | [], _, h => nomatch h
  | (_, first) :: rest, entry, h =>
    (mem_cons.1 h).elim (fun heq => heq ▸ nested_induction scalar array table first)
      (nested_induction_entries scalar array table rest entry)

end

variable {κ α : Type} [DecidableEq κ]

def child? : Tree κ α → Step κ → Option (Tree κ α)
  | .array items, .index i => items[i]?
  | .table entries, .key k => Entries.get? k entries
  | _, _ => none

/-- The scalar at the end of a path. -/
def leaf? : List (Step κ) → Tree κ α → Option α
  | [], .scalar a => some a
  | [], _ => none
  | step :: path, t => (t.child? step).bind (leaf? path)

mutual

/-- `merge base overlay`. -/
def merge (base : Tree κ α) : Tree κ α → Tree κ α
  | .table overlay =>
    match base with
    | .table entries => .table (mergeEntries entries overlay)
    | _ => .table overlay
  | overlay => overlay

def mergeEntries (base : List (κ × Tree κ α)) : List (κ × Tree κ α) → List (κ × Tree κ α)
  | [] => base
  | (key, value) :: rest =>
    mergeEntries (Entries.insert key
      (match Entries.get? key base with
        | some existing => merge existing value
        | none => value) base) rest

end

def mergeAll (layers : List (Tree κ α)) : Tree κ α := layers.foldl merge (.table [])

/-- Laid over a tree with a scalar at the end of the path, the tree puts something in its way: it has
a value there or on the way there, other than a table over a table. -/
def displaces : List (Step κ) → Tree κ α → Bool
  | .key k :: path, .table entries =>
    match Entries.get? k entries with
    | some value => displaces path value
    | none => false
  | _, _ => true

mutual

/-- Every table has each of its keys once. -/
def distinctKeys : Tree κ α → Bool
  | .scalar _ => true
  | .array items => distinctKeysItems items
  | .table entries => (entries.map Prod.fst).Nodup && distinctKeysEntries entries

def distinctKeysItems : List (Tree κ α) → Bool
  | [] => true
  | item :: rest => item.distinctKeys && distinctKeysItems rest

def distinctKeysEntries : List (κ × Tree κ α) → Bool
  | [] => true
  | (_, value) :: rest => value.distinctKeys && distinctKeysEntries rest

end

mutual

/-- Every key of every table meets the test. -/
def allKeys (test : κ → Bool) : Tree κ α → Bool
  | .scalar _ => true
  | .array items => allKeysItems test items
  | .table entries => allKeysEntries test entries

def allKeysItems (test : κ → Bool) : List (Tree κ α) → Bool
  | [] => true
  | item :: rest => item.allKeys test && allKeysItems test rest

def allKeysEntries (test : κ → Bool) : List (κ × Tree κ α) → Bool
  | [] => true
  | (key, value) :: rest => test key && value.allKeys test && allKeysEntries test rest

end

/-- The value at the end of keys. -/
def value? : List κ → Tree κ α → Option (Tree κ α)
  | [], t => some t
  | key :: keys, .table entries => (Entries.get? key entries).bind (value? keys)
  | _ :: _, _ => none

theorem value?_nil (t : Tree κ α) : value? [] t = some t := rfl

theorem value?_cons_table (key : κ) (keys : List κ) (entries : List (κ × Tree κ α)) :
    value? (key :: keys) (.table entries) = (Entries.get? key entries).bind (value? keys) := rfl

theorem value?_cons_self (key : κ) (keys : List κ) (t : Tree κ α)
    (entries : List (κ × Tree κ α)) :
    value? (key :: keys) (.table ((key, t) :: entries)) = value? keys t := by
  simp [value?_cons_table, Entries.get?_cons]

theorem leaf?_nil_scalar (a : α) : leaf? ([] : List (Step κ)) (.scalar a) = some a := rfl

theorem leaf?_nil_array (items : List (Tree κ α)) : leaf? [] (.array items) = none := rfl

theorem leaf?_nil_table (entries : List (κ × Tree κ α)) :
    leaf? [] (.table entries) = none := rfl

theorem leaf?_step (step : Step κ) (path : List (Step κ)) (t : Tree κ α) :
    leaf? (step :: path) t = (t.child? step).bind (leaf? path) := rfl

theorem child?_scalar (a : α) (step : Step κ) : child? (.scalar a) step = none := by
  cases step <;> rfl

theorem child?_array_key (items : List (Tree κ α)) (k : κ) : child? (.array items) (.key k) = none := rfl

theorem child?_array_index (items : List (Tree κ α)) (i : ℕ) :
    child? (.array items) (.index i) = items[i]? := rfl

theorem child?_table_key (entries : List (κ × Tree κ α)) (k : κ) :
    child? (.table entries) (.key k) = Entries.get? k entries := rfl

theorem child?_table_index (entries : List (κ × Tree κ α)) (i : ℕ) :
    child? (.table entries) (.index i) = none := rfl

theorem displaces_key_table (k : κ) (path : List (Step κ)) (entries : List (κ × Tree κ α)) :
    displaces (.key k :: path) (.table entries) =
      match Entries.get? k entries with
      | some value => displaces path value
      | none => false := rfl

theorem displaces_scalar (path : List (Step κ)) (a : α) : displaces path (.scalar a) = true := by
  cases path with
  | nil => rfl
  | cons step path => cases step <;> rfl

theorem displaces_array (path : List (Step κ)) (items : List (Tree κ α)) :
    displaces path (.array items) = true := by
  cases path with
  | nil => rfl
  | cons step path => cases step <;> rfl

theorem displaces_index (i : ℕ) (path : List (Step κ)) (t : Tree κ α) :
    displaces (.index i :: path) t = true := rfl

/-! ## Merging -/

variable {base overlay t : Tree κ α} {path : List (Step κ)} {a : α}

theorem distinctKeysEntries_iff {entries : List (κ × Tree κ α)} :
    distinctKeysEntries entries = true ↔ ∀ entry ∈ entries, entry.2.distinctKeys = true := by
  induction entries with
  | nil => simp [distinctKeysEntries]
  | cons entry entries ih => simp [distinctKeysEntries, ih]

theorem distinctKeys_table {entries : List (κ × Tree κ α)} :
    (table entries).distinctKeys = true ↔
      (entries.map Prod.fst).Nodup ∧ ∀ entry ∈ entries, entry.2.distinctKeys = true := by
  rw [distinctKeys, Bool.and_eq_true, decide_eq_true_eq, distinctKeysEntries_iff]

theorem distinctKeys_insert {entries : List (κ × Tree κ α)} {key : κ} {value : Tree κ α}
    (h : (table entries).distinctKeys = true) (hvalue : value.distinctKeys = true) :
    (table (Entries.insert key value entries)).distinctKeys = true := by
  rw [distinctKeys_table] at h ⊢
  refine ⟨Entries.keys_insert_nodup h.1, fun entry hentry => ?_⟩
  rcases Entries.mem_insert hentry with rfl | hmem
  · exact hvalue
  · exact h.2 entry hmem

theorem distinctKeys_remove {entries : List (κ × Tree κ α)} {key : κ}
    (h : (table entries).distinctKeys = true) :
    (table (Entries.remove key entries)).distinctKeys = true := by
  rw [distinctKeys_table] at h ⊢
  exact ⟨Entries.keys_remove_nodup h.1, fun entry hentry => h.2 entry (Entries.mem_remove hentry)⟩

theorem distinctKeys_of_value? {keys : List κ} {t u : Tree κ α} (h : t.distinctKeys = true)
    (hvalue : value? keys t = some u) : u.distinctKeys = true := by
  induction keys generalizing t with
  | nil =>
    cases hvalue
    exact h
  | cons key keys ih =>
    cases t with
    | scalar _ | array _ => cases hvalue
    | table entries =>
      obtain ⟨next, hnext, hrest⟩ := Option.bind_eq_some_iff.1 hvalue
      exact ih ((distinctKeys_table.1 h).2 _ (Entries.mem_of_get? hnext)) hrest

theorem get?_mergeEntries {entries overlay : List (κ × Tree κ α)}
    (h : (overlay.map Prod.fst).Nodup) (key : κ) :
    Entries.get? key (mergeEntries entries overlay) =
      match Entries.get? key overlay with
      | some value => some (match Entries.get? key entries with
        | some existing => merge existing value
        | none => value)
      | none => Entries.get? key entries := by
  induction overlay generalizing entries with
  | nil => rfl
  | cons entry overlay ih =>
    obtain ⟨k, v⟩ := entry
    rw [map_cons, nodup_cons] at h
    rw [mergeEntries, ih h.2]
    by_cases hk : k = key
    · subst hk
      rw [Entries.get?_eq_none.2 h.1]
      simp [Entries.get?_cons]
    · simp [Entries.get?_cons, hk, Ne.symm hk]

section MergedKey

variable {entries overlay : List (κ × Tree κ α)} {key : κ} {value existing : Tree κ α}

theorem get?_mergeEntries_of_none (hnodup : (overlay.map Prod.fst).Nodup)
    (h : Entries.get? key overlay = none) :
    Entries.get? key (mergeEntries entries overlay) = Entries.get? key entries := by
  rw [get?_mergeEntries hnodup, h]

theorem get?_mergeEntries_new (hnodup : (overlay.map Prod.fst).Nodup)
    (h : Entries.get? key overlay = some value) (hbase : Entries.get? key entries = none) :
    Entries.get? key (mergeEntries entries overlay) = some value := by
  rw [get?_mergeEntries hnodup, h, hbase]

theorem get?_mergeEntries_both (hnodup : (overlay.map Prod.fst).Nodup)
    (h : Entries.get? key overlay = some value) (hbase : Entries.get? key entries = some existing) :
    Entries.get? key (mergeEntries entries overlay) = some (merge existing value) := by
  rw [get?_mergeEntries hnodup, h, hbase]

end MergedKey

/-- A scalar of the merge is one of the overlay, or one of the base that is not displaced. -/
theorem leaf?_merge (h : overlay.distinctKeys = true) :
    leaf? path (merge base overlay) =
      (leaf? path overlay).or (if displaces path overlay then none else leaf? path base) := by
  induction path generalizing base overlay with
  | nil =>
    cases overlay with
    | scalar a => rfl
    | array items => rfl
    | table overlay =>
      cases base with
      | scalar _ | array _ => rfl
      | table entries => rfl
  | cons step path ih =>
    cases overlay with
    | scalar a => simp [merge, displaces_scalar]
    | array items => simp [merge, displaces_array]
    | table overlay =>
      rw [distinctKeys_table] at h
      cases step with
      | index i =>
        cases base with
        | scalar _ | array _ => simp [merge, displaces_index]
        | table entries => simp [merge, displaces_index, leaf?_step, child?_table_index]
      | key k =>
        cases base with
        | scalar _ => simp [merge, leaf?_step, child?_scalar]
        | array _ => simp [merge, leaf?_step, child?_array_key]
        | table entries =>
          simp only [merge, leaf?_step, child?_table_key, displaces_key_table, get?_mergeEntries h.1]
          rcases Option.eq_none_or_eq_some (Entries.get? k overlay) with hk | ⟨value, hk⟩
          · simp [hk]
          · simp only [hk]
            cases Entries.get? k entries with
            | none => simp
            | some existing => exact ih (h.2 _ (Entries.mem_of_get? hk))

/-- **A scalar of a pile of layers is the one of the highest layer that has it, if no layer above
that displaces it.** -/
theorem leaf?_mergeAll {layers : List (Tree κ α)} (h : ∀ layer ∈ layers, layer.distinctKeys = true) :
    leaf? path (mergeAll layers) = some a ↔
      ∃ below layer above, layers = below ++ layer :: above ∧ leaf? path layer = some a ∧
        ∀ t ∈ above, leaf? path t = none ∧ displaces path t = false := by
  induction layers using List.reverseRecOn with
  | nil =>
    cases path with
    | nil => simp [mergeAll, leaf?_nil_table]
    | cons step path =>
      cases step <;>
        simp [mergeAll, leaf?_step, child?_table_key, child?_table_index, Entries.get?_nil]
  | append_singleton layers top ih =>
    rw [mergeAll, foldl_append, foldl_cons, foldl_nil,
      leaf?_merge (h top (by simp)), Option.or_eq_some_iff]
    have hlayers : ∀ layer ∈ layers, layer.distinctKeys = true := fun layer hlayer =>
      h layer (mem_append_left _ hlayer)
    constructor
    · rintro (hleaf | ⟨hnone, hleaf⟩)
      · exact ⟨layers, top, [], rfl, hleaf, by simp⟩
      · split at hleaf
        · cases hleaf
        · next hdisplaces =>
          obtain ⟨below, layer, above, rfl, hlayer, habove⟩ := (ih hlayers).1 hleaf
          refine ⟨below, layer, above ++ [top], by simp, hlayer, fun t ht => ?_⟩
          rcases mem_append.1 ht with ht | ht
          · exact habove t ht
          · rw [mem_singleton.1 ht]
            exact ⟨hnone, Bool.eq_false_iff.2 hdisplaces⟩
    · rintro ⟨below, layer, above, hsplit, hlayer, habove⟩
      rcases eq_nil_or_concat above with rfl | ⟨above, last, rfl⟩
      · obtain ⟨-, htop⟩ := append_inj' hsplit rfl
        rw [singleton_inj.1 htop]
        exact .inl hlayer
      · have hsplit' : layers ++ [top] = (below ++ layer :: above) ++ [last] := by
          rw [hsplit]
          simp
        obtain ⟨rfl, htop⟩ := append_inj' hsplit' rfl
        obtain rfl : top = last := singleton_inj.1 htop
        obtain ⟨hnone, hdisplaces⟩ := habove top (by simp)
        refine .inr ⟨hnone, ?_⟩
        rw [hdisplaces]
        exact (ih hlayers).2 ⟨below, layer, above, rfl, hlayer,
          fun t ht => habove t (by simp [ht])⟩

/-! ## The paths of a tree -/

mutual

/-- The paths that end in a scalar, in order. -/
def leafPaths : Tree κ α → List (List (Step κ))
  | .scalar _ => [[]]
  | .array items => leafPathsItems 0 items
  | .table entries => leafPathsEntries entries

def leafPathsItems (i : ℕ) : List (Tree κ α) → List (List (Step κ))
  | [] => []
  | item :: rest => item.leafPaths.map (Step.index i :: ·) ++ leafPathsItems (i + 1) rest

def leafPathsEntries : List (κ × Tree κ α) → List (List (Step κ))
  | [] => []
  | (key, value) :: rest => value.leafPaths.map (Step.key key :: ·) ++ leafPathsEntries rest

end

theorem distinctKeysItems_iff {items : List (Tree κ α)} :
    distinctKeysItems items = true ↔ ∀ item ∈ items, item.distinctKeys = true := by
  induction items with
  | nil => simp [distinctKeysItems]
  | cons item items ih => simp [distinctKeysItems, ih]

omit [DecidableEq κ] in
theorem mem_leafPathsItems {i : ℕ} {items : List (Tree κ α)} :
    path ∈ leafPathsItems i items ↔
      ∃ j item rest, items[j]? = some item ∧ rest ∈ item.leafPaths ∧
        path = .index (i + j) :: rest := by
  induction items generalizing i with
  | nil => simp [leafPathsItems]
  | cons item items ih =>
    rw [leafPathsItems, mem_append, mem_map, ih]
    constructor
    · rintro (⟨rest, hrest, rfl⟩ | ⟨j, found, rest, hfound, hrest, rfl⟩)
      · exact ⟨0, item, rest, rfl, hrest, rfl⟩
      · exact ⟨j + 1, found, rest, hfound, hrest, by rw [Nat.add_right_comm, Nat.add_assoc]⟩
    · rintro ⟨j, found, rest, hfound, hrest, rfl⟩
      cases j with
      | zero =>
        cases hfound
        exact .inl ⟨rest, hrest, rfl⟩
      | succ j =>
        exact .inr ⟨j, found, rest, hfound, hrest, by rw [Nat.add_right_comm, Nat.add_assoc]⟩

omit [DecidableEq κ] in
theorem mem_leafPathsEntries {entries : List (κ × Tree κ α)} :
    path ∈ leafPathsEntries entries ↔
      ∃ key value rest, (key, value) ∈ entries ∧ rest ∈ value.leafPaths ∧
        path = .key key :: rest := by
  induction entries with
  | nil => simp [leafPathsEntries]
  | cons entry entries ih =>
    obtain ⟨k, v⟩ := entry
    rw [leafPathsEntries, mem_append, mem_map, ih]
    constructor
    · rintro (⟨rest, hrest, rfl⟩ | ⟨key, value, rest, hmem, hrest, rfl⟩)
      · exact ⟨k, v, rest, mem_cons_self, hrest, rfl⟩
      · exact ⟨key, value, rest, mem_cons_of_mem _ hmem, hrest, rfl⟩
    · rintro ⟨key, value, rest, hmem, hrest, rfl⟩
      rcases mem_cons.1 hmem with heq | hmem
      · cases heq
        exact .inl ⟨rest, hrest, rfl⟩
      · exact .inr ⟨key, value, rest, hmem, hrest, rfl⟩

theorem mem_leafPaths (h : t.distinctKeys = true) :
    path ∈ t.leafPaths ↔ leaf? path t ≠ none := by
  induction path generalizing t with
  | nil =>
    cases t with
    | scalar a => simp [leafPaths, leaf?_nil_scalar]
    | array items => simp [leafPaths, leaf?_nil_array, mem_leafPathsItems]
    | table entries => simp [leafPaths, leaf?_nil_table, mem_leafPathsEntries]
  | cons step path ih =>
    cases t with
    | scalar a => simp [leafPaths, leaf?_step, child?_scalar]
    | array items =>
      rw [distinctKeys, distinctKeysItems_iff] at h
      rw [leafPaths, mem_leafPathsItems]
      cases step with
      | key k => simp [leaf?_step, child?_array_key]
      | index i =>
        simp only [Nat.zero_add, List.cons.injEq, Step.index.injEq, leaf?_step, child?_array_index]
        constructor
        · rintro ⟨j, item, rest, hitem, hrest, rfl, rfl⟩
          rw [hitem]
          exact (ih (h item (mem_of_getElem? hitem))).1 hrest
        · intro hleaf
          cases hitem : items[i]? with
          | none => simp [hitem] at hleaf
          | some item =>
            rw [hitem] at hleaf
            exact ⟨i, item, path, hitem, (ih (h item (mem_of_getElem? hitem))).2 hleaf, rfl, rfl⟩
    | table entries =>
      rw [distinctKeys_table] at h
      rw [leafPaths, mem_leafPathsEntries]
      cases step with
      | index i => simp [leaf?_step, child?_table_index]
      | key k =>
        simp only [List.cons.injEq, Step.key.injEq, leaf?_step, child?_table_key]
        constructor
        · rintro ⟨key, value, rest, hmem, hrest, rfl, rfl⟩
          rw [Entries.get?_of_mem h.1 hmem]
          exact (ih (h.2 _ hmem)).1 hrest
        · intro hleaf
          cases hvalue : Entries.get? k entries with
          | none => simp [hvalue] at hleaf
          | some value =>
            rw [hvalue] at hleaf
            have hmem := Entries.mem_of_get? hvalue
            exact ⟨k, value, path, hmem, (ih (h.2 _ hmem)).2 hleaf, rfl, rfl⟩

theorem leaf?_cons {step : Step κ} (h : leaf? (step :: path) t ≠ none) :
    ∃ child, t.child? step = some child ∧ leaf? path child ≠ none := by
  rw [leaf?_step] at h
  cases hchild : t.child? step with
  | none => simp [hchild] at h
  | some child =>
    rw [hchild] at h
    exact ⟨child, rfl, h⟩

section AllKeys

variable {test : κ → Bool}

omit [DecidableEq κ] in
theorem allKeysItems_iff {items : List (Tree κ α)} :
    allKeysItems test items = true ↔ ∀ item ∈ items, item.allKeys test = true := by
  induction items with
  | nil => simp [allKeysItems]
  | cons item items ih => simp [allKeysItems, ih]

omit [DecidableEq κ] in
theorem allKeysEntries_iff {entries : List (κ × Tree κ α)} :
    allKeysEntries test entries = true ↔
      ∀ entry ∈ entries, test entry.1 = true ∧ entry.2.allKeys test = true := by
  induction entries with
  | nil => simp [allKeysEntries]
  | cons entry entries ih => simp [allKeysEntries, ih]

/-- The keys on the way to a scalar are among the keys of the tree. -/
theorem allKeys_leaf (h : t.allKeys test = true) (hleaf : leaf? path t ≠ none) :
    ∀ k, Step.key k ∈ path → test k = true := by
  induction path generalizing t with
  | nil => simp
  | cons step path ih =>
    obtain ⟨child, hchild, hbelow⟩ := leaf?_cons hleaf
    intro k hk
    cases t with
    | scalar a => cases hchild
    | array items =>
      rw [allKeys, allKeysItems_iff] at h
      cases step with
      | key k' => cases hchild
      | index i =>
        have hmem : Step.key k ∈ path := by simpa using hk
        exact ih (h child (mem_of_getElem? hchild)) hbelow k hmem
    | table entries =>
      rw [allKeys, allKeysEntries_iff] at h
      cases step with
      | index i => cases hchild
      | key k' =>
        obtain ⟨hkey, hvalue⟩ := h _ (Entries.mem_of_get? hchild)
        rcases mem_cons.1 hk with heq | hmem
        · cases heq
          exact hkey
        · exact ih hvalue hbelow k hmem

end AllKeys

/-! ## Paths as they are written

Writing a step down forgets whether it is a key or an index. -/

section Render

variable {σ : Type} {render : Step κ → σ} {path' : List (Step κ)}

/-- Different keys, and different indices, are written differently. -/
structure Renders (render : Step κ → σ) : Prop where
  key : ∀ k k', render (.key k) = render (.key k') → k = k'
  index : ∀ i i', render (.index i) = render (.index i') → i = i'

/-- The children of one tree are written differently. -/
theorem Renders.step_unique (hrender : Renders render) {step step' : Step κ} {child child' : Tree κ α}
    (h : t.child? step = some child) (h' : t.child? step' = some child')
    (heq : render step = render step') : step = step' := by
  cases t with
  | scalar a => cases h
  | array items =>
    cases step with
    | key k => cases h
    | index i =>
      cases step' with
      | key k => cases h'
      | index i' => rw [hrender.index i i' heq]
  | table entries =>
    cases step with
    | index i => cases h
    | key k =>
      cases step' with
      | index i => cases h'
      | key k' => rw [hrender.key k k' heq]

/-- In one tree, scalars at different places are written differently. -/
theorem Renders.leaf_unique (hrender : Renders render) (h : leaf? path t ≠ none)
    (h' : leaf? path' t ≠ none) (heq : path.map render = path'.map render) : path = path' := by
  induction path generalizing t path' with
  | nil => exact (map_eq_nil_iff.1 heq.symm).symm
  | cons step path ih =>
    obtain ⟨step', path', rfl, hstep, hpath⟩ := map_eq_cons_iff.1 heq.symm
    obtain ⟨child, hchild, hleaf⟩ := leaf?_cons h
    obtain ⟨child', hchild', hleaf'⟩ := leaf?_cons h'
    obtain rfl := hrender.step_unique hchild hchild' hstep.symm
    obtain rfl := Option.some_inj.1 (hchild.symm.trans hchild')
    rw [ih hleaf hleaf' hpath.symm]

/-- A tree with a scalar that is written like another path displaces that path. -/
theorem Renders.displaces_of_leaf (hrender : Renders render) (h' : leaf? path' t ≠ none)
    (heq : path.map render = path'.map render) (hne : path ≠ path') :
    displaces path t = true := by
  induction path' generalizing t path with
  | nil => exact absurd (map_eq_nil_iff.1 heq) hne
  | cons step' path' ih =>
    obtain ⟨step, path, rfl, hstep, hpath⟩ := map_eq_cons_iff.1 heq
    obtain ⟨child, hchild, hleaf⟩ := leaf?_cons h'
    cases step with
    | index i => cases t <;> rfl
    | key k =>
      cases t with
      | scalar _ | array _ => rfl
      | table entries =>
        cases step' with
        | index i => cases hchild
        | key k' =>
          obtain rfl := hrender.key k k' hstep
          have hget : Entries.get? k entries = some child := hchild
          simp only [displaces_key_table, hget]
          exact ih hleaf hpath fun hpaths => hne (by rw [hpaths])

end Render

end Tree

end Codex
