import Codex.Base.Tree
import Mathlib.Data.List.Perm.Basic
import Mathlib.Data.List.Count

/-!
# Tables as multisets

What an insertion or a removal does to a table up to the order of its entries,
which is what a count of them needs, and when two of them commute.
-/

namespace Codex.Entries

open List

variable {κ β : Type} [DecidableEq κ] {key key' : κ} {value value' : β} {entries : List (κ × β)}

theorem remove_of_notMem (h : key ∉ entries.map Prod.fst) : remove key entries = entries := by
  induction entries with
  | nil => rfl
  | cons entry entries ih =>
    rw [map_cons, mem_cons, not_or] at h
    rw [remove, if_neg (Ne.symm h.1), ih h.2]

theorem remove_sublist : (remove key entries).Sublist entries := by
  induction entries with
  | nil => exact List.Sublist.refl _
  | cons entry entries ih =>
    unfold remove
    split
    · exact ih.cons _
    · exact ih.cons_cons _

theorem fst_ne_of_mem_remove {entry : κ × β} (h : entry ∈ remove key entries) : entry.1 ≠ key := by
  induction entries with
  | nil => cases h
  | cons first entries ih =>
    unfold remove at h
    split at h
    · exact ih h
    · next hne =>
      rcases mem_cons.1 h with rfl | h
      · exact hne
      · exact ih h

theorem remove_eq_of_none (h : get? key entries = none) : remove key entries = entries :=
  remove_of_notMem (get?_eq_none.1 h)

theorem perm_of_get? (hnodup : (entries.map Prod.fst).Nodup) (h : get? key entries = some value) :
    entries.Perm ((key, value) :: remove key entries) := by
  induction entries with
  | nil => cases h
  | cons entry entries ih =>
    obtain ⟨k, v⟩ := entry
    rw [map_cons, nodup_cons] at hnodup
    by_cases hk : k = key
    · subst hk
      rw [get?, if_pos rfl] at h
      cases h
      rw [remove, if_pos rfl, remove_of_notMem hnodup.1]
    · rw [get?, if_neg hk] at h
      rw [remove, if_neg hk]
      exact ((ih hnodup.2 h).cons _).trans (List.Perm.swap _ _ _)

theorem remove_insert : remove key (insert key value entries) = remove key entries := by
  induction entries with
  | nil => simp only [insert, remove, if_pos]
  | cons entry entries ih =>
    obtain ⟨k, v⟩ := entry
    by_cases hk : k = key
    · simp only [insert, remove, if_pos hk]
    · simp only [insert, remove, if_neg hk, ih]

theorem perm_insert (hnodup : (entries.map Prod.fst).Nodup) :
    (insert key value entries).Perm ((key, value) :: remove key entries) := by
  have hget : get? key (insert key value entries) = some value := by simp
  have hperm := perm_of_get? (keys_insert_nodup hnodup) hget
  rwa [remove_insert] at hperm

theorem keys_insert_of_some (h : get? key entries = some value') :
    (insert key value entries).map Prod.fst = entries.map Prod.fst := by
  induction entries with
  | nil => cases h
  | cons entry entries ih =>
    obtain ⟨k, v⟩ := entry
    by_cases hk : k = key
    · subst hk
      rw [insert, if_pos rfl, map_cons, map_cons]
    · rw [get?, if_neg hk] at h
      rw [insert, if_neg hk, map_cons, map_cons, ih h]

theorem length_insert_of_none (h : get? key entries = none) :
    (insert key value entries).length = entries.length + 1 := by
  rw [insert_of_notMem (get?_eq_none.1 h), length_append, length_singleton]

theorem length_remove_of_some (hnodup : (entries.map Prod.fst).Nodup)
    (h : get? key entries = some value) : entries.length = (remove key entries).length + 1 := by
  rw [(perm_of_get? hnodup h).length_eq, length_cons]

theorem length_insert_of_some (hnodup : (entries.map Prod.fst).Nodup)
    (h : get? key entries = some value') : (insert key value entries).length = entries.length := by
  rw [(perm_insert hnodup).length_eq, length_cons, ← length_remove_of_some hnodup h]

theorem remove_remove : remove key (remove key' entries) = remove key' (remove key entries) := by
  induction entries with
  | nil => rfl
  | cons entry entries ih =>
    obtain ⟨k, v⟩ := entry
    by_cases hk : k = key
    · by_cases hk' : k = key'
      · simp only [remove, if_pos hk, if_pos hk', ih]
      · simp only [remove, if_pos hk, if_neg hk', ih]
    · by_cases hk' : k = key'
      · simp only [remove, if_neg hk, if_pos hk', ih]
      · simp only [remove, if_neg hk, if_neg hk', ih]

theorem remove_insert_of_ne (h : key ≠ key') :
    remove key (insert key' value entries) = insert key' value (remove key entries) := by
  induction entries with
  | nil => simp only [insert, remove, if_neg (Ne.symm h)]
  | cons entry entries ih =>
    obtain ⟨k, v⟩ := entry
    by_cases hk' : k = key'
    · have hk : ¬ k = key := fun heq => h (heq.symm.trans hk')
      simp only [insert, remove, if_pos hk', if_neg hk]
    · by_cases hk : k = key
      · simp only [insert, remove, if_neg hk', if_pos hk, ih]
      · simp only [insert, remove, if_neg hk', if_neg hk, ih]

end Codex.Entries
