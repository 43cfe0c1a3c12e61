import Mathlib.Data.List.Basic

/-!
# Multimaps

A map from keys to the list of the values inserted under them, in the order of
insertion. The order between different keys is not observable: only `getVec`
reads the map, one key at a time.
-/

namespace Codex

open List

/-- The pairs, oldest first. -/
structure MultiMap (κ ν : Type) where
  entries : List (κ × ν) := []
  deriving DecidableEq

namespace MultiMap

variable {κ ν : Type} {m : MultiMap κ ν} {k k' : κ} {v v' : ν}

def insert (m : MultiMap κ ν) (k : κ) (v : ν) : MultiMap κ ν := ⟨m.entries ++ [(k, v)]⟩

/-- Every pair of the second map is inserted into the first. -/
def extend (m m' : MultiMap κ ν) : MultiMap κ ν :=
  m'.entries.foldl (fun acc kv => acc.insert kv.1 kv.2) m

@[simp] theorem mem_insert :
    (k', v') ∈ (m.insert k v).entries ↔ (k', v') ∈ m.entries ∨ (k' = k ∧ v' = v) := by
  simp [insert]

theorem entries_extend (m m' : MultiMap κ ν) : (m.extend m').entries = m.entries ++ m'.entries := by
  unfold extend
  generalize m'.entries = l
  induction l generalizing m with
  | nil => simp
  | cons kv l ih =>
    rw [foldl_cons, ih, insert]
    simp

variable [DecidableEq κ]

/-- The values under a key, if there is one. -/
def getVec (m : MultiMap κ ν) (k : κ) : Option (List ν) :=
  match (m.entries.filter (·.1 = k)).map Prod.snd with
  | [] => none
  | values => some values

theorem getD_getVec (m : MultiMap κ ν) (k : κ) :
    (m.getVec k).getD [] = (m.entries.filter (·.1 = k)).map Prod.snd := by
  unfold getVec
  split
  · next h => rw [h]; rfl
  · rfl

@[simp] theorem mem_getVec : v ∈ (m.getVec k).getD [] ↔ (k, v) ∈ m.entries := by
  rw [getD_getVec, mem_map]
  constructor
  · rintro ⟨⟨k', v'⟩, hmem, rfl⟩
    obtain ⟨h, hk⟩ := mem_filter.1 hmem
    obtain rfl : k' = k := of_decide_eq_true hk
    exact h
  · intro h
    exact ⟨(k, v), mem_filter.2 ⟨h, decide_eq_true rfl⟩, rfl⟩

theorem getVec_eq_none : m.getVec k = none ↔ ∀ v, (k, v) ∉ m.entries := by
  constructor
  · intro h v hv
    rw [← mem_getVec, h] at hv
    exact not_mem_nil hv
  · intro h
    unfold getVec
    split
    · rfl
    · next hne =>
      obtain ⟨v, hv⟩ := exists_mem_of_ne_nil _ (fun e => hne e)
      rw [← getD_getVec, mem_getVec] at hv
      exact absurd hv (h v)

end MultiMap

end Codex
