import Mathlib.Data.List.AList
import Mathlib.Data.List.Basic
import Mathlib.Data.List.Nodup
import Mathlib.Data.List.ReduceOption

/-!
# Coalescing changes

Changes with a key that overwrite each other (`Overwrites`) can be collected
before they are made: of several changes with one key only the last is kept, at
the place of the first (`foldl_replace`). `Slots` is the usual way to collect
them, a vector with gaps and a map from keys to positions; `compact` is what it
holds.
-/

namespace Codex

open List

variable {σ β κ : Type} [DecidableEq κ]

/-! ## Changes that overwrite each other -/

/-- `act s b` makes the change `b`. Once the place of a key is there, a change to it can be made
before a change to another key as well as after it. -/
structure Overwrites (act : σ → β → σ) (key : β → κ) (Present : κ → σ → Prop) : Prop where
  present : ∀ s b, Present (key b) (act s b)
  present_mono : ∀ s b k, Present k s → Present k (act s b)
  overwrite : ∀ s b b', key b = key b' → act (act s b) b' = act s b'
  comm : ∀ s b b', key b ≠ key b' → Present (key b') s → act (act s b) b' = act (act s b') b

section

variable {act : σ → β → σ} {key : β → κ} {Present : κ → σ → Prop} {s : σ} {b : β} {l : List β}

/-- The list with the entry of `b`'s key replaced by `b`. -/
def replaceKey (key : β → κ) (b : β) (l : List β) : List β :=
  l.map fun c => if key c = key b then b else c

theorem replaceKey_of_notMem (h : key b ∉ l.map key) : replaceKey key b l = l := by
  have hid : ∀ c ∈ l, (if key c = key b then b else c) = c := by
    intro c hc
    rw [if_neg]
    exact fun heq => h (heq ▸ mem_map_of_mem hc)
  rw [replaceKey, map_congr_left hid, map_id']

omit [DecidableEq κ] in
theorem Overwrites.foldl_comm (h : Overwrites act key Present) (hb : key b ∉ l.map key)
    (hs : Present (key b) s) : act (l.foldl act s) b = l.foldl act (act s b) := by
  induction l generalizing s with
  | nil => rfl
  | cons c l ih =>
    simp only [map_cons, mem_cons, not_or] at hb
    rw [foldl_cons, foldl_cons, ih hb.2 (h.present_mono s c _ hs),
      h.comm s c b (Ne.symm hb.1) hs]

/-- **The last change, at the place of the first.** -/
theorem Overwrites.foldl_replace (h : Overwrites act key Present) (hl : (l.map key).Nodup)
    (hb : key b ∈ l.map key) : (replaceKey key b l).foldl act s = act (l.foldl act s) b := by
  induction l generalizing s with
  | nil => simp at hb
  | cons c l ih =>
    simp only [map_cons, nodup_cons] at hl
    by_cases hc : key c = key b
    · have hnot : key b ∉ l.map key := hc ▸ hl.1
      have hcons : replaceKey key b (c :: l) = b :: l := by
        rw [replaceKey, map_cons, if_pos hc, ← replaceKey, replaceKey_of_notMem hnot]
      rw [hcons, foldl_cons, foldl_cons, h.foldl_comm hnot (hc ▸ h.present s c),
        h.overwrite s c b hc]
    · have hcons : replaceKey key b (c :: l) = c :: replaceKey key b l := by
        rw [replaceKey, map_cons, if_neg hc, ← replaceKey]
      simp only [map_cons, mem_cons] at hb
      rw [hcons, foldl_cons, foldl_cons, ih hl.2 (hb.resolve_left (Ne.symm hc))]

end

/-! ## Slots -/

/-- A vector of changes, where removed ones leave a gap, and the position of each key. -/
structure Slots (κ β : Type) [DecidableEq κ] where
  entries : List (Option β) := []
  indexes : AList fun _ : κ => Nat := ∅

namespace Slots

variable {key : β → κ} {slots : Slots κ β} {b : β} {k : κ} {i : Nat}

def put (key : β → κ) (slots : Slots κ β) (b : β) : Slots κ β :=
  match slots.indexes.lookup (key b) with
  | some i => { slots with entries := slots.entries.set i (some b) }
  | none =>
    { entries := slots.entries ++ [some b]
      indexes := slots.indexes.insert (key b) slots.entries.length }

def dropKey (slots : Slots κ β) (k : κ) : Slots κ β :=
  match slots.indexes.lookup k with
  | some i =>
    { entries := slots.entries.set i none
      indexes := slots.indexes.erase k }
  | none => slots

/-- What is left, in order. -/
def compact (slots : Slots κ β) : List β := slots.entries.reduceOption

theorem compact_empty : ({} : Slots κ β).compact = [] := rfl

/-- The map points at the entries of its keys, and at all of them. -/
def Indexed (key : β → κ) (slots : Slots κ β) : Prop :=
  ∀ k i, slots.indexes.lookup k = some i ↔ ∃ b, slots.entries[i]? = some (some b) ∧ key b = k

theorem indexed_empty (key : β → κ) : Indexed key ({} : Slots κ β) := by
  intro k i
  simp

/-- The entry of a key stands between others. -/
theorem Indexed.split (h : Indexed key slots) (hi : slots.indexes.lookup k = some i) :
    ∃ pre b post, slots.entries = pre ++ some b :: post ∧ pre.length = i ∧ key b = k ∧
      k ∉ pre.reduceOption.map key ∧ k ∉ post.reduceOption.map key := by
  obtain ⟨b, hb, hkey⟩ := (h k i).1 hi
  obtain ⟨hlt, hget⟩ := List.getElem?_eq_some_iff.1 hb
  have hone : ∀ j c, slots.entries[j]? = some (some c) → key c = k → j = i := by
    intro j c hc hck
    have := (h k j).2 ⟨c, hc, hck⟩
    rw [hi] at this
    exact (Option.some.inj this).symm
  refine ⟨slots.entries.take i, b, slots.entries.drop (i + 1), ?_, ?_, hkey, ?_, ?_⟩
  · rw [← hget, getElem_cons_drop, take_append_drop]
  · rw [length_take, min_eq_left (Nat.le_of_lt hlt)]
  · intro hmem
    obtain ⟨c, hc, hck⟩ := mem_map.1 hmem
    obtain ⟨j, hj⟩ := mem_iff_getElem?.1 (reduceOption_mem_iff.1 hc)
    rw [getElem?_take] at hj
    split at hj
    · next hji => exact absurd (hone j c hj hck) (by omega)
    · cases hj
  · intro hmem
    obtain ⟨c, hc, hck⟩ := mem_map.1 hmem
    obtain ⟨j, hj⟩ := mem_iff_getElem?.1 (reduceOption_mem_iff.1 hc)
    rw [getElem?_drop] at hj
    exact absurd (hone _ c hj hck) (by omega)

theorem Indexed.mem_keys (h : Indexed key slots) :
    k ∈ slots.compact.map key ↔ k ∈ slots.indexes := by
  rw [← AList.lookup_isSome, Option.isSome_iff_exists]
  simp only [h k, compact, mem_map, reduceOption_mem_iff]
  constructor
  · rintro ⟨b, hb, hkey⟩
    obtain ⟨i, hi⟩ := mem_iff_getElem?.1 hb
    exact ⟨i, b, hi, hkey⟩
  · rintro ⟨i, b, hi, hkey⟩
    exact ⟨b, mem_iff_getElem?.2 ⟨i, hi⟩, hkey⟩

theorem reduceOption_split {pre post : List (Option β)} :
    (pre ++ some b :: post).reduceOption = pre.reduceOption ++ b :: post.reduceOption := by
  rw [reduceOption_append, reduceOption_cons_of_some]

/-- A change to a key that is there replaces the entry; otherwise it comes last. -/
theorem Indexed.compact_put (h : Indexed key slots) :
    (slots.put key b).compact =
      if key b ∈ slots.compact.map key then replaceKey key b slots.compact
      else slots.compact ++ [b] := by
  unfold put
  cases hi : slots.indexes.lookup (key b) with
  | none =>
    have hnot : key b ∉ slots.compact.map key := by
      rw [h.mem_keys, ← AList.lookup_eq_none]
      exact hi
    rw [if_neg hnot]
    simp [compact, List.reduceOption]
  | some i =>
    obtain ⟨pre, c, post, hsplit, hlen, hkey, hpre, hpost⟩ := h.split hi
    have hmem : key b ∈ slots.compact.map key := by
      rw [h.mem_keys, ← AList.lookup_isSome, hi]
      rfl
    have hset : slots.entries.set i (some b) = pre ++ some b :: post := by
      rw [hsplit, ← hlen, set_append_right _ _ le_rfl, Nat.sub_self, set_cons_zero]
    rw [if_pos hmem]
    simp only [compact, hset]
    rw [hsplit, reduceOption_split, reduceOption_split, replaceKey, map_append,
      map_cons, if_pos hkey, ← replaceKey, ← replaceKey,
      replaceKey_of_notMem hpre, replaceKey_of_notMem hpost]

theorem Indexed.compact_dropKey (h : Indexed key slots) :
    (slots.dropKey k).compact = slots.compact.filter fun b => key b ≠ k := by
  unfold dropKey
  have hkeep : ∀ l : List β, k ∉ l.map key → l.filter (fun b => key b ≠ k) = l := by
    intro l hl
    rw [filter_eq_self]
    intro b hb
    simp only [ne_eq, decide_not, Bool.not_eq_eq_eq_not, Bool.not_true, decide_eq_false_iff_not]
    exact fun heq => hl (heq ▸ mem_map_of_mem hb)
  cases hi : slots.indexes.lookup k with
  | none =>
    have hnot : k ∉ slots.compact.map key := by
      rw [h.mem_keys, ← AList.lookup_eq_none]
      exact hi
    exact (hkeep _ hnot).symm
  | some i =>
    obtain ⟨pre, c, post, hsplit, hlen, hkey, hpre, hpost⟩ := h.split hi
    have hset : slots.entries.set i none = pre ++ none :: post := by
      rw [hsplit, ← hlen, set_append_right _ _ le_rfl, Nat.sub_self, set_cons_zero]
    simp only [compact, hset]
    rw [hsplit, reduceOption_split, reduceOption_append,
      reduceOption_cons_of_none, filter_append,
      filter_cons, hkeep _ hpre, hkeep _ hpost]
    simp [hkey]

theorem Indexed.put (h : Indexed key slots) (b : β) : Indexed key (slots.put key b) := by
  intro k i
  unfold Slots.put
  cases hi : slots.indexes.lookup (key b) with
  | none =>
    simp only [getElem?_append]
    by_cases hk : k = key b
    · subst hk
      rw [AList.lookup_insert, Option.some.injEq]
      split
      · next hlt =>
        refine iff_of_false (by omega) fun ⟨c, hc, hkey⟩ => ?_
        have := (h (key b) i).2 ⟨c, hc, hkey⟩
        rw [hi] at this
        cases this
      · next hge =>
        constructor
        · rintro rfl
          exact ⟨b, by simp, rfl⟩
        · rintro ⟨c, hc, -⟩
          have hzero : i - slots.entries.length = 0 := by
            by_contra hne
            rw [getElem?_eq_none (by simp; omega)] at hc
            cases hc
          omega
    · rw [AList.lookup_insert_ne hk, h k i]
      split
      · rfl
      · next hge =>
        rw [getElem?_eq_none (by omega)]
        refine iff_of_false (by simp) fun ⟨c, hc, hkey⟩ => ?_
        obtain ⟨_, hget⟩ := List.getElem?_eq_some_iff.1 hc
        rw [getElem_singleton, Option.some.injEq] at hget
        rw [← hkey, hget] at hk
        exact hk rfl
  | some j =>
    obtain ⟨c, hc, hkey⟩ := (h (key b) j).1 hi
    obtain ⟨hlt, -⟩ := List.getElem?_eq_some_iff.1 hc
    simp only [getElem?_set]
    split
    · next hji =>
      subst hji
      rw [h k j, hc]
      constructor
      · rintro ⟨d, hd, rfl⟩
        cases hd
        exact ⟨b, rfl, hkey.symm⟩
      · rintro ⟨d, hd, rfl⟩
        cases hd
        exact ⟨c, rfl, hkey⟩
    · exact h k i

theorem Indexed.dropKey (h : Indexed key slots) (k : κ) : Indexed key (slots.dropKey k) := by
  intro k' i
  unfold Slots.dropKey
  cases hj : slots.indexes.lookup k with
  | none => exact h k' i
  | some j =>
    obtain ⟨c, hc, hkey⟩ := (h k j).1 hj
    simp only [getElem?_set]
    by_cases hk : k' = k
    · subst hk
      rw [AList.lookup_erase]
      refine iff_of_false (by simp) fun ⟨d, hd, hdkey⟩ => ?_
      split at hd
      · split at hd
        · cases hd
        · cases hd
      · next hne =>
        have := (h k' i).2 ⟨d, hd, hdkey⟩
        rw [hj] at this
        exact hne (Option.some.inj this)
    · rw [AList.lookup_erase_ne hk, h k' i]
      split
      · next hji =>
        subst hji
        rw [hc]
        refine iff_of_false ?_ ?_
        · rintro ⟨d, hd, hdkey⟩
          cases hd
          exact hk (hdkey.symm.trans hkey)
        · rintro ⟨d, hd, -⟩
          split at hd
          · cases hd
          · cases hd
      · rfl

theorem Indexed.dropKeys (h : Indexed key slots) (ks : List κ) :
    Indexed key (ks.foldl Slots.dropKey slots) := by
  induction ks generalizing slots with
  | nil => exact h
  | cons k ks ih => exact ih (h.dropKey k)

theorem Indexed.compact_dropKeys (h : Indexed key slots) (ks : List κ) :
    (ks.foldl Slots.dropKey slots).compact = slots.compact.filter fun b => key b ∉ ks := by
  induction ks generalizing slots with
  | nil => simp
  | cons k ks ih =>
    rw [foldl_cons, ih (h.dropKey k), h.compact_dropKey, filter_filter]
    refine filter_congr fun b _ => ?_
    simp [Bool.and_comm]

/-- Each key has one entry. -/
theorem Indexed.nodup (h : Indexed key slots) : (slots.compact.map key).Nodup := by
  have hpair : slots.entries.Pairwise fun x y => ∀ a ∈ x, ∀ b ∈ y, key a ≠ key b := by
    rw [pairwise_iff_getElem]
    rintro i j hi hj hij a ha b hb hkey
    have hai := (h (key b) i).2 ⟨a, by rw [getElem?_eq_getElem hi]; exact congrArg some ha, hkey⟩
    have hbj := (h (key b) j).2 ⟨b, by rw [getElem?_eq_getElem hj]; exact congrArg some hb, rfl⟩
    rw [hai] at hbj
    exact absurd (Option.some.inj hbj) (by omega)
  rw [compact, List.Nodup, pairwise_map, List.reduceOption, pairwise_filterMap]
  exact hpair

/-- To make the changes that are left after a new one is the same as to make the new one last. -/
theorem Indexed.foldl_put {act : σ → β → σ} {Present : κ → σ → Prop}
    (hact : Overwrites act key Present) (h : Indexed key slots) (s : σ) :
    (slots.put key b).compact.foldl act s = act (slots.compact.foldl act s) b := by
  rw [h.compact_put]
  split
  · next hmem => exact hact.foldl_replace h.nodup hmem
  · rw [foldl_append]
    rfl

end Slots

end Codex
