import Mathlib.Data.List.AList
import Mathlib.Data.List.Induction

/-!
# Collections filled by a loop

`insertAll l` is the map a loop builds that inserts the pairs of `l` in order:
of several values for one key, the last one stays. `pushUnique l` is the list a
loop builds that pushes what it does not contain yet.
-/

namespace Codex

open List

variable {α β : Type} [DecidableEq α]

def insertAll (l : List (α × β)) : AList fun _ : α => β :=
  l.foldl (fun m kv => m.insert kv.1 kv.2) ∅

theorem insertAll_concat (l : List (α × β)) (kv : α × β) :
    insertAll (l ++ [kv]) = (insertAll l).insert kv.1 kv.2 := by
  rw [insertAll, foldl_append]
  rfl

theorem mem_insertAll {l : List (α × β)} {a : α} : a ∈ insertAll l ↔ ∃ b, (a, b) ∈ l := by
  induction l using List.reverseRecOn with
  | nil => simp [insertAll]
  | append_singleton l kv ih =>
    rw [insertAll_concat, AList.mem_insert, ih]
    obtain ⟨k, v⟩ := kv
    simp only [mem_append, mem_singleton, Prod.mk.injEq]
    constructor
    · rintro (rfl | ⟨b, hb⟩)
      · exact ⟨v, .inr ⟨rfl, rfl⟩⟩
      · exact ⟨b, .inl hb⟩
    · rintro ⟨b, hb | ⟨rfl, rfl⟩⟩
      · exact .inr ⟨b, hb⟩
      · exact .inl rfl

/-- **The last value wins.** -/
theorem lookup_insertAll {l : List (α × β)} {a : α} {b : β} :
    (insertAll l).lookup a = some b ↔
      ∃ pre post, l = pre ++ (a, b) :: post ∧ ∀ kv ∈ post, kv.1 ≠ a := by
  induction l using List.reverseRecOn with
  | nil => simp [insertAll]
  | append_singleton l kv ih =>
    obtain ⟨k, v⟩ := kv
    rw [insertAll_concat]
    by_cases hk : k = a
    · subst hk
      rw [AList.lookup_insert]
      constructor
      · rintro ⟨⟩
        exact ⟨l, [], rfl, by simp⟩
      · rintro ⟨pre, post, heq, hpost⟩
        rcases eq_nil_or_concat' post with rfl | ⟨init, last, rfl⟩
        · rw [append_singleton_inj] at heq
          exact congrArg some (Prod.mk.inj heq.2).2
        · rw [← cons_append, ← List.append_assoc, append_singleton_inj] at heq
          exact absurd (congrArg Prod.fst heq.2).symm (hpost last (by simp))
    · rw [AList.lookup_insert_ne (Ne.symm hk), ih]
      constructor
      · rintro ⟨pre, post, rfl, hpost⟩
        refine ⟨pre, post ++ [(k, v)], by simp, ?_⟩
        intro kv hkv
        rcases mem_append.1 hkv with h | h
        · exact hpost kv h
        · rw [mem_singleton.1 h]
          exact hk
      · rintro ⟨pre, post, heq, hpost⟩
        rcases eq_nil_or_concat' post with rfl | ⟨init, last, rfl⟩
        · rw [append_singleton_inj] at heq
          exact absurd (congrArg Prod.fst heq.2) hk
        · rw [← cons_append, ← List.append_assoc, append_singleton_inj] at heq
          exact ⟨pre, init, heq.1, fun kv hkv => hpost kv (by simp [hkv])⟩

/-! ## Lists without repetition -/

def pushUnique (pushed : List α) (l : List α) : List α :=
  l.foldl (fun acc a => if a ∈ acc then acc else acc ++ [a]) pushed

theorem mem_pushUnique {pushed l : List α} {x : α} :
    x ∈ pushUnique pushed l ↔ x ∈ pushed ∨ x ∈ l := by
  induction l generalizing pushed with
  | nil => simp [pushUnique]
  | cons a l ih =>
    have hcons : pushUnique pushed (a :: l) =
        pushUnique (if a ∈ pushed then pushed else pushed ++ [a]) l := rfl
    rw [hcons, ih, mem_cons]
    by_cases ha : a ∈ pushed
    · rw [if_pos ha]
      refine or_congr_right' fun hx => ⟨.inr, ?_⟩
      rintro (rfl | h)
      · exact absurd ha hx
      · exact h
    · rw [if_neg ha, mem_append, mem_singleton, or_assoc]

theorem pushUnique_of_nodup {pushed l : List α} (h : (pushed ++ l).Nodup) :
    pushUnique pushed l = pushed ++ l := by
  induction l generalizing pushed with
  | nil => rw [append_nil, pushUnique, foldl_nil]
  | cons a l ih =>
    have hcons : pushUnique pushed (a :: l) =
        pushUnique (if a ∈ pushed then pushed else pushed ++ [a]) l := rfl
    have ha : a ∉ pushed := fun hmem =>
      (nodup_append.1 h).2.2 a hmem a mem_cons_self rfl
    rw [hcons, if_neg ha, ih, List.append_assoc, singleton_append]
    rwa [List.append_assoc, singleton_append]

/-- What is left out comes a second time, so a search does not miss it. -/
theorem findSome?_pushUnique (f : α → Option β) (pushed l : List α) :
    (pushUnique pushed l).findSome? f = (pushed ++ l).findSome? f := by
  induction l generalizing pushed with
  | nil => rw [append_nil, pushUnique, foldl_nil]
  | cons a l ih =>
    have hcons : pushUnique pushed (a :: l) =
        pushUnique (if a ∈ pushed then pushed else pushed ++ [a]) l := rfl
    rw [hcons, ih]
    by_cases ha : a ∈ pushed
    · rw [if_pos ha, findSome?_append, findSome?_append, findSome?_cons]
      cases hfound : pushed.findSome? f with
      | some b => rw [Option.some_or, Option.some_or]
      | none =>
        rw [findSome?_eq_none_iff.1 hfound a ha]
    · rw [if_neg ha, List.append_assoc, singleton_append]

end Codex
