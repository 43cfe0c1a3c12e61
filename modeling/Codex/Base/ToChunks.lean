import Mathlib.Algebra.Order.Floor.Div
import Mathlib.Data.List.Basic

/-!
# Lists in chunks

`List.toChunks n` cuts a list into chunks of `n` elements, of which the last may
be shorter. There are `length ⌈/⌉ n` of them, and together they are the list.
-/

namespace Codex

open List

variable {α : Type} {n : ℕ} {l : List α}

theorem toChunks_cons_eq_go (hn : 0 < n) (x : α) (xs : List α) :
    (x :: xs).toChunks n = List.toChunks.go n xs #[x] #[] := by
  obtain ⟨m, rfl⟩ := Nat.exists_eq_succ_of_ne_zero (Nat.ne_of_gt hn)
  rfl

/-- What is still cut when one chunk is being filled and others are full. -/
theorem toChunks_go (hn : 0 < n) (xs : List α) (filling : Array α) (full : Array (List α))
    (hfits : filling.size ≤ n) :
    List.toChunks.go n xs filling full = full.toList ++
      (filling.toList ++ xs).take n :: ((filling.toList ++ xs).drop n).toChunks n := by
  induction xs generalizing filling full with
  | nil =>
    rw [append_nil, take_of_length_le hfits, drop_of_length_le hfits, List.toChunks]
    exact Array.toList_push
  | cons x xs ih =>
    unfold List.toChunks.go
    by_cases hfull : filling.size = n
    · -- the chunk is done, and `x` starts the next one
      have hnext : (x :: xs).toChunks n = _ :=
        (toChunks_cons_eq_go hn x xs).trans (ih #[x] #[] hn)
      rw [if_pos (beq_iff_eq.2 hfull), take_left' hfull, drop_left' hfull, hnext,
        ih ((Array.mkEmpty n).push x) _ hn]
      simp
    · rw [if_neg (by simpa using hfull), ih _ _ (by rw [Array.size_push]; omega)]
      simp

theorem toChunks_of_ne_nil (hn : 0 < n) (hl : l ≠ []) :
    l.toChunks n = l.take n :: (l.drop n).toChunks n := by
  cases l with
  | nil => exact absurd rfl hl
  | cons x xs => exact (toChunks_cons_eq_go hn x xs).trans (toChunks_go hn xs #[x] #[] hn)

/-- **The induction on chunks**: what holds without elements, and with one chunk more. -/
theorem toChunks_induction {P : List α → List (List α) → Prop} (hn : 0 < n) (hnil : P [] [])
    (hcons : ∀ l chunks, l ≠ [] → P (l.drop n) chunks → P l (l.take n :: chunks)) (l : List α) :
    P l (l.toChunks n) := by
  generalize hlen : l.length = len
  induction len using Nat.strong_induction_on generalizing l with
  | _ len ih =>
    rcases eq_or_ne l [] with rfl | hl
    · rw [List.toChunks]
      exact hnil
    · have hpos := length_pos_iff.2 hl
      rw [toChunks_of_ne_nil hn hl]
      exact hcons l _ hl (ih (l.drop n).length (by rw [length_drop]; omega) _ rfl)

theorem flatten_toChunks (hn : 0 < n) (l : List α) : (l.toChunks n).flatten = l := by
  refine toChunks_induction hn (P := fun l chunks => chunks.flatten = l) rfl ?_ l
  intro l chunks _ ih
  rw [flatten_cons, ih, take_append_drop]

theorem ceilDiv_eq_succ {a : ℕ} (hn : 0 < n) (ha : 0 < a) : a ⌈/⌉ n = (a - n) ⌈/⌉ n + 1 := by
  rw [Nat.ceilDiv_eq_add_pred_div, Nat.ceilDiv_eq_add_pred_div]
  rcases Nat.le_total a n with hle | hle
  · rw [Nat.sub_eq_zero_of_le hle, Nat.zero_add, Nat.div_eq_of_lt (show n - 1 < n by omega)]
    exact Nat.div_eq_of_lt_le (by omega) (by omega)
  · rw [← Nat.add_div_right _ hn]
    congr 1
    omega

theorem length_toChunks (hn : 0 < n) (l : List α) : (l.toChunks n).length = l.length ⌈/⌉ n := by
  refine toChunks_induction hn (P := fun l chunks => chunks.length = l.length ⌈/⌉ n)
    (zero_ceilDiv n).symm ?_ l
  intro l chunks hl ih
  rw [length_cons, ih, length_drop, ceilDiv_eq_succ hn (length_pos_iff.2 hl)]

theorem length_le_of_mem_toChunks (hn : 0 < n) (l : List α) :
    ∀ chunk ∈ l.toChunks n, chunk.length ≤ n := by
  refine toChunks_induction hn (P := fun _ chunks => ∀ chunk ∈ chunks, chunk.length ≤ n) nofun ?_ l
  rintro l chunks - ih chunk hchunk
  rcases mem_cons.1 hchunk with rfl | hchunk
  · exact length_take_le n l
  · exact ih chunk hchunk

end Codex
