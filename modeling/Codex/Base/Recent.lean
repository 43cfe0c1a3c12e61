import Mathlib.Data.Finset.Card
import Mathlib.Data.List.DropRight
import Mathlib.Data.List.Nodup

/-!
# The most recent entries of a log

A log that takes an entry only if the last `n` entries do not hold it repeats an
entry only after `n` other ones (`spaced_concat`). `List.rtake n` are the last `n`.
-/

namespace Codex.Recent

open List

variable {α : Type} {n : ℕ} {log : List α} {x : α}

theorem rtake_concat_of_lt (h : log.length < n) : (log ++ [x]).rtake n = log.rtake n ++ [x] := by
  unfold List.rtake
  rw [length_append, length_singleton, show log.length + 1 - n = 0 by omega,
    show log.length - n = 0 by omega]
  rfl

theorem rtake_concat_of_le (hn : 0 < n) (h : n ≤ log.length) :
    (log ++ [x]).rtake n = (log.rtake n).tail ++ [x] := by
  unfold List.rtake
  rw [length_append, length_singleton, tail_drop,
    drop_append_of_le_length (by omega), show log.length + 1 - n = log.length - n + 1 by omega]

theorem length_rtake : (log.rtake n).length = min n log.length := by
  unfold List.rtake
  rw [length_drop]
  omega

theorem rtake_append_of_le {more : List α} (h : n ≤ more.length) :
    (log ++ more).rtake n = more.rtake n := by
  unfold List.rtake
  rw [length_append,
    show log.length + more.length - n = log.length + (more.length - n) by omega,
    drop_append, drop_eq_nil_of_le (by omega), nil_append]
  congr 1
  omega

theorem mem_rtake_append {more : List α} (h : more.length < n) :
    x ∈ (log ++ x :: more).rtake n := by
  unfold List.rtake
  rw [length_append, length_cons, drop_append, mem_append]
  right
  rw [show log.length + (more.length + 1) - n - log.length = 0 by omega]
  exact mem_cons_self

variable [DecidableEq α]

/-- Between two occurrences of an entry there are at least `n` different other ones. -/
def Spaced (n : ℕ) (log : List α) : Prop :=
  ∀ before x between after, log = before ++ x :: (between ++ x :: after) →
    n ≤ (between.toFinset.erase x).card

theorem spaced_nil : Spaced n ([] : List α) := by
  intro before x between after h
  cases before <;> cases h

theorem spaced_concat (h : Spaced n log) (hnodup : (log.rtake n).Nodup) (hx : x ∉ log.rtake n) :
    Spaced n (log ++ [x]) := by
  intro before y between after hsplit
  rcases eq_nil_or_concat after with rfl | ⟨after, z, rfl⟩
  · -- The new entry is the second occurrence, so the last `n` entries are after the first one.
    have hsplit' : log ++ [x] = (before ++ y :: between) ++ [y] := by
      rw [hsplit, List.append_assoc, cons_append]
    obtain ⟨hlog, hxy⟩ := append_inj' hsplit' rfl
    cases hxy
    have hlong : n ≤ between.length := by
      by_contra hshort
      exact hx (hlog ▸ mem_rtake_append (Nat.lt_of_not_le hshort))
    have hrecent : log.rtake n = between.rtake n := by
      rw [hlog, append_cons, rtake_append_of_le hlong]
    rw [hrecent] at hnodup hx
    have hcard : (between.rtake n).toFinset.card = n := by
      rw [toFinset_card_of_nodup hnodup, length_rtake]
      omega
    rw [← hcard]
    refine Finset.card_le_card fun y hy => ?_
    rw [mem_toFinset] at hy
    rw [Finset.mem_erase, mem_toFinset]
    refine ⟨fun heq => hx (heq ▸ hy), ?_⟩
    exact mem_of_mem_drop hy
  · have hsplit' : log ++ [x] = (before ++ y :: (between ++ y :: after)) ++ [z] := by
      rw [hsplit]
      simp
    exact h before y between after (append_inj' hsplit' rfl).1

variable [BEq α] [LawfulBEq α]

omit [DecidableEq α] in
theorem exists_split_of_two_le_count (h : 2 ≤ log.count x) :
    ∃ before between after, log = before ++ x :: (between ++ x :: after) := by
  induction log with
  | nil => simp at h
  | cons y log ih =>
    by_cases hxy : y = x
    · subst hxy
      have hmem : y ∈ log := by
        rw [← count_pos_iff]
        rw [count_cons_self] at h
        omega
      obtain ⟨between, after, hsplit⟩ := append_of_mem hmem
      exact ⟨[], between, after, by rw [hsplit]; rfl⟩
    · rw [count_cons_of_ne hxy] at h
      obtain ⟨before, between, after, hsplit⟩ := ih h
      exact ⟨y :: before, between, after, by rw [hsplit]; rfl⟩

/-- A spaced log has an entry once, or again after `n` others. -/
theorem Spaced.count_le_one_or (h : Spaced n log) (x : α) : log.count x ≤ 1 ∨
    ∃ before between after, log = before ++ x :: (between ++ x :: after) ∧
      n ≤ (between.toFinset.erase x).card := by
  by_cases hcount : log.count x ≤ 1
  · exact .inl hcount
  · obtain ⟨before, between, after, hsplit⟩ := exists_split_of_two_le_count (Nat.lt_of_not_le hcount)
    exact .inr ⟨before, between, after, hsplit, h before x between after hsplit⟩

end Codex.Recent
