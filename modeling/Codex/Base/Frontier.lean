import Mathlib.Data.Finset.Basic
import Mathlib.Data.Nat.Find
import Mathlib.Algebra.BigOperators.Group.Finset.Basic
import Mathlib.Data.Fintype.EquivFin

/-!
# The frontier of a set of sequence numbers

The first number that is missing from a finite set of numbers that have arrived,
and the numbers from some point on, which wait for it.
-/

namespace Codex

/-- The least number that has not arrived. -/
def frontier (arrived : Finset ℕ) : ℕ :=
  Nat.find (Infinite.exists_notMem_finset arrived)

/-- What has arrived from `start` on. -/
def waiting (arrived : Finset ℕ) (start : ℕ) : Finset ℕ := arrived.filter (start ≤ ·)

variable {arrived : Finset ℕ} {n start : ℕ}

theorem frontier_notMem (arrived : Finset ℕ) : frontier arrived ∉ arrived :=
  Nat.find_spec (Infinite.exists_notMem_finset arrived)

theorem mem_of_lt_frontier (h : n < frontier arrived) : n ∈ arrived :=
  not_not.1 (Nat.find_min (Infinite.exists_notMem_finset arrived) h)

theorem frontier_le (h : n ∉ arrived) : frontier arrived ≤ n :=
  Nat.find_min' (Infinite.exists_notMem_finset arrived) h

theorem frontier_eq (h : n ∉ arrived) (hlt : ∀ m < n, m ∈ arrived) : frontier arrived = n := by
  refine Nat.le_antisymm (frontier_le h) ?_
  by_contra hcon
  exact frontier_notMem arrived (hlt _ (Nat.lt_of_not_le hcon))

theorem frontier_le_of_lt {total : ℕ} (h : ∀ n ∈ arrived, n < total) :
    frontier arrived ≤ total := by
  by_contra hcon
  exact Nat.lt_irrefl _ (h _ (mem_of_lt_frontier (Nat.lt_of_not_le hcon)))

@[simp] theorem frontier_empty : frontier ∅ = 0 :=
  frontier_eq (Finset.notMem_empty 0) fun _ h => absurd h (Nat.not_lt_zero _)

/-- Only the number at the frontier moves it. -/
theorem frontier_insert_of_ne (h : n ≠ frontier arrived) :
    frontier (insert n arrived) = frontier arrived := by
  refine frontier_eq ?_ fun m hm => Finset.mem_insert_of_mem (mem_of_lt_frontier hm)
  rw [Finset.mem_insert, not_or]
  exact ⟨Ne.symm h, frontier_notMem arrived⟩

theorem frontier_le_insert (n : ℕ) (arrived : Finset ℕ) :
    frontier arrived ≤ frontier (insert n arrived) :=
  frontier_le fun h => frontier_notMem (insert n arrived) (Finset.mem_insert_of_mem h)

theorem frontier_lt_insert (arrived : Finset ℕ) :
    frontier arrived < frontier (insert (frontier arrived) arrived) := by
  refine lt_of_le_of_ne (frontier_le_insert _ _) fun heq => ?_
  refine frontier_notMem (insert (frontier arrived) arrived) ?_
  rw [← heq]
  exact Finset.mem_insert_self _ _

/-! ## What waits -/

theorem mem_waiting : n ∈ waiting arrived start ↔ n ∈ arrived ∧ start ≤ n := Finset.mem_filter

/-- The first number leaves. -/
theorem waiting_of_mem (h : start ∈ arrived) :
    waiting arrived start = insert start (waiting arrived (start + 1)) := by
  ext n
  rw [Finset.mem_insert, mem_waiting, mem_waiting]
  constructor
  · rintro ⟨hn, hle⟩
    rcases Nat.eq_or_lt_of_le hle with rfl | hlt
    · exact .inl rfl
    · exact .inr ⟨hn, hlt⟩
  · rintro (rfl | ⟨hn, hle⟩)
    · exact ⟨h, Nat.le_refl _⟩
    · exact ⟨hn, Nat.le_of_succ_le hle⟩

theorem notMem_waiting_succ : start ∉ waiting arrived (start + 1) := by
  rw [mem_waiting]
  exact fun h => Nat.not_succ_le_self start h.2

/-- The number before the first one may be added. -/
theorem waiting_insert_succ :
    waiting (insert start arrived) (start + 1) = waiting arrived (start + 1) := by
  ext n
  rw [mem_waiting, mem_waiting, Finset.mem_insert]
  constructor
  · rintro ⟨rfl | hn, hle⟩
    · exact absurd hle (Nat.not_succ_le_self _)
    · exact ⟨hn, hle⟩
  · exact fun h => ⟨.inr h.1, h.2⟩

theorem waiting_succ_of_notMem (h : start ∉ arrived) :
    waiting arrived (start + 1) = waiting arrived start := by
  ext n
  rw [mem_waiting, mem_waiting]
  refine and_congr_right fun hn => ⟨Nat.le_of_succ_le, fun hle => ?_⟩
  exact Nat.lt_of_le_of_ne hle fun heq => h (heq ▸ hn)

theorem waiting_insert_of_le (h : start ≤ n) :
    waiting (insert n arrived) start = insert n (waiting arrived start) := by
  ext m
  rw [Finset.mem_insert, mem_waiting, mem_waiting, Finset.mem_insert]
  constructor
  · rintro ⟨rfl | hm, hle⟩
    · exact .inl rfl
    · exact .inr ⟨hm, hle⟩
  · rintro (rfl | ⟨hm, hle⟩)
    · exact ⟨.inl rfl, h⟩
    · exact ⟨.inr hm, hle⟩

end Codex
