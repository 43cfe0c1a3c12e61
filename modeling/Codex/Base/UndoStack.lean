import Mathlib.Data.List.Basic
import Mathlib.Data.List.Induction

/-!
# A log of pushes and undos, read in both directions

A log pushes elements and undoes the newest of them that count. Read forwards,
it builds a stack; read backwards, a counter of the elements still to skip is
enough to find the newest element that counts and survives. The counter may
saturate, as long as its bound is not below the number of elements that count.
-/

namespace Codex

open List

variable {α : Type} (counts : α → Bool)

inductive LogEntry (α : Type) where
  | push (a : α)
  | undo (n : ℕ)
  deriving DecidableEq

/-- Removes the newest `n` elements that count, with everything above them. -/
def popCounting : ℕ → List α → List α
  | 0, stack => stack
  | _ + 1, [] => []
  | n + 1, a :: stack => popCounting (if counts a then n else n + 1) stack

/-- The stack of a log, newest element first. -/
def stackOf (log : List (LogEntry α)) : List α :=
  log.foldl (fun stack entry =>
    match entry with
    | .push a => a :: stack
    | .undo n => popCounting counts n stack) []

/-- The newest surviving element that counts, found in a log that is read newest entry first with
`pending` elements still to skip. -/
def scanLog : List (LogEntry α) → ℕ → Option α
  | [], _ => none
  | .undo n :: older, pending => scanLog older (pending + n)
  | .push a :: older, 0 => if counts a then some a else scanLog older 0
  | .push a :: older, pending + 1 => scanLog older (if counts a then pending else pending + 1)

/-- The entry pushes an element that counts. -/
def LogEntry.isCounting : LogEntry α → Bool
  | .push a => counts a
  | .undo _ => false

variable {counts}

@[simp] theorem popCounting_zero (stack : List α) : popCounting counts 0 stack = stack := by
  cases stack <;> rfl

theorem popCounting_add (m n : ℕ) (stack : List α) :
    popCounting counts (m + n) stack = popCounting counts m (popCounting counts n stack) := by
  induction stack generalizing n with
  | nil => cases m <;> cases n <;> rfl
  | cons a stack ih =>
    cases n with
    | zero => rfl
    | succ n =>
      rw [← Nat.add_assoc]
      show popCounting counts (if counts a then m + n else m + n + 1) stack =
        popCounting counts m (popCounting counts (if counts a then n else n + 1) stack)
      rw [← ih]
      split
      · rfl
      · rfl

theorem stackOf_concat (log : List (LogEntry α)) (entry : LogEntry α) :
    stackOf counts (log ++ [entry]) =
      match entry with
      | .push a => a :: stackOf counts log
      | .undo n => popCounting counts n (stackOf counts log) := by
  rw [stackOf, foldl_append]
  cases entry <;> rfl

/-- **Reading backwards with a counter finds what the stack has on top.** -/
theorem scanLog_eq (log : List (LogEntry α)) (pending : ℕ) :
    scanLog counts log.reverse pending =
      (popCounting counts pending (stackOf counts log)).find? counts := by
  induction log using List.reverseRecOn generalizing pending with
  | nil => cases pending <;> rfl
  | append_singleton log entry ih =>
    rw [reverse_append, reverse_singleton, singleton_append, stackOf_concat]
    cases entry with
    | undo n =>
      show scanLog counts log.reverse (pending + n) = _
      rw [ih, popCounting_add]
    | push a =>
      cases pending with
      | zero =>
        show (if counts a then some a else scanLog counts log.reverse 0) = (a :: _).find? counts
        rw [find?_cons, ih, popCounting_zero]
        cases counts a <;> rfl
      | succ pending => exact ih _

theorem scanLog_eq_none {log : List (LogEntry α)} {pending : ℕ}
    (h : log.countP (LogEntry.isCounting counts) ≤ pending) : scanLog counts log pending = none := by
  induction log generalizing pending with
  | nil => rfl
  | cons entry log ih =>
    cases entry with
    | undo n =>
      have hundo : ¬ (LogEntry.undo n).isCounting counts = true := Bool.false_ne_true
      rw [countP_cons_of_neg hundo] at h
      exact ih (Nat.le_add_right_of_le h)
    | push a =>
      by_cases ha : counts a = true
      · have hpush : (LogEntry.push a).isCounting counts = true := ha
        rw [countP_cons_of_pos hpush] at h
        cases pending with
        | zero => omega
        | succ pending =>
          rw [scanLog, if_pos ha]
          exact ih (by omega)
      · have hpush : ¬ (LogEntry.push a).isCounting counts = true := ha
        rw [countP_cons_of_neg hpush] at h
        cases pending with
        | zero | succ pending =>
          rw [scanLog, if_neg ha]
          exact ih h

/-- **The counter may saturate.** -/
theorem scanLog_min {log : List (LogEntry α)} {pending bound : ℕ}
    (h : log.countP (LogEntry.isCounting counts) ≤ bound) :
    scanLog counts log (min pending bound) = scanLog counts log pending := by
  rcases Nat.le_total pending bound with hle | hle
  · rw [Nat.min_eq_left hle]
  · rw [Nat.min_eq_right hle, scanLog_eq_none h, scanLog_eq_none (Nat.le_trans h hle)]

end Codex
