import Mathlib.Data.List.Basic

/-!
# Tasks over one shared state

A `System` says how a call becomes a task and what a task does in its next
atomic step: a new point in its program, a new shared state, and the event it
commits, if any. `Input` is what the outside world answers in the step. A run
interleaves the steps of any number of tasks in any order; its history is the
list of events committed so far.
-/

namespace Codex

open List

structure System (Call Input State Task Event : Type) where
  start : Call → Task
  next : Input → Task → State → Task × State × Option Event

variable {Call Input State Task Event : Type}

/-- One move of the scheduler: a new call, or a step of one task. -/
inductive Move (Call Input : Type) where
  | spawn (call : Call)
  | run (index : Nat) (input : Input)

structure Pool (State Task Event : Type) where
  shared : State
  tasks : List Task
  history : List Event

namespace Pool

def initial (shared : State) : Pool State Task Event := ⟨shared, [], []⟩

/-- The pool after a task has made its step. -/
def advance (pool : Pool State Task Event) (index : Nat) (result : Task × State × Option Event) :
    Pool State Task Event :=
  ⟨result.2.1, pool.tasks.set index result.1, pool.history ++ result.2.2.toList⟩

def step (system : System Call Input State Task Event) (pool : Pool State Task Event) :
    Move Call Input → Pool State Task Event
  | .spawn call => { pool with tasks := pool.tasks ++ [system.start call] }
  | .run index input =>
    match pool.tasks[index]? with
    | some task => pool.advance index (system.next input task pool.shared)
    | none => pool

def run (system : System Call Input State Task Event) (pool : Pool State Task Event)
    (moves : List (Move Call Input)) : Pool State Task Event :=
  moves.foldl (step system) pool

/-- The step of a move, if it is one, meets `Ok` in the state before it. -/
def Meets (Ok : State → Task → Prop) (pool : Pool State Task Event) : Move Call Input → Prop
  | .spawn _ => True
  | .run index _ => ∀ task, pool.tasks[index]? = some task → Ok pool.shared task

/-- Every step of the run meets `Ok`. -/
def AllMeet (system : System Call Input State Task Event) (Ok : State → Task → Prop) :
    Pool State Task Event → List (Move Call Input) → Prop
  | _, [] => True
  | pool, move :: moves =>
    pool.Meets Ok move ∧ AllMeet system Ok (pool.step system move) moves

/-- What is known of every task, wherever it is in its program. -/
def Tasks (T : Task → Prop) (pool : Pool State Task Event) : Prop := ∀ task ∈ pool.tasks, T task

section

variable {system : System Call Input State Task Event} {T : Task → Prop}
  {Ok : State → Task → Prop}

variable {pool : Pool State Task Event}

theorem Tasks.step (hstart : ∀ call, T (system.start call))
    (hnext : ∀ input task shared, T task → T (system.next input task shared).1) (h : pool.Tasks T)
    (move : Move Call Input) : (pool.step system move).Tasks T := by
  cases move with
  | spawn call =>
    intro task htask
    rcases mem_append.1 htask with htask | htask
    · exact h task htask
    · rw [mem_singleton.1 htask]
      exact hstart call
  | run index input =>
    cases ht : pool.tasks[index]? with
    | none => simpa [Pool.step, ht] using h
    | some task =>
      have hstep : pool.step system (.run index input) =
          pool.advance index (system.next input task pool.shared) := by simp [Pool.step, ht]
      rw [hstep]
      intro task' htask'
      rcases mem_or_eq_of_mem_set htask' with hmem | rfl
      · exact h task' hmem
      · exact hnext input task pool.shared (h task (mem_of_getElem? ht))

variable (Agrees : State → List Event → Prop)
  (hstep : ∀ input task shared history, T task → Agrees shared history →
    (Agrees (system.next input task shared).2.1
      (history ++ (system.next input task shared).2.2.toList) ↔ Ok shared task))

include hstep

/-- What one step decides, a move decides. -/
theorem agrees_step_iff (htasks : pool.Tasks T) (h : Agrees pool.shared pool.history)
    (move : Move Call Input) :
    Agrees (pool.step system move).shared (pool.step system move).history ↔
      pool.Meets Ok move := by
  cases move with
  | spawn call => exact iff_of_true h trivial
  | run index input =>
    cases ht : pool.tasks[index]? with
    | none =>
      simp only [Pool.step, ht, Meets]
      exact iff_of_true h nofun
    | some task =>
      simp only [Pool.step, ht, Meets, Option.some.injEq, forall_eq']
      exact hstep input task pool.shared pool.history (htasks task (mem_of_getElem? ht)) h

/-- **Exact conditions along a run.** If, in a state that agrees with its history, a step leads to
one that agrees exactly when it meets `Ok`, then all states of a run agree exactly when all its
steps meet `Ok`. -/
theorem agrees_run_iff (hstart : ∀ call, T (system.start call))
    (hnext : ∀ input task shared, T task → T (system.next input task shared).1)
    (htasks : pool.Tasks T) (h : Agrees pool.shared pool.history) (moves : List (Move Call Input)) :
    (∀ pre, pre <+: moves → Agrees (pool.run system pre).shared (pool.run system pre).history) ↔
      pool.AllMeet system Ok moves := by
  induction moves generalizing pool with
  | nil =>
    refine iff_of_true ?_ trivial
    intro pre hpre
    rw [prefix_nil.1 hpre]
    exact h
  | cons move moves ih =>
    have hone := agrees_step_iff Agrees hstep htasks h move
    have hrest := fun hok => ih (htasks.step hstart hnext move) (hone.2 hok)
    constructor
    · intro hall
      have hok : pool.Meets Ok move := hone.1 (hall [move] ⟨moves, rfl⟩)
      exact ⟨hok, (hrest hok).1 fun pre hpre =>
        hall (move :: pre) (cons_prefix_cons.2 ⟨rfl, hpre⟩)⟩
    · rintro ⟨hok, hmeet⟩ pre hpre
      cases pre with
      | nil => exact h
      | cons m pre =>
        obtain ⟨rfl, htail⟩ := cons_prefix_cons.1 hpre
        exact (hrest hok).2 hmeet pre htail

end

end Pool

end Codex
