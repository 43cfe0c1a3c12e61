import Codex.Base.Machine
import Codex.Rollout.Item

/-!
# Running sub-agents

`AgentExecutionLimiter` and its guards (`core/src/agent/control/execution.rs`).
The start of a turn asks for capacity first and takes its guard later, in another
task. Guards are counted exactly, but the limit holds only as long as no start
passes the check in front of others that have not taken their guards yet
(`active_le_maxThreads`).
-/

namespace Codex.Agents

open Codex.Text

inductive MultiAgentVersion where
  | disabled
  | v1
  | v2
  deriving DecidableEq

/-- The sources of a session; what a sub-agent is for is carried along. -/
inductive SessionSource where
  | cli
  | vsCode
  | exec
  | mcp
  | custom (name : Str)
  | internal (source : Rollout.Carried)
  | subAgent (source : Rollout.Carried)
  | unknown
  deriving DecidableEq

def isExecutionLimited : MultiAgentVersion → SessionSource → Bool
  | .v2, .subAgent _ => true
  | _, _ => false

structure AgentExecutionLimiter where
  active : ℕ := 0
  maxThreads : Option ℕ := none
  deriving DecidableEq

def usizeMax : ℕ := 2 ^ 64 - 1

namespace AgentExecutionLimiter

/-- `initialize`, with `get_or_init`: the first limit stays. -/
def initializeWith (limiter : AgentExecutionLimiter) (maxThreads : ℕ) : AgentExecutionLimiter :=
  { limiter with maxThreads := some (limiter.maxThreads.getD maxThreads) }

def limit (limiter : AgentExecutionLimiter) : ℕ := limiter.maxThreads.getD usizeMax

def hasCapacity (limiter : AgentExecutionLimiter) : Bool := limiter.active < limiter.limit

/-- `fetch_add(1)` of a new guard. -/
def guard (limiter : AgentExecutionLimiter) : AgentExecutionLimiter :=
  { limiter with active := limiter.active + 1 }

/-- `fetch_sub(1)` of a guard that is dropped. -/
def dropGuard (limiter : AgentExecutionLimiter) : AgentExecutionLimiter :=
  { limiter with active := limiter.active - 1 }

end AgentExecutionLimiter

/-- `CodexErr::AgentLimitReached`. -/
structure AgentLimitReached where
  maxThreads : ℕ
  deriving DecidableEq

def ensureExecutionCapacity (limiter : AgentExecutionLimiter) (version : MultiAgentVersion)
    (source : SessionSource) : Except AgentLimitReached Unit :=
  if isExecutionLimited version source then
    if limiter.hasCapacity then .ok () else .error ⟨limiter.limit⟩
  else .ok ()

/-! ## Turns that start and end -/

/-- A turn that may start: its check has been answered, but its guard has not been taken. -/
structure TurnStart where
  version : MultiAgentVersion
  source : SessionSource
  deriving DecidableEq

/-- The limiter, the starts that have passed the check, and the guards that are alive. -/
structure Executions where
  limiter : AgentExecutionLimiter
  admitted : List TurnStart := []
  guards : ℕ := 0
  deriving DecidableEq

inductive ExecutionStep where
  | initializeWith (maxThreads : ℕ)
  | ensureCapacity (start : TurnStart)
  | takeGuard (start : TurnStart)
  | abandon (start : TurnStart)
  | dropGuard
  deriving DecidableEq

def Executions.step (s : Executions) : ExecutionStep → Option Executions
  | .initializeWith maxThreads => some { s with limiter := s.limiter.initializeWith maxThreads }
  | .ensureCapacity start =>
    match ensureExecutionCapacity s.limiter start.version start.source with
    | .ok () => some { s with admitted := start :: s.admitted }
    | .error _ => some s
  | .takeGuard start =>
    if start ∈ s.admitted then
      let admitted := s.admitted.erase start
      if isExecutionLimited start.version start.source then
        some { limiter := s.limiter.guard, admitted := admitted, guards := s.guards + 1 }
      else some { s with admitted := admitted }
    else none
  | .abandon start =>
    if start ∈ s.admitted then some { s with admitted := s.admitted.erase start } else none
  | .dropGuard =>
    if 0 < s.guards then some { s with limiter := s.limiter.dropGuard, guards := s.guards - 1 }
    else none

/-- How many of the starts will take a guard. -/
def waitingGuards (starts : List TurnStart) : ℕ :=
  starts.countP fun start => isExecutionLimited start.version start.source

/-- A start that is limited passes the check only in front of room for all that wait. -/
def LeavesRoom (s : Executions) : ExecutionStep → Prop
  | .ensureCapacity start => isExecutionLimited start.version start.source = true →
      s.limiter.hasCapacity = true →
      s.limiter.active + waitingGuards s.admitted < s.limiter.limit
  | _ => True

instance (s : Executions) (a : ExecutionStep) : Decidable (LeavesRoom s a) := by
  cases a <;> unfold LeavesRoom <;> infer_instance

/-- All that wait have room. -/
structure Executions.Within (maxThreads : ℕ) (s : Executions) : Prop where
  limit : s.limiter.maxThreads = some maxThreads
  room : s.limiter.active + waitingGuards s.admitted ≤ maxThreads

variable {s t : Executions} {maxThreads : ℕ}

theorem waitingGuards_cons (start : TurnStart) (starts : List TurnStart) :
    waitingGuards (start :: starts) =
      waitingGuards starts + if isExecutionLimited start.version start.source then 1 else 0 := by
  unfold waitingGuards
  rw [List.countP_cons]

theorem waitingGuards_erase {start : TurnStart} {starts : List TurnStart} (h : start ∈ starts) :
    waitingGuards starts = waitingGuards (starts.erase start) +
      if isExecutionLimited start.version start.source then 1 else 0 := by
  rw [← waitingGuards_cons]
  unfold waitingGuards
  rw [(List.perm_cons_erase h).countP_eq]

/-- The guards that are alive are counted. -/
def Executions.Counted (s : Executions) : Prop := s.limiter.active = s.guards

theorem Executions.Counted.step (h : s.Counted) {a : ExecutionStep} (hstep : s.step a = some t) :
    t.Counted := by
  cases a with
  | initializeWith limit =>
    cases hstep
    exact h
  | ensureCapacity start =>
    simp only [Executions.step] at hstep
    split at hstep
    · cases hstep
      exact h
    · cases hstep
      exact h
  | takeGuard start =>
    simp only [Executions.step] at hstep
    split at hstep
    · split at hstep
      · cases hstep
        exact congrArg Nat.succ h
      · cases hstep
        exact h
    · cases hstep
  | abandon start =>
    simp only [Executions.step] at hstep
    split at hstep
    · cases hstep
      exact h
    · cases hstep
  | dropGuard =>
    simp only [Executions.step] at hstep
    split at hstep
    · cases hstep
      exact congrArg Nat.pred h
    · cases hstep

/-- In every run the guards are counted, whatever passes the check. -/
theorem active_eq_guards {acts : List ExecutionStep}
    (hrun : Machine.run Executions.step ⟨⟨0, some maxThreads⟩, [], 0⟩ acts = some s) :
    s.limiter.active = s.guards := by
  have hcounted : s.Counted :=
    Machine.run_invariant (fun _ _ _ h hstep => h.step hstep) (by rfl) hrun
  exact hcounted

theorem Executions.Within.step (h : s.Within maxThreads) {a : ExecutionStep} (hroom : LeavesRoom s a)
    (hstep : s.step a = some t) : t.Within maxThreads := by
  obtain ⟨hlimit, hle⟩ := h
  cases a with
  | initializeWith limit =>
    cases hstep
    refine ⟨?_, hle⟩
    simp [AgentExecutionLimiter.initializeWith, hlimit]
  | ensureCapacity start =>
    simp only [Executions.step, ensureExecutionCapacity] at hstep
    by_cases hlimited : isExecutionLimited start.version start.source
    · cases hcapacity : s.limiter.hasCapacity with
      | false =>
        simp only [hlimited, hcapacity, if_true] at hstep
        cases hstep
        exact ⟨hlimit, hle⟩
      | true =>
        simp only [hlimited, hcapacity, if_true] at hstep
        cases hstep
        have hspare := hroom hlimited hcapacity
        rw [AgentExecutionLimiter.limit, hlimit, Option.getD_some] at hspare
        refine ⟨hlimit, ?_⟩
        show s.limiter.active + waitingGuards (start :: s.admitted) ≤ maxThreads
        rw [waitingGuards_cons, if_pos hlimited]
        omega
    · simp only [hlimited] at hstep
      cases hstep
      refine ⟨hlimit, ?_⟩
      show s.limiter.active + waitingGuards (start :: s.admitted) ≤ maxThreads
      rw [waitingGuards_cons, if_neg hlimited]
      exact hle
  | takeGuard start =>
    simp only [Executions.step] at hstep
    split at hstep
    · next hmem =>
      have hwaiting := waitingGuards_erase hmem
      split at hstep
      · next hlimited =>
        cases hstep
        rw [if_pos hlimited] at hwaiting
        refine ⟨hlimit, ?_⟩
        show s.limiter.active + 1 + waitingGuards (s.admitted.erase start) ≤ maxThreads
        omega
      · next hlimited =>
        cases hstep
        rw [if_neg hlimited] at hwaiting
        refine ⟨hlimit, ?_⟩
        show s.limiter.active + waitingGuards (s.admitted.erase start) ≤ maxThreads
        omega
    · cases hstep
  | abandon start =>
    simp only [Executions.step] at hstep
    split at hstep
    · next hmem =>
      cases hstep
      have hwaiting := waitingGuards_erase hmem
      refine ⟨hlimit, ?_⟩
      show s.limiter.active + waitingGuards (s.admitted.erase start) ≤ maxThreads
      omega
    · cases hstep
  | dropGuard =>
    simp only [Executions.step] at hstep
    split at hstep
    · cases hstep
      refine ⟨hlimit, ?_⟩
      show s.limiter.active - 1 + waitingGuards s.admitted ≤ maxThreads
      omega
    · cases hstep

/-- **In every run in which no start passes the check in front of others without a guard of theirs,
the guards stay within the limit, and each of them is counted.** -/
theorem active_le_maxThreads {acts : List ExecutionStep}
    (hrun : Machine.run Executions.step ⟨⟨0, some maxThreads⟩, [], 0⟩ acts = some s)
    (hroom : Machine.AllMeet Executions.step LeavesRoom ⟨⟨0, some maxThreads⟩, [], 0⟩ acts) :
    s.limiter.active ≤ maxThreads ∧ s.limiter.active = s.guards := by
  have hwithin : s.Within maxThreads :=
    Machine.run_invariant_of_meets (fun _ _ _ h hok hstep => h.step hok hstep)
      ⟨rfl, Nat.zero_le _⟩ hroom hrun
  exact ⟨Nat.le_of_add_right_le hwithin.room, active_eq_guards hrun⟩

def worker : TurnStart := ⟨.v2, .subAgent "worker".toList⟩

/-- One turn after the other. -/
theorem active_le_maxThreads_in_turn :
    ∃ s, Machine.run Executions.step ⟨⟨0, some 1⟩, [], 0⟩
        [.ensureCapacity worker, .takeGuard worker, .ensureCapacity worker] = some s ∧
      s.limiter.active ≤ 1 := by
  refine Exists.imp (fun s hs => ⟨hs, ?_⟩) ⟨_, rfl⟩
  exact (active_le_maxThreads hs (by decide)).1

/-- Two turns that both ask before either of them takes its guard. -/
theorem active_exceeds_maxThreads :
    ∃ s, Machine.run Executions.step ⟨⟨0, some 1⟩, [], 0⟩
        [.ensureCapacity worker, .ensureCapacity worker, .takeGuard worker, .takeGuard worker] =
          some s ∧ ¬ s.limiter.active ≤ 1 :=
  ⟨_, rfl, by decide⟩

end Codex.Agents
