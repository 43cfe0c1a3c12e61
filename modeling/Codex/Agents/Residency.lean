import Codex.Agents.Execution
import Mathlib.Data.List.Nodup

/-!
# Resident sub-agents

`V2Residency` (`core/src/agent/control/residency.rs`): the loaded sub-agents, the
least recently used first, and the slots that have been reserved for others. A
candidate for unloading is out of the residents while it is looked at. If it is
put back after another task has taken its place, there is one resident too many
(`residents_within_capacity`).
-/

namespace Codex.Agents

/-- The thread ids are numbered. -/
abbrev ThreadId := ℕ

structure V2Residency where
  residents : List ThreadId := []
  pendingSlots : ℕ := 0
  deriving DecidableEq

/-- The last one is the most recently used. -/
def touchResident (residents : List ThreadId) (threadId : ThreadId) : List ThreadId :=
  residents.filter (· ≠ threadId) ++ [threadId]

namespace V2Residency

def tryReservePendingSlot (state : V2Residency) (capacity : ℕ) : Option V2Residency :=
  -- A saturated sum is below no capacity.
  if capacity ≤ state.residents.length + state.pendingSlots then none
  else some { state with pendingSlots := state.pendingSlots + 1 }

/-- The loop of `pop_lru_candidate`, of as many rounds as there are residents. -/
def popLruLoop (protectedThreadId : Option ThreadId) :
    ℕ → List ThreadId → Option ThreadId × List ThreadId
  | 0, residents => (none, residents)
  | _ + 1, [] => (none, [])
  | rounds + 1, candidate :: residents =>
    if some candidate = protectedThreadId then
      popLruLoop protectedThreadId rounds (residents ++ [candidate])
    else (some candidate, residents)

def popLruCandidate (state : V2Residency) (protectedThreadId : Option ThreadId) :
    Option ThreadId × V2Residency :=
  let (candidate, residents) := popLruLoop protectedThreadId state.residents.length state.residents
  (candidate, { state with residents := residents })

def touch (state : V2Residency) (threadId : ThreadId) : V2Residency :=
  { state with residents := touchResident state.residents threadId }

def remove (state : V2Residency) (threadId : ThreadId) : V2Residency :=
  { state with residents := state.residents.filter (· ≠ threadId) }

def commitSlot (state : V2Residency) (threadId : ThreadId) : V2Residency :=
  { residents := touchResident state.residents threadId
    pendingSlots := state.pendingSlots - 1 }

def releasePendingSlot (state : V2Residency) : V2Residency :=
  { state with pendingSlots := state.pendingSlots - 1 }

end V2Residency

/-! ## Tasks that reserve, look at candidates and touch -/

/-- The residency, the slots that are neither committed nor dropped, and the candidates that tasks
have taken out of the residents to look at. -/
structure Residencies where
  residency : V2Residency := {}
  slots : ℕ := 0
  lookedAt : List ThreadId := []
  deriving DecidableEq

inductive ResidencyStep where
  /-- One round of `reserve_slot`: a slot, or nothing if there is no room. -/
  | reserve
  | popCandidate (protectedThreadId : Option ThreadId)
  /-- The candidate is no thread of its kind any more, or it has been unloaded. -/
  | leaveOut (candidate : ThreadId)
  /-- The candidate cannot be unloaded. -/
  | touchBack (candidate : ThreadId)
  | commit (threadId : ThreadId)
  | dropSlot
  | touchLoaded (threadId : ThreadId)
  | forget (threadId : ThreadId)
  deriving DecidableEq

def Residencies.step (capacity : ℕ) (s : Residencies) : ResidencyStep → Option Residencies
  | .reserve =>
    match s.residency.tryReservePendingSlot capacity with
    | some residency => some { s with residency := residency, slots := s.slots + 1 }
    | none => some s
  | .popCandidate protectedThreadId =>
    let (candidate, residency) := s.residency.popLruCandidate protectedThreadId
    some { s with residency := residency, lookedAt := candidate.toList ++ s.lookedAt }
  | .leaveOut candidate =>
    if candidate ∈ s.lookedAt then some { s with lookedAt := s.lookedAt.erase candidate } else none
  | .touchBack candidate =>
    if candidate ∈ s.lookedAt then
      some { s with
        residency := s.residency.touch candidate
        lookedAt := s.lookedAt.erase candidate }
    else none
  | .commit threadId =>
    if 0 < s.slots then
      some { s with residency := s.residency.commitSlot threadId, slots := s.slots - 1 }
    else none
  | .dropSlot =>
    if 0 < s.slots then
      some { s with residency := s.residency.releasePendingSlot, slots := s.slots - 1 }
    else none
  | .touchLoaded threadId => some { s with residency := s.residency.touch threadId }
  | .forget threadId => some { s with residency := s.residency.remove threadId }

/-- A thread that is not resident is only touched where there is room for it. -/
def TouchFits (capacity : ℕ) (s : Residencies) : ResidencyStep → Prop
  | .touchBack threadId | .touchLoaded threadId =>
    threadId ∈ s.residency.residents ∨
      s.residency.residents.length + s.residency.pendingSlots < capacity
  | _ => True

instance (capacity : ℕ) (s : Residencies) (a : ResidencyStep) : Decidable (TouchFits capacity s a) := by
  cases a <;> unfold TouchFits <;> infer_instance

/-- No thread is resident twice, and pending slots are counted. -/
structure Residencies.Counted (s : Residencies) : Prop where
  nodup : s.residency.residents.Nodup
  pending : s.residency.pendingSlots = s.slots

/-! ## Residents -/

variable {residents : List ThreadId} {threadId : ThreadId} {capacity : ℕ} {s t : Residencies}

theorem nodup_touchResident (h : residents.Nodup) : (touchResident residents threadId).Nodup := by
  unfold touchResident
  rw [List.nodup_append]
  refine ⟨h.filter _, List.nodup_singleton _, fun a ha b hb hab => ?_⟩
  rw [List.mem_singleton] at hb
  have hne := (List.mem_filter.1 ha).2
  rw [hab, hb] at hne
  simp at hne

theorem length_touchResident (h : residents.Nodup) :
    (touchResident residents threadId).length =
      if threadId ∈ residents then residents.length else residents.length + 1 := by
  unfold touchResident
  rw [List.length_append, List.length_singleton]
  split
  · next hmem =>
    have herase : residents.filter (· ≠ threadId) = residents.erase threadId := by
      rw [h.erase_eq_filter]
      exact List.filter_congr fun a _ => by simp [bne, beq_eq_decide]
    have hpos := List.length_pos_of_mem hmem
    rw [herase, List.length_erase_of_mem hmem]
    omega
  · next hmem =>
    have hall : ∀ a ∈ residents, decide (a ≠ threadId) = true :=
      fun a ha => decide_eq_true fun heq => hmem (heq ▸ ha)
    rw [List.filter_eq_self.2 hall]

/-- A candidate is one of the residents, which loses no other. -/
theorem popLruLoop_perm (protectedThreadId : Option ThreadId) (rounds : ℕ) (residents : List ThreadId) :
    ((V2Residency.popLruLoop protectedThreadId rounds residents).1.toList ++
      (V2Residency.popLruLoop protectedThreadId rounds residents).2).Perm residents := by
  induction rounds generalizing residents with
  | zero => exact List.Perm.refl _
  | succ rounds ih =>
    cases residents with
    | nil => exact List.Perm.refl _
    | cons candidate residents =>
      unfold V2Residency.popLruLoop
      split
      · exact (ih _).trans (List.perm_append_singleton _ _)
      · exact List.Perm.refl _

theorem Residencies.Counted.step (h : s.Counted) {a : ResidencyStep}
    (hstep : s.step capacity a = some t) : t.Counted := by
  obtain ⟨hnodup, hpending⟩ := h
  cases a with
  | reserve =>
    simp only [Residencies.step, V2Residency.tryReservePendingSlot] at hstep
    split at hstep
    · next residency hreserved =>
      split at hreserved
      · cases hreserved
      · cases hreserved
        cases hstep
        exact ⟨hnodup, congrArg (· + 1) hpending⟩
    · cases hstep
      exact ⟨hnodup, hpending⟩
  | popCandidate protectedThreadId =>
    cases hstep
    refine ⟨?_, hpending⟩
    have hperm := popLruLoop_perm protectedThreadId s.residency.residents.length s.residency.residents
    exact (List.nodup_append.1 (hperm.nodup_iff.2 hnodup)).2.1
  | leaveOut candidate =>
    simp only [Residencies.step] at hstep
    split at hstep
    · cases hstep
      exact ⟨hnodup, hpending⟩
    · cases hstep
  | touchBack candidate =>
    simp only [Residencies.step] at hstep
    split at hstep
    · cases hstep
      exact ⟨nodup_touchResident hnodup, hpending⟩
    · cases hstep
  | commit threadId =>
    simp only [Residencies.step] at hstep
    split at hstep
    · cases hstep
      exact ⟨nodup_touchResident hnodup, congrArg (· - 1) hpending⟩
    · cases hstep
  | dropSlot =>
    simp only [Residencies.step] at hstep
    split at hstep
    · cases hstep
      exact ⟨hnodup, congrArg (· - 1) hpending⟩
    · cases hstep
  | touchLoaded threadId =>
    cases hstep
    exact ⟨nodup_touchResident hnodup, hpending⟩
  | forget threadId =>
    cases hstep
    exact ⟨hnodup.filter _, hpending⟩

/-- The residents and the pending slots are within the capacity. -/
def Residencies.Fits (capacity : ℕ) (s : Residencies) : Prop :=
  s.residency.residents.length + s.residency.pendingSlots ≤ capacity

theorem touch_fits_iff (h : s.Counted) (hfits : s.Fits capacity) (threadId : ThreadId) :
    (s.residency.touch threadId).residents.length + (s.residency.touch threadId).pendingSlots ≤
        capacity ↔
      threadId ∈ s.residency.residents ∨
        s.residency.residents.length + s.residency.pendingSlots < capacity := by
  unfold Residencies.Fits at hfits
  simp only [V2Residency.touch, length_touchResident h.nodup]
  split
  · next hmem => exact iff_of_true hfits (.inl hmem)
  · next hmem =>
    rw [or_iff_right hmem]
    omega

/-- Only a touch of a thread that is not resident may need room that is not there. -/
theorem Residencies.Counted.fits_step_iff (h : s.Counted) (hfits : s.Fits capacity)
    {a : ResidencyStep} (hstep : s.step capacity a = some t) :
    t.Fits capacity ↔ TouchFits capacity s a := by
  cases a with
  | reserve =>
    refine iff_of_true ?_ trivial
    simp only [Residencies.step, V2Residency.tryReservePendingSlot] at hstep
    split at hstep
    · next residency hreserved =>
      split at hreserved
      · cases hreserved
      · next hroom =>
        cases hreserved
        cases hstep
        show s.residency.residents.length + (s.residency.pendingSlots + 1) ≤ capacity
        omega
    · cases hstep
      exact hfits
  | popCandidate protectedThreadId =>
    refine iff_of_true ?_ trivial
    cases hstep
    have hperm := popLruLoop_perm protectedThreadId s.residency.residents.length s.residency.residents
    have hlength := hperm.length_eq
    rw [List.length_append] at hlength
    unfold Residencies.Fits at hfits ⊢
    show (V2Residency.popLruLoop _ _ _).2.length + s.residency.pendingSlots ≤ capacity
    omega
  | leaveOut candidate =>
    refine iff_of_true ?_ trivial
    simp only [Residencies.step] at hstep
    split at hstep
    · cases hstep
      exact hfits
    · cases hstep
  | touchBack candidate =>
    simp only [Residencies.step] at hstep
    split at hstep
    · cases hstep
      exact touch_fits_iff h hfits candidate
    · cases hstep
  | commit threadId =>
    refine iff_of_true ?_ trivial
    simp only [Residencies.step] at hstep
    split at hstep
    · next hslots =>
      cases hstep
      have hpending := h.pending
      unfold Residencies.Fits at hfits ⊢
      simp only [V2Residency.commitSlot, length_touchResident h.nodup]
      split <;> omega
    · cases hstep
  | dropSlot =>
    refine iff_of_true ?_ trivial
    simp only [Residencies.step] at hstep
    split at hstep
    · cases hstep
      unfold Residencies.Fits at hfits ⊢
      simp only [V2Residency.releasePendingSlot]
      omega
    · cases hstep
  | touchLoaded threadId =>
    cases hstep
    exact touch_fits_iff h hfits threadId
  | forget threadId =>
    refine iff_of_true ?_ trivial
    cases hstep
    have hlength := List.length_filter_le (fun a => decide (a ≠ threadId)) s.residency.residents
    unfold Residencies.Fits at hfits ⊢
    simp only [V2Residency.remove]
    omega

/-- **Residents are counted once and pending slots exactly; residents and pending slots stay within
the capacity if and only if every thread that is touched without being resident finds room.** -/
theorem residents_within_capacity {acts : List ResidencyStep}
    (hrun : Machine.run (Residencies.step capacity) {} acts = some s) :
    (s.residency.residents.Nodup ∧ s.residency.pendingSlots = s.slots) ∧
    ((∀ before after t, acts = before ++ after →
        Machine.run (Residencies.step capacity) {} before = some t →
        t.residency.residents.length + t.residency.pendingSlots ≤ capacity) ↔
      Machine.AllMeet (Residencies.step capacity) (TouchFits capacity) {} acts) := by
  have hstart : ({} : Residencies).Counted := ⟨List.nodup_nil, rfl⟩
  have hcounted : s.Counted := Machine.run_invariant (fun _ _ _ h hstep => h.step hstep) hstart hrun
  refine ⟨⟨hcounted.nodup, hcounted.pending⟩, ?_⟩
  apply Machine.good_states_iff (fun _ _ _ h hstep => h.step hstep)
    (fun _ _ _ h hfits hstep => h.fits_step_iff hfits hstep) hstart ?_ hrun
  exact Nat.zero_le capacity

theorem residents_within_capacity_reload :
    ∃ s, Machine.run (Residencies.step 1) {}
        [.reserve, .commit 7, .popCandidate none, .leaveOut 7, .reserve, .commit 8] = some s ∧
      s.residency.residents.length + s.residency.pendingSlots ≤ 1 := by
  refine Exists.imp (fun s hs => ⟨hs, ?_⟩) ⟨_, rfl⟩
  exact (residents_within_capacity hs).2.2 (by decide) _ [] s (by simp) hs

/-- While one task looks at a candidate, another one takes its place. -/
theorem residents_exceed_capacity :
    ∃ s, Machine.run (Residencies.step 1) {}
        [.reserve, .commit 7, .popCandidate none, .reserve, .touchBack 7] = some s ∧
      ¬ s.residency.residents.length + s.residency.pendingSlots ≤ 1 :=
  ⟨_, rfl, by decide⟩

end Codex.Agents
