import Mathlib.Data.List.Basic
import Mathlib.Data.List.Induction

/-!
# Machines

`step s a` is the state after action `a`, or nothing where the action is not
enabled in `s`. A run is a list of actions, each enabled in the state before it:
whatever order the actors of a system make their steps in. What every step keeps,
every run keeps (`run_invariant`).
-/

namespace Codex.Machine

open List

variable {σ α : Type} {step : σ → α → Option σ} {s t u : σ} {a : α} {acts more : List α}

def run (step : σ → α → Option σ) (s : σ) (acts : List α) : Option σ := acts.foldlM step s

@[simp] theorem run_nil : run step s [] = some s := rfl

theorem run_cons : run step s (a :: acts) = (step s a).bind fun t => run step t acts :=
  foldlM_cons

/-- Where no action changes anything, a run does not. -/
theorem run_of_fixed (h : ∀ a ∈ acts, step s a = some s) : run step s acts = some s := by
  induction acts with
  | nil => rfl
  | cons a acts ih =>
    rw [run_cons, h a mem_cons_self]
    exact ih fun b hb => h b (mem_cons_of_mem a hb)

theorem run_append : run step s (acts ++ more) = (run step s acts).bind fun t => run step t more :=
  foldlM_append

theorem run_concat : run step s (acts ++ [a]) = (run step s acts).bind fun t => step t a := by
  rw [run_append]
  congr 1
  funext t
  rw [run_cons]
  cases step t a <;> rfl

/-- One action, again and again. -/
theorem run_replicate {f : ℕ → σ} (h : ∀ n, step (f n) a = some (f (n + 1))) (n : ℕ) :
    run step (f 0) (replicate n a) = some (f n) := by
  induction n with
  | zero => rfl
  | succ n ih => rw [replicate_succ', run_concat, ih, Option.bind_some, h]

theorem run_concat_eq_some (h : run step s (acts ++ [a]) = some u) :
    ∃ t, run step s acts = some t ∧ step t a = some u := by
  rw [run_concat] at h
  exact Option.bind_eq_some_iff.1 h

/-- Every action of the run meets `Ok` in the state before it. -/
def AllMeet (step : σ → α → Option σ) (Ok : σ → α → Prop) (s : σ) (acts : List α) : Prop :=
  ∀ before a after t, acts = before ++ a :: after → run step s before = some t → Ok t a

variable {Ok : σ → α → Prop} {Inv : σ → Prop}

theorem allMeet_nil : AllMeet step Ok s [] := by
  intro before a after t hsplit
  cases before <;> cases hsplit

theorem allMeet_cons :
    AllMeet step Ok s (a :: acts) ↔ Ok s a ∧ ∀ t, step s a = some t → AllMeet step Ok t acts := by
  constructor
  · intro h
    refine ⟨h [] a acts s rfl rfl, fun t ht before b after u hsplit hrun => ?_⟩
    refine h (a :: before) b after u (by rw [hsplit, cons_append]) ?_
    rw [run_cons, ht]
    exact hrun
  · rintro ⟨hfirst, hrest⟩ before b after u hsplit hrun
    cases before with
    | nil =>
      obtain ⟨rfl, -⟩ := List.cons.inj hsplit
      cases hrun
      exact hfirst
    | cons first before =>
      obtain ⟨rfl, htail⟩ := List.cons.inj hsplit
      rw [run_cons] at hrun
      obtain ⟨t, ht, hafter⟩ := Option.bind_eq_some_iff.1 hrun
      exact hrest t ht before b after u htail hafter

instance decidableAllMeet (step : σ → α → Option σ) (Ok : σ → α → Prop)
    [∀ s a, Decidable (Ok s a)] : (s : σ) → (acts : List α) → Decidable (AllMeet step Ok s acts)
  | _, [] => .isTrue allMeet_nil
  | s, a :: acts =>
    have (t : σ) := decidableAllMeet step Ok t acts
    have : Decidable (∀ t, step s a = some t → AllMeet step Ok t acts) :=
      match step s a with
      | none => .isTrue nofun
      | some t => decidable_of_iff (AllMeet step Ok t acts)
          ⟨fun hmeet _ ht => Option.some_inj.1 ht ▸ hmeet, fun hall => hall t rfl⟩
    decidable_of_iff' _ allMeet_cons

/-- Whether the actions of a run meet a condition that can be checked. -/
def meets (step : σ → α → Option σ) (ok : σ → α → Bool) (s : σ) : List α → Bool
  | [] => true
  | a :: acts => ok s a && match step s a with
    | some t => meets step ok t acts
    | none => true

theorem allMeet_of_meets {ok : σ → α → Bool} (h : meets step ok s acts = true) :
    AllMeet step (fun s a => ok s a = true) s acts := by
  induction acts generalizing s with
  | nil => exact allMeet_nil
  | cons a acts ih =>
    unfold meets at h
    rw [Bool.and_eq_true] at h
    refine allMeet_cons.2 ⟨h.1, fun t ht => ih ?_⟩
    rw [ht] at h
    exact h.2

theorem AllMeet.of_append (h : AllMeet step Ok s (acts ++ more)) : AllMeet step Ok s acts := by
  intro before b after t hsplit hrun
  refine h before b (after ++ more) t ?_ hrun
  rw [hsplit, List.append_assoc, cons_append]

theorem AllMeet.and_of_forall {Allowed : α → Prop} (h : AllMeet step Ok s acts)
    (hallowed : ∀ a ∈ acts, Allowed a) : AllMeet step (fun s a => Allowed a ∧ Ok s a) s acts := by
  intro before a after t hsplit hrun
  refine ⟨hallowed a ?_, h before a after t hsplit hrun⟩
  rw [hsplit]
  exact mem_append_right _ mem_cons_self

/-- What a step keeps under a condition, a run keeps whose steps all meet the condition. -/
theorem run_invariant_of_meets (hstep : ∀ s a t, Inv s → Ok s a → step s a = some t → Inv t)
    (h : Inv s) (hmeet : AllMeet step Ok s acts) (hrun : run step s acts = some t) : Inv t := by
  induction acts using List.reverseRecOn generalizing t with
  | nil =>
    cases hrun
    exact h
  | append_singleton acts a ih =>
    obtain ⟨before, hbefore, hlast⟩ := run_concat_eq_some hrun
    refine hstep before a t (ih hmeet.of_append hbefore) ?_ hlast
    exact hmeet acts a [] before rfl hbefore

theorem run_invariant (hstep : ∀ s a t, Inv s → step s a = some t → Inv t) (h : Inv s)
    (hrun : run step s acts = some t) : Inv t := by
  have hmeet : AllMeet step (fun _ _ => True) s acts := fun _ _ _ _ _ _ => trivial
  exact run_invariant_of_meets (fun s a t hs _ => hstep s a t hs) h hmeet hrun

/-- What every action gets done, and no later action undoes, is done for all of them after a run. -/
theorem run_advances (Good : σ → Prop) (Advance : σ → σ → Prop) (Done : α → σ → Prop)
    (hrefl : ∀ s, Good s → Advance s s)
    (htrans : ∀ s t u, Advance s t → Advance t u → Advance s u)
    (hgood : ∀ s t, Advance s t → Good t)
    (hkeep : ∀ a ∈ acts, ∀ s t, Advance s t → Done a s → Done a t)
    (hstep : ∀ a ∈ acts, ∀ s t, Good s → step s a = some t → Advance s t ∧ Done a t)
    (hs : Good s) (hrun : run step s acts = some t) : Advance s t ∧ ∀ a ∈ acts, Done a t := by
  induction acts generalizing s with
  | nil =>
    cases hrun
    exact ⟨hrefl _ hs, nofun⟩
  | cons a acts ih =>
    rw [run_cons] at hrun
    obtain ⟨next, hnext, hrest⟩ := Option.bind_eq_some_iff.1 hrun
    obtain ⟨hfirst, hdone⟩ := hstep a mem_cons_self s next hs hnext
    obtain ⟨hadvance, hall⟩ :=
      ih (fun b hb => hkeep b (mem_cons_of_mem a hb))
        (fun b hb => hstep b (mem_cons_of_mem a hb)) (hgood s next hfirst) hrest
    refine ⟨htrans s next t hfirst hadvance, forall_mem_cons.2 ⟨?_, hall⟩⟩
    exact hkeep a mem_cons_self next t hadvance hdone

/-- **Exact conditions along a run.** If a step from a good state leads to a good one exactly when it
meets `Ok`, then all states of a run are good exactly when all its steps meet `Ok`. -/
theorem good_states_iff {Good : σ → Prop} (hinv : ∀ s a t, Inv s → step s a = some t → Inv t)
    (hstep : ∀ s a t, Inv s → Good s → step s a = some t → (Good t ↔ Ok s a)) (hi : Inv s)
    (hg : Good s) (hrun : run step s acts = some u) :
    (∀ before after t, acts = before ++ after → run step s before = some t → Good t) ↔
      AllMeet step Ok s acts := by
  constructor
  · intro hgood before a after t hsplit ht
    have hnext : ∃ v, run step s (before ++ [a]) = some v := by
      have hsplit' : acts = (before ++ [a]) ++ after := by rw [hsplit, List.append_assoc]; rfl
      rw [hsplit', run_append] at hrun
      obtain ⟨v, hv, -⟩ := Option.bind_eq_some_iff.1 hrun
      exact ⟨v, hv⟩
    obtain ⟨v, hv⟩ := hnext
    have hlast : step t a = some v := by
      rw [run_concat, ht] at hv
      exact hv
    refine (hstep t a v (run_invariant hinv hi ht) (hgood before (a :: after) t hsplit ht) hlast).1 ?_
    exact hgood (before ++ [a]) after v (by rw [hsplit, List.append_assoc]; rfl) hv
  · intro hmeet before after t hsplit ht
    have hkeep : ∀ s a t, (Inv s ∧ Good s) → Ok s a → step s a = some t → Inv t ∧ Good t :=
      fun s a t hs hok hone => ⟨hinv s a t hs.1 hone, (hstep s a t hs.1 hs.2 hone).2 hok⟩
    rw [hsplit] at hmeet
    have hbefore : AllMeet step Ok s before := hmeet.of_append
    have hboth := run_invariant_of_meets hkeep ⟨hi, hg⟩ hbefore ht
    exact hboth.2

/-- **Exact conditions along a run whose actions are allowed.** If an allowed action of a good state
goes through, to a good state exactly when it meets `Ok`, then a run goes through with good states
only exactly when all its actions meet `Ok`. -/
theorem completes_good_iff {Good : σ → Prop} {Allowed : σ → α → Prop}
    (hstep : ∀ s a, Good s → Allowed s a → ∃ t, step s a = some t ∧ (Good t ↔ Ok s a)) (hg : Good s)
    (hallowed : AllMeet step Allowed s acts) : ((∃ u, run step s acts = some u) ∧
      ∀ before after t, acts = before ++ after → run step s before = some t → Good t) ↔
      AllMeet step Ok s acts := by
  induction acts generalizing s with
  | nil =>
    refine iff_of_true ⟨⟨s, rfl⟩, fun before after t hsplit hrun => ?_⟩ allMeet_nil
    rw [(append_eq_nil_iff.1 hsplit.symm).1] at hrun
    cases hrun
    exact hg
  | cons a acts ih =>
    obtain ⟨hfirst, hrest⟩ := allMeet_cons.1 hallowed
    obtain ⟨next, hnext, hok⟩ := hstep s a hg hfirst
    rw [allMeet_cons, run_cons, hnext, Option.bind_some]
    constructor
    · rintro ⟨hcompletes, hgood⟩
      have hnextgood : Good next := by
        refine hgood [a] acts next rfl ?_
        rw [run_cons, hnext]
        rfl
      refine ⟨hok.1 hnextgood, fun t ht => ?_⟩
      cases ht
      refine (ih hnextgood (hrest next hnext)).1 ⟨hcompletes, fun before after t hsplit ht => ?_⟩
      refine hgood (a :: before) after t (by rw [hsplit, cons_append]) ?_
      rw [run_cons, hnext]
      exact ht
    · rintro ⟨hfirstok, hrestok⟩
      obtain ⟨hcompletes, hgood⟩ :=
        (ih (hok.2 hfirstok) (hrest next hnext)).2 (hrestok next rfl)
      refine ⟨hcompletes, fun before after t hsplit ht => ?_⟩
      cases before with
      | nil =>
        cases ht
        exact hg
      | cons b before =>
        obtain ⟨rfl, htail⟩ := List.cons.inj hsplit
        rw [run_cons, hnext] at ht
        exact hgood before after t htail ht

end Codex.Machine
