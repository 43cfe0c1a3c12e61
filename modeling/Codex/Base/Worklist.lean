import Mathlib.Data.List.Basic
import Mathlib.Logic.Relation

/-!
# Worklists

What is reachable in a graph is collected from a stack of nodes that are still to be
visited. Only finitely many nodes have successors, so the stack runs empty, cycles or
not; the nodes collected are then those reachable from the stack (`mem_visit_iff`).
-/

namespace Codex

open List

/-- A graph in which only the nodes listed have successors. -/
structure Successors (α : Type) where
  next : α → List α
  nodes : List α
  mem_nodes : ∀ a, next a ≠ [] → a ∈ nodes

namespace Successors

variable {α : Type} [DecidableEq α] (graph : Successors α)

/-- The nodes that have successors and are not yet visited. -/
def unvisited (visited : List α) : List α := graph.nodes.filter (· ∉ visited)

variable {graph} {visited : List α} {a : α}

theorem length_unvisited_le :
    (graph.unvisited (a :: visited)).length ≤ (graph.unvisited visited).length := by
  unfold unvisited
  refine (monotone_filter_right _ fun b hb => ?_).length_le
  rw [decide_eq_true_eq] at hb ⊢
  exact fun hmem => hb (mem_cons_of_mem a hmem)

/-- A node that brings new ones is crossed off. -/
theorem length_unvisited_lt (hnext : graph.next a ≠ []) (hnew : a ∉ visited) :
    (graph.unvisited (a :: visited)).length < (graph.unvisited visited).length := by
  have hfilter : graph.unvisited (a :: visited) = (graph.unvisited visited).filter (· ≠ a) := by
    unfold unvisited
    rw [filter_filter]
    refine filter_congr fun b _ => ?_
    rw [← Bool.decide_and]
    refine decide_eq_decide.2 ?_
    rw [mem_cons, not_or]
  have hmem : a ∈ graph.unvisited visited :=
    mem_filter.2 ⟨graph.mem_nodes a hnext, decide_eq_true hnew⟩
  rw [hfilter]
  apply length_filter_lt_length_iff_exists.2
  exact ⟨a, hmem, by simp⟩

variable (graph)

def push (a : α) (pending : List α) : List α := (graph.next a).reverse ++ pending

/-- The last node pushed is taken from the stack; its successors are pushed in their order. -/
def visit (visited : List α) : List α → List α
  | [] => visited
  | a :: pending =>
    if a ∈ visited then visit visited pending
    else visit (a :: visited) (graph.push a pending)
termination_by pending => ((graph.unvisited visited).length, pending.length)
decreasing_by
  · exact Prod.Lex.right _ (Nat.lt_succ_self _)
  · next hnew =>
    by_cases hnext : graph.next a = []
    · rw [push, hnext]
      have hle : (graph.unvisited (a :: visited)).length ≤ (graph.unvisited visited).length :=
        length_unvisited_le
      rcases Nat.lt_or_eq_of_le hle with hlt | heq
      · exact Prod.Lex.left _ _ hlt
      · rw [heq]
        exact Prod.Lex.right _ (Nat.lt_succ_self _)
    · exact Prod.Lex.left _ _ (length_unvisited_lt hnext hnew)

variable {graph} {pending : List α} {b : α}

omit [DecidableEq α] in
theorem mem_push : b ∈ graph.push a pending ↔ b ∈ graph.next a ∨ b ∈ pending := by
  rw [push, mem_append, mem_reverse]

/-- A node that can be reached along successors. -/
def Reaches (graph : Successors α) : α → α → Prop :=
  Relation.ReflTransGen fun a b => b ∈ graph.next a

theorem visited_subset_visit (h : b ∈ visited) : b ∈ graph.visit visited pending := by
  induction visited, pending using visit.induct graph with
  | case1 visited => rwa [visit]
  | case2 visited a pending hmem ih =>
    rw [visit, if_pos hmem]
    exact ih h
  | case3 visited a pending hnew ih =>
    rw [visit, if_neg hnew]
    exact ih (mem_cons_of_mem a h)

/-- Only what can be reached is visited. -/
theorem reaches_of_mem_visit (h : b ∈ graph.visit visited pending) :
    b ∈ visited ∨ ∃ a ∈ pending, graph.Reaches a b := by
  induction visited, pending using visit.induct graph with
  | case1 visited =>
    rw [visit] at h
    exact .inl h
  | case2 visited a pending hmem ih =>
    rw [visit, if_pos hmem] at h
    rcases ih h with h | ⟨a', ha', hreach⟩
    · exact .inl h
    · exact .inr ⟨a', mem_cons_of_mem a ha', hreach⟩
  | case3 visited a pending hnew ih =>
    rw [visit, if_neg hnew] at h
    rcases ih h with h | ⟨a', ha', hreach⟩
    · rcases mem_cons.1 h with rfl | h
      · exact .inr ⟨b, mem_cons_self, .refl⟩
      · exact .inl h
    · rcases mem_push.1 ha' with hnext | ha'
      · exact .inr ⟨a, mem_cons_self, .head hnext hreach⟩
      · exact .inr ⟨a', mem_cons_of_mem a ha', hreach⟩

/-- The successors of what is visited are visited, or still on the stack. -/
def Closed (graph : Successors α) (visited pending : List α) : Prop :=
  ∀ a ∈ visited, ∀ b ∈ graph.next a, b ∈ visited ∨ b ∈ pending

theorem closed_visit (h : graph.Closed visited pending) :
    (∀ a ∈ pending, a ∈ graph.visit visited pending) ∧
      graph.Closed (graph.visit visited pending) [] := by
  induction visited, pending using visit.induct graph with
  | case1 visited =>
    rw [visit]
    exact ⟨nofun, h⟩
  | case2 visited a pending hmem ih =>
    rw [visit, if_pos hmem]
    have hclosed : graph.Closed visited pending := by
      intro b hb c hc
      rcases h b hb c hc with hvisited | hpending
      · exact .inl hvisited
      · rcases mem_cons.1 hpending with rfl | hpending
        · exact .inl hmem
        · exact .inr hpending
    obtain ⟨hall, hdone⟩ := ih hclosed
    exact ⟨forall_mem_cons.2 ⟨visited_subset_visit hmem, hall⟩, hdone⟩
  | case3 visited a pending hnew ih =>
    rw [visit, if_neg hnew]
    have hclosed : graph.Closed (a :: visited) (graph.push a pending) := by
      intro b hb c hc
      rcases mem_cons.1 hb with rfl | hb
      · exact .inr (mem_push.2 (.inl hc))
      · rcases h b hb c hc with hvisited | hpending
        · exact .inl (mem_cons_of_mem a hvisited)
        · rcases mem_cons.1 hpending with rfl | hpending
          · exact .inl mem_cons_self
          · exact .inr (mem_push.2 (.inr hpending))
    obtain ⟨hall, hdone⟩ := ih hclosed
    refine ⟨forall_mem_cons.2 ⟨visited_subset_visit mem_cons_self, fun b hb => ?_⟩, hdone⟩
    exact hall b (mem_push.2 (.inr hb))

/-- **What is visited from a stack** is what can be reached from it. -/
theorem mem_visit_iff : b ∈ graph.visit [] pending ↔ ∃ a ∈ pending, graph.Reaches a b := by
  constructor
  · intro h
    rcases reaches_of_mem_visit h with h | h
    · cases h
    · exact h
  · rintro ⟨a, ha, hreach⟩
    have hclosed := @closed_visit _ _ graph [] pending nofun
    obtain ⟨hall, hdone⟩ := hclosed
    induction hreach with
    | refl => exact hall a ha
    | tail _ hnext ih =>
      rcases hdone _ ih _ hnext with h | h
      · exact h
      · cases h

end Successors

end Codex
