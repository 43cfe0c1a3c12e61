import Mathlib.Data.List.Sort

/-!
# Sorting by a key

Elements are sorted by a key, and those with one key keep their order. So a relation holds between
all elements of the sorted list, in its order, exactly when it holds between the elements of the
list, each pair taken in the order that sorting gives it (`pairwise_sortByKey`).
-/

namespace Codex

variable {α κ : Type} [LinearOrder κ] {key : α → κ} {R : α → α → Prop} {l : List α}

/-- `sort_by_key`. -/
def sortByKey (key : α → κ) (l : List α) : List α := l.insertionSort fun a b => key a ≤ key b

/-- The relation, on a pair in the order that sorting gives it. -/
def InKeyOrder (key : α → κ) (R : α → α → Prop) (a b : α) : Prop :=
  if key a ≤ key b then R a b else R b a

theorem inKeyOrder_of_le {a b : α} (h : key a ≤ key b) : InKeyOrder key R a b ↔ R a b := by
  rw [InKeyOrder, if_pos h]

theorem inKeyOrder_of_lt {a b : α} (h : key b < key a) : InKeyOrder key R a b ↔ R b a := by
  rw [InKeyOrder, if_neg (not_le.2 h)]

theorem sortByKey_cons (a : α) (l : List α) :
    sortByKey key (a :: l) = (sortByKey key l).orderedInsert (fun a b => key a ≤ key b) a := rfl

theorem sortByKey_perm (key : α → κ) (l : List α) : (sortByKey key l).Perm l :=
  List.perm_insertionSort _ l

theorem sortByKey_sorted (key : α → κ) (l : List α) :
    (sortByKey key l).Pairwise fun a b => key a ≤ key b := by
  have : Std.Total fun a b : α => key a ≤ key b := ⟨fun a b => le_total (key a) (key b)⟩
  have : IsTrans α fun a b => key a ≤ key b := ⟨fun _ _ _ => le_trans⟩
  exact List.pairwise_insertionSort _ l

/-- An element goes behind those with a smaller key, and before all others. -/
theorem pairwise_orderedInsert (a : α) (h : l.Pairwise fun a b => key a ≤ key b) :
    (l.orderedInsert (fun a b => key a ≤ key b) a).Pairwise R ↔
      (∀ b ∈ l, InKeyOrder key R a b) ∧ l.Pairwise R := by
  induction l with
  | nil => simp
  | cons b l ih =>
    obtain ⟨hb, hl⟩ := List.pairwise_cons.1 h
    by_cases hab : key a ≤ key b
    · have hle : ∀ c ∈ b :: l, key a ≤ key c := by
        intro c hc
        rcases List.mem_cons.1 hc with rfl | hc
        · exact hab
        · exact hab.trans (hb c hc)
      rw [List.orderedInsert_cons, if_pos hab, List.pairwise_cons]
      refine and_congr_left' (forall₂_congr fun c hc => ?_)
      exact (inKeyOrder_of_le (hle c hc)).symm
    · rw [List.orderedInsert_cons, if_neg hab, List.pairwise_cons, ih hl, List.forall_mem_cons,
        inKeyOrder_of_lt (not_le.1 hab), List.pairwise_cons]
      simp only [List.mem_orderedInsert, forall_eq_or_imp]
      tauto

/-- **Pairs of the sorted list are pairs of the list.** -/
theorem pairwise_sortByKey : (sortByKey key l).Pairwise R ↔ l.Pairwise (InKeyOrder key R) := by
  induction l with
  | nil => exact iff_of_true List.Pairwise.nil List.Pairwise.nil
  | cons a l ih =>
    rw [sortByKey_cons, pairwise_orderedInsert a (sortByKey_sorted key l), List.pairwise_cons, ih]
    refine and_congr_left' (forall_congr' fun b => ?_)
    rw [(sortByKey_perm key l).mem_iff]

end Codex
