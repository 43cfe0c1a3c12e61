import Mathlib.Data.List.Induction
import Mathlib.Data.Prod.Lex

/-!
# Longest-prefix match

Entries sit at paths, which are lists of names, and an entry covers everything
below its path. The entry that governs a path is the deepest one that covers it;
of several at one depth, the one of highest rank.
-/

namespace Codex

variable {α κ ι : Type}

/-- The last of the elements with the greatest key. -/
def maxByKey [LinearOrder κ] (key : ι → κ) (l : List ι) : Option ι :=
  l.foldl (fun best x =>
    match best with
    | none => some x
    | some a => if key x < key a then some a else some x) none

theorem maxByKey_concat [LinearOrder κ] (key : ι → κ) (l : List ι) (x : ι) :
    maxByKey key (l ++ [x]) =
      match maxByKey key l with
      | none => some x
      | some a => if key x < key a then some a else some x := by
  rw [maxByKey, List.foldl_append]
  rfl

theorem maxByKey_spec [LinearOrder κ] (key : ι → κ) (l : List ι) :
    match maxByKey key l with
    | none => l = []
    | some a => a ∈ l ∧ ∀ x ∈ l, key x ≤ key a := by
  induction l using List.reverseRecOn with
  | nil => rfl
  | append_singleton l x ih =>
    rw [maxByKey_concat]
    cases hl : maxByKey key l with
    | none =>
      rw [hl] at ih
      subst ih
      simp
    | some a =>
      rw [hl] at ih
      obtain ⟨ha, hmax⟩ := ih
      by_cases hx : key x < key a
      · simp only [if_pos hx]
        refine ⟨List.mem_append_left _ ha, fun y hy => ?_⟩
        rcases List.mem_append.1 hy with hy | hy
        · exact hmax y hy
        · rw [List.mem_singleton.1 hy]
          exact hx.le
      · simp only [if_neg hx]
        refine ⟨by simp, fun y hy => ?_⟩
        rcases List.mem_append.1 hy with hy | hy
        · exact (hmax y hy).trans (not_lt.1 hx)
        · rw [List.mem_singleton.1 hy]

theorem maxByKey_eq_none [LinearOrder κ] {key : ι → κ} {l : List ι}
    (h : maxByKey key l = none) : l = [] := by
  have hspec := maxByKey_spec key l
  rw [h] at hspec
  exact hspec

theorem maxByKey_eq_some [LinearOrder κ] {key : ι → κ} {l : List ι} {a : ι}
    (h : maxByKey key l = some a) : a ∈ l ∧ ∀ x ∈ l, key x ≤ key a := by
  have hspec := maxByKey_spec key l
  rw [h] at hspec
  exact hspec

/-! ## Prefixes of one path -/

theorem prefix_total {p q r : List α} (hq : q <+: p) (hr : r <+: p) : q <+: r ∨ r <+: q :=
  (le_total q.length r.length).imp (List.prefix_of_prefix_length_le hq hr)
    (List.prefix_of_prefix_length_le hr hq)

theorem prefix_antisymm {p q : List α} (hpq : p <+: q) (hqp : q <+: p) : p = q :=
  hpq.eq_of_length_le hqp.length_le

/-- A proper prefix, and the name of the path that follows it. -/
theorem exists_child {p q : List α} (h : q <+: p) (hne : q ≠ p) : ∃ n, q ++ [n] <+: p := by
  obtain ⟨t, rfl⟩ := h
  cases t with
  | nil => exact absurd (List.append_nil q).symm hne
  | cons n t => exact ⟨n, t, by simp⟩

theorem child_unique {p q : List α} {m n : α} (hm : q ++ [m] <+: p) (hn : q ++ [n] <+: p) :
    m = n := by
  have heq : q ++ [m] = q ++ [n] :=
    (List.prefix_of_prefix_length_le hm hn (by simp)).eq_of_length (by simp)
  exact List.singleton_inj.1 (List.append_cancel_left heq)

/-- Below a path, either nothing or one more name follows. -/
theorem prefix_child_iff {p q : List α} {n : α} : p <+: q ++ [n] ↔ p = q ++ [n] ∨ p <+: q :=
  List.prefix_concat_iff

theorem child_not_prefix {q : List α} {n : α} : ¬ q ++ [n] <+: q := by
  intro h
  have hlen := h.length_le
  rw [List.length_append, List.length_singleton] at hlen
  omega

/-! ## The governing entry -/

section Governs

variable (path : ι → List α) (rank : ι → ℕ)

/-- The entry `e` decides what holds at `p`. -/
structure Governs (E : List ι) (p : List α) (e : ι) : Prop where
  mem : e ∈ E
  covers : path e <+: p
  deepest : ∀ e' ∈ E, path e' <+: p → path e' <+: path e
  strongest : ∀ e' ∈ E, path e' = path e → rank e' ≤ rank e

variable {path rank} {E : List ι} {p : List α} {e : ι}

/-- Choosing by depth and then by rank finds the governing entry. -/
theorem governs_of_maxByKey [DecidableEq α] {n : ℕ}
    (h : maxByKey (fun e => toLex ((path e).length + n, rank e))
      (E.filter fun e => path e <+: p) = some e) : Governs path rank E p e := by
  obtain ⟨hmem, hmax⟩ := maxByKey_eq_some h
  rw [List.mem_filter] at hmem
  have hcov : path e <+: p := of_decide_eq_true hmem.2
  have hkey : ∀ e' ∈ E, path e' <+: p → (path e').length < (path e).length ∨
      (path e').length = (path e).length ∧ rank e' ≤ rank e := by
    intro e' he' hp'
    have hle := hmax e' (List.mem_filter.2 ⟨he', decide_eq_true hp'⟩)
    rw [Prod.Lex.toLex_le_toLex] at hle
    omega
  refine ⟨hmem.1, hcov, fun e' he' hp' => ?_, fun e' he' heq => ?_⟩
  · have hlen : (path e').length ≤ (path e).length := by
      rcases hkey e' he' hp' with h | h
      · exact h.le
      · exact h.1.le
    exact List.prefix_of_prefix_length_le hp' hcov hlen
  · rcases hkey e' he' (heq ▸ hcov) with h | h
    · rw [heq] at h
      exact absurd h (lt_irrefl _)
    · exact h.2

/-- Where something covers a path, something governs it. -/
theorem exists_governs (he : e ∈ E) (hp : path e <+: p) : ∃ e', Governs path rank E p e' := by
  classical
  cases h : maxByKey (fun e => toLex ((path e).length + 0, rank e))
      (E.filter fun e => path e <+: p) with
  | none =>
    have hmem : e ∈ E.filter fun e => path e <+: p :=
      List.mem_filter.2 ⟨he, decide_eq_true hp⟩
    rw [maxByKey_eq_none h] at hmem
    cases hmem
  | some e' => exact ⟨e', governs_of_maxByKey h⟩

namespace Governs

theorem path_unique {e' : ι} (h : Governs path rank E p e) (h' : Governs path rank E p e') :
    path e = path e' :=
  prefix_antisymm (h'.deepest e h.mem h.covers) (h.deepest e' h'.mem h'.covers)

theorem rank_unique {e' : ι} (h : Governs path rank E p e) (h' : Governs path rank E p e') :
    rank e = rank e' :=
  le_antisymm (h'.strongest e h.mem (h.path_unique h'))
    (h.strongest e' h'.mem (h'.path_unique h))

/-- An entry governs everything between its path and a path that it governs. -/
theorem between {p' : List α} (h : Governs path rank E p e) (hq : path e <+: p') (hp : p' <+: p) :
    Governs path rank E p' e :=
  ⟨h.mem, hq, fun e' he' hp' => h.deepest e' he' (hp'.trans hp), h.strongest⟩

theorem self (h : Governs path rank E p e) : Governs path rank E (path e) e :=
  h.between (List.prefix_refl _) h.covers

/-- Where no further entry comes in between, the governing entry stays. -/
theorem extend {p' : List α} (h : Governs path rank E p' e) (hp : p' <+: p)
    (hno : ∀ e' ∈ E, path e' <+: p → path e' <+: p') : Governs path rank E p e :=
  ⟨h.mem, h.covers.trans hp, fun e' he' hp' => h.deepest e' he' (hno e' he' hp'), h.strongest⟩

end Governs

end Governs

end Codex
