import Mathlib.Data.List.Basic

/-!
# Computations that may fail

Inversion of `Except` computations: a bind or a fold that returns `ok` has run
through its parts. A run is a list of calls, each of which may fail: if one call
keeps a property exactly when it meets a condition, then the property holds in all
states of a run exactly when all its calls meet the condition (`good_run_iff`).
-/

namespace Codex

open List

variable {ε α β : Type}

@[simp] theorem ok_bind (a : α) (f : α → Except ε β) : (Except.ok a >>= f) = f a := rfl

@[simp] theorem error_bind (e : ε) (f : α → Except ε β) : (Except.error e >>= f) = .error e := rfl

theorem bind_eq_ok {x : Except ε α} {f : α → Except ε β} {b : β} :
    (x >>= f) = .ok b ↔ ∃ a, x = .ok a ∧ f a = .ok b := by
  cases x with
  | error e => simp
  | ok a => simp

theorem map_eq_ok {x : Except ε α} {f : α → β} {b : β} :
    x.map f = .ok b ↔ ∃ a, x = .ok a ∧ f a = b := by
  cases x with
  | error e => simp [Except.map]
  | ok a => simp [Except.map]

theorem toOption_eq_some {x : Except ε α} {a : α} : x.toOption = some a ↔ x = .ok a := by
  cases x with
  | error e => simp [Except.toOption]
  | ok a => simp [Except.toOption]

/-! ## Runs of calls -/

variable {σ : Type} {step : σ → α → Except ε σ} {Good : σ → Prop} {Kept : σ → α → Prop}

theorem foldlM_cons_ok {s s₁ : σ} {a : α} (h : step s a = .ok s₁) (l : List α) :
    (a :: l).foldlM step s = l.foldlM step s₁ := by
  rw [foldlM_cons, h, ok_bind]

/-- **Exact conditions along a run.** `Inv` is what the calls of the run keep when they meet the
condition; only calls of the run matter (`Call`). -/
theorem good_run_iff (Inv : σ → Prop) {Call : α → Prop}
    (hstep : ∀ s a s', Call a → Inv s → Good s → step s a = .ok s' → (Good s' ↔ Kept s a))
    (hinv : ∀ s a s', Call a → Inv s → Good s → step s a = .ok s' → Kept s a → Inv s')
    {s s' : σ} {l : List α} (hcalls : ∀ a ∈ l, Call a) (hi : Inv s) (hg : Good s)
    (hrun : l.foldlM step s = .ok s') :
    (∀ pre post t, l = pre ++ post → pre.foldlM step s = .ok t → Good t) ↔
      ∀ pre a post t, l = pre ++ a :: post → pre.foldlM step s = .ok t → Kept t a := by
  induction l generalizing s with
  | nil =>
    refine iff_of_true ?_ ?_
    · intro pre post t h ht
      obtain ⟨rfl, -⟩ := append_eq_nil_iff.1 h.symm
      cases ht
      exact hg
    · intro pre a post t h
      exact absurd h.symm (by simp)
  | cons a l ih =>
    rw [foldlM_cons, bind_eq_ok] at hrun
    obtain ⟨s₁, hs₁, hrun⟩ := hrun
    have hcall : Call a := hcalls a (by simp)
    have hone := hstep s a s₁ hcall hi hg hs₁
    have hrest := fun hk => ih (fun b hb => hcalls b (by simp [hb]))
      (hinv s a s₁ hcall hi hg hs₁ hk) (hone.2 hk) hrun
    have hcons := foldlM_cons_ok hs₁
    constructor
    · intro hall pre b post t h ht
      have hk : Kept s a := hone.1 (hall [a] l s₁ rfl (hcons []))
      cases pre with
      | nil =>
        obtain ⟨rfl, rfl⟩ := List.cons.inj h
        cases ht
        exact hk
      | cons a' pre =>
        obtain ⟨rfl, htail⟩ := List.cons.inj h
        refine (hrest hk).1 ?_ pre b post t htail ((hcons pre).symm.trans ht)
        intro pre' post' t' h' ht'
        exact hall (a :: pre') post' t' (by rw [h', cons_append]) ((hcons pre').trans ht')
    · intro hall pre post t h ht
      cases pre with
      | nil =>
        cases ht
        exact hg
      | cons a' pre =>
        obtain ⟨rfl, htail⟩ := List.cons.inj h
        have hk : Kept s a := hall [] a l s rfl rfl
        refine (hrest hk).2 ?_ pre post t htail ((hcons pre).symm.trans ht)
        intro pre' b post' t' h' ht'
        exact hall (a :: pre') b post' t' (by rw [h', cons_append]) ((hcons pre').trans ht')

end Codex
