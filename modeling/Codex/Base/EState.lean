import Mathlib.Data.List.Basic

/-!
# Computations with a state that survives failures

Inversion rules for `EStateM`: a sequence that returns has run through its
parts. `lens` runs a computation on a part of the state.
-/

namespace Codex

variable {ε σ α β : Type}

/-- `x` returns `a` from `s` and leaves `s'`. -/
def Returns (x : EStateM ε σ α) (s : σ) (a : α) (s' : σ) : Prop := x s = .ok a s'

theorem returns_pure {a b : α} {s s' : σ} :
    Returns (pure a : EStateM ε σ α) s b s' ↔ a = b ∧ s = s' := by
  show EStateM.Result.ok a s = EStateM.Result.ok b s' ↔ _
  simp

theorem returns_bind {x : EStateM ε σ α} {f : α → EStateM ε σ β} {s s'' : σ} {b : β} :
    Returns (x >>= f) s b s'' ↔ ∃ a s', Returns x s a s' ∧ Returns (f a) s' b s'' := by
  show EStateM.bind x f s = .ok b s'' ↔ _
  unfold EStateM.bind Returns
  cases x s with
  | ok a s' => simp
  | error e s' => simp

theorem returns_throw {e : ε} {s s' : σ} {a : α} :
    Returns (throw e : EStateM ε σ α) s a s' ↔ False := by
  show EStateM.Result.error e s = EStateM.Result.ok a s' ↔ _
  simp

theorem returns_modify {f : σ → σ} {s s' : σ} {u : PUnit} :
    Returns (modify f : EStateM ε σ PUnit) s u s' ↔ s' = f s := by
  show EStateM.Result.ok PUnit.unit (f s) = EStateM.Result.ok u s' ↔ _
  simp [eq_comm]

theorem returns_get {s s' a : σ} :
    Returns (get : EStateM ε σ σ) s a s' ↔ a = s ∧ s = s' := by
  show EStateM.Result.ok s s = EStateM.Result.ok a s' ↔ _
  simp [eq_comm]

/-- `Result` as a computation: `?`. -/
def ofExcept (x : Except ε α) : EStateM ε σ α :=
  match x with
  | .ok a => pure a
  | .error e => throw e

theorem returns_ofExcept {x : Except ε α} {s s' : σ} {a : α} :
    Returns (ofExcept x : EStateM ε σ α) s a s' ↔ x = .ok a ∧ s' = s := by
  cases x with
  | ok b =>
    rw [ofExcept, returns_pure]
    simp [eq_comm]
  | error e =>
    rw [ofExcept, returns_throw]
    simp

theorem bind_of_ok {x : EStateM ε σ α} {f : α → EStateM ε σ β} {s s' : σ} {a : α}
    (h : x s = .ok a s') : (x >>= f) s = f a s' := by
  show EStateM.bind x f s = _
  rw [EStateM.bind, h]

theorem bind_of_error {x : EStateM ε σ α} {f : α → EStateM ε σ β} {s s' : σ} {e : ε}
    (h : x s = .error e s') : (x >>= f) s = .error e s' := by
  show EStateM.bind x f s = _
  rw [EStateM.bind, h]

/-- The state that `x` leaves, whether it returns or fails. -/
def leaves (x : EStateM ε σ α) (s : σ) : σ :=
  match x s with
  | .ok _ s' => s'
  | .error _ s' => s'

theorem Returns.leaves_eq {x : EStateM ε σ α} {s s' : σ} {a : α} (h : Returns x s a s') :
    leaves x s = s' := by
  unfold leaves
  rw [h]

/-! ## Outcomes -/

/-- `x` ends from `s`: with a result and a state in `ok`, or with a failure in a
state in `failed`. -/
def Ends (x : EStateM ε σ α) (s : σ) (ok : α → σ → Prop) (failed : σ → Prop) : Prop :=
  match x s with
  | .ok a s' => ok a s'
  | .error _ s' => failed s'

section Ends

variable {x : EStateM ε σ α} {f : α → EStateM ε σ β} {s : σ} {ok ok' : α → σ → Prop}
  {failed failed' : σ → Prop}

theorem Ends.leaves {I : σ → Prop} (h : Ends x s (fun _ s' => I s') I) : I (leaves x s) := by
  unfold Ends at h
  unfold Codex.leaves
  split
  · next hx =>
    rw [hx] at h
    exact h
  · next hx =>
    rw [hx] at h
    exact h

theorem Ends.mono (h : Ends x s ok failed) (hok : ∀ a s', ok a s' → ok' a s')
    (hfailed : ∀ s', failed s' → failed' s') : Ends x s ok' failed' := by
  unfold Ends at h ⊢
  split
  · next hx =>
    rw [hx] at h
    exact hok _ _ h
  · next hx =>
    rw [hx] at h
    exact hfailed _ h

/-- What a call ends in is known when it is known how it ends. -/
theorem Ends.of_ok (h : Ends x s ok failed) {a : α} {s' : σ} (hx : x s = .ok a s') :
    Ends x s ok failed' := by
  unfold Ends at h ⊢
  rw [hx] at h ⊢
  exact h

theorem Ends.of_error (h : Ends x s ok failed) {e : ε} {s' : σ} (hx : x s = .error e s') :
    failed s' := by
  unfold Ends at h
  rw [hx] at h
  exact h

theorem ends_pure {a : α} (h : ok a s) : Ends (pure a : EStateM ε σ α) s ok failed := h

theorem ends_throw {e : ε} (h : failed s) : Ends (throw e : EStateM ε σ α) s ok failed := h

theorem ends_modify {f : σ → σ} {ok : PUnit → σ → Prop} (h : ok ⟨⟩ (f s)) :
    Ends (modify f : EStateM ε σ PUnit) s ok failed := h

theorem ends_get {ok : σ → σ → Prop} (h : ok s s) : Ends (get : EStateM ε σ σ) s ok failed := h

theorem ends_bind {ok : β → σ → Prop} (h : Ends x s (fun a s' => Ends (f a) s' ok failed) failed) :
    Ends (x >>= f) s ok failed := by
  unfold Ends at h ⊢
  show match EStateM.bind x f s with | .ok a s' => ok a s' | .error _ s' => failed s'
  unfold EStateM.bind
  cases hx : x s with
  | ok a s' | error e s' =>
    rw [hx] at h
    exact h

theorem ends_tryCatch {handle : ε → EStateM ε σ α}
    (h : Ends x s ok fun s' => ∀ e, Ends (handle e) s' ok failed) :
    Ends (tryCatch x handle) s ok failed := by
  unfold Ends at h ⊢
  show match EStateM.tryCatch x handle s with | .ok a s' => ok a s' | .error _ s' => failed s'
  unfold EStateM.tryCatch
  cases hx : x s with
  | ok a s' =>
    rw [hx] at h
    exact h
  | error e s' =>
    rw [hx] at h
    exact h e

/-- A sequence, by what its first part ends in. -/
theorem Ends.bind {ok' : β → σ → Prop} (hx : Ends x s ok failed)
    (hf : ∀ a s', ok a s' → Ends (f a) s' ok' failed') (hfailed : ∀ s', failed s' → failed' s') :
    Ends (x >>= f) s ok' failed' :=
  ends_bind (hx.mono hf hfailed)

theorem ends_ofExcept {x : Except ε α} (hok : ∀ a, x = .ok a → ok a s)
    (herror : ∀ e, x = .error e → failed s) : Ends (ofExcept x) s ok failed := by
  cases x with
  | ok a => exact hok a rfl
  | error e => exact herror e rfl

end Ends

/-- The computation returns from `s`, with a result and a state that pass the check. -/
def returnsWith (x : EStateM ε σ α) (s : σ) (check : α → σ → Bool) : Bool :=
  match x s with
  | .ok a s' => check a s'
  | .error _ _ => false

theorem exists_returns {x : EStateM ε σ α} {s : σ} (check : α → σ → Bool)
    (h : returnsWith x s check = true) : ∃ a s', Returns x s a s' ∧ check a s' = true := by
  unfold returnsWith at h
  split at h
  · next a s' hx => exact ⟨a, s', hx, h⟩
  · cases h

end Codex
