import Codex.Readiness.Flag

/-!
# What the flag promises

Whatever order the calls make their steps in: the flag stays ready, one `mark_ready`
wins with a token that was handed out, and no token is handed out once the flag is ready.
A waiter is woken as long as no send finds the channel without a receiver while a
waiter is about to subscribe (`ready_once_and_woken`).
-/

namespace Codex.Readiness

open List

namespace Call

/-- The call holds the lock. -/
@[simp] def holds : Call → Bool
  | .check _ .checking | .check _ (.unlocking _) => true
  | .subscribe .reloading | .subscribe .allocating | .subscribe (.unlocking _) => true
  | .mark _ .removing | .mark _ .storing | .mark _ (.unlocking _) => true
  | _ => false

/-- The call has found under the lock that the flag is not ready. -/
@[simp] def finds : Call → Bool
  | .subscribe .allocating | .subscribe (.unlocking (some _)) | .mark _ .storing => true
  | _ => false

/-- The `mark_ready` has set the flag. -/
@[simp] def stored : Call → Bool
  | .mark _ (.unlocking true) | .mark _ .sending | .finished (.marked _ (.ok true)) => true
  | _ => false

/-- The token with which a `mark_ready` is let through. -/
@[simp] def winsWith : Call → Option Token
  | .mark token .storing | .mark token (.unlocking true) | .mark token .sending
  | .finished (.marked token (.ok true)) => some token
  | _ => none

/-- The flag is ready and the tokens are not yet cleared. -/
@[simp] def clearing : Call → Bool
  | .mark _ (.unlocking true) => true
  | _ => false

/-- The call is going to send. -/
@[simp] def sends : Call → Bool
  | .check _ (.unlocking false) | .check _ .sending => true
  | .mark _ (.unlocking true) | .mark _ .sending => true
  | _ => false

/-- The next step of the call is the send. -/
@[simp] def sending : Call → Bool
  | .check _ .sending | .mark _ .sending => true
  | _ => false

@[simp] def receives : Call → Bool
  | .wait (.borrowing _) | .wait (.parked _) => true
  | _ => false

/-- A `wait_ready` that has not found the flag ready. -/
@[simp] def waits : Call → Bool
  | .wait _ => true
  | _ => false

end Call

/-! ## What a step can do -/

/-- A step of the call at `index`. -/
structure Moves (index : ℕ) (flag : ReadinessFlag) (old : Call) (flag' : ReadinessFlag)
    (new : Call) : Prop where
  notFinished : ∀ outcome, old ≠ .finished outcome
  locks : new.holds = true → (old.holds = true ∧ flag'.locked = flag.locked) ∨
    (flag.locked = false ∧ flag'.locked = true)
  unlocks : flag.locked = true → flag'.locked = true ∨ old.holds = true
  ready : flag'.ready = flag.ready ∨ (flag'.ready = true ∧ old.holds = true)
  sets : flag'.ready = true → flag.ready = true ∨ new.sends = true
  finds : new.finds = true → flag'.ready = flag.ready ∧ (flag.ready = false ∨ old.finds = true ∨
    (old.holds = true ∧ old.clearing = false ∧ flag.tokens ≠ []))
  stores : new.stored = true → old.stored = true ∨ flag'.ready = true
  wins : ∀ token, new.winsWith = some token → old.winsWith = some token ∨
    (old.holds = true ∧ old.clearing = false ∧ token ∈ flag.tokens)
  inserts : ∀ token ∈ flag'.tokens, token ∈ flag.tokens ∨ new = .subscribe (.unlocking (some token))
  clears : flag'.tokens = [] ∨ new.clearing = true ∨
    (old.finds = true ∧ flag'.ready = flag.ready) ∨
    (flag'.tokens ⊆ flag.tokens ∧ flag'.ready = flag.ready ∧ old.clearing = false)
  handsOut : ∀ token, old = .subscribe (.unlocking (some token)) →
    new = .finished (.subscribed (.ok token))
  handedOut : ∀ token, new = .finished (.subscribed (.ok token)) →
    old = .subscribe (.unlocking (some token))
  receives : new.receives = true →
    index ∈ flag'.receivers ∨ (old.receives = true ∧ flag'.receivers = flag.receivers)
  receivers : ∀ j, j ≠ index → j ∈ flag.receivers → j ∈ flag'.receivers
  value : flag.value = true → flag'.value = true
  sent : old.sends = true → new.sends = true ∨
    (old.sending = true ∧ (flag'.value = true ∨ flag.receivers = []))
  waits : new.waits = true → old.waits = true ∨ flag'.ready = false

variable {index : ℕ} {flag flag' : ReadinessFlag} {old new : Call}

@[simp] theorem send_ready (flag : ReadinessFlag) : flag.send.ready = flag.ready := by
  unfold ReadinessFlag.send
  split <;> rfl

@[simp] theorem send_tokens (flag : ReadinessFlag) : flag.send.tokens = flag.tokens := by
  unfold ReadinessFlag.send
  split <;> rfl

@[simp] theorem send_locked (flag : ReadinessFlag) : flag.send.locked = flag.locked := by
  unfold ReadinessFlag.send
  split <;> rfl

@[simp] theorem send_receivers (flag : ReadinessFlag) : flag.send.receivers = flag.receivers := by
  unfold ReadinessFlag.send
  split <;> rfl

theorem send_value_of (flag : ReadinessFlag) (h : flag.value = true) : flag.send.value = true := by
  unfold ReadinessFlag.send
  split
  · exact h
  · rfl

theorem send_value (flag : ReadinessFlag) : flag.send.value = true ∨ flag.receivers = [] := by
  unfold ReadinessFlag.send
  split
  · next h => exact .inr h
  · exact .inl rfl

theorem moves_check {waiter : Bool} (stage : CheckStage) :
    Moves index flag (.check waiter stage) (advanceCheck flag waiter stage).1
      (advanceCheck flag waiter stage).2 := by
  cases stage with
  | loading | reloading =>
    unfold advanceCheck Call.checked
    cases hready : flag.ready <;> cases waiter <;> constructor <;> simp [hready]
  | locking =>
    unfold advanceCheck
    cases hlocked : flag.locked <;> constructor <;> simp [hlocked]
  | checking =>
    unfold advanceCheck
    by_cases htokens : flag.tokens = []
    · cases hready : flag.ready <;> constructor <;> simp [htokens, hready]
    · constructor <;> simp [htokens]
  | unlocking wasReady =>
    unfold advanceCheck Call.checked
    cases wasReady <;> cases waiter <;> constructor <;> simp
  | sending =>
    have hkept := send_value_of flag
    have hsent := send_value flag
    unfold advanceCheck Call.checked
    cases waiter
    · constructor
      case value => exact hkept
      all_goals simp [hsent]
    · constructor
      case value => exact hkept
      all_goals simp [hsent]

theorem moves_subscribe {stage : SubscribeStage}
    (h : advanceSubscribe flag stage = some (flag', new)) :
    Moves index flag (.subscribe stage) flag' new := by
  cases stage with
  | loading | reloading =>
    cases h
    cases hready : flag.ready <;> constructor <;> simp [hready]
  | locking =>
    simp only [advanceSubscribe] at h
    split at h
    · cases h
    · next hlocked =>
      cases h
      constructor <;> simp [hlocked]
  | allocating =>
    simp only [advanceSubscribe] at h
    split at h
    · cases h
      constructor <;> simp +contextual
    · cases h
      constructor <;> simp
  | unlocking token =>
    cases h
    cases token <;> constructor <;> simp

theorem moves_mark {token : Token} {stage : MarkStage}
    (h : advanceMark flag token stage = some (flag', new)) :
    Moves index flag (.mark token stage) flag' new := by
  cases stage with
  | loading =>
    simp only [advanceMark] at h
    cases h
    split
    · constructor <;> simp
    · constructor <;> simp
  | locking =>
    simp only [advanceMark] at h
    split at h
    · cases h
    · next hlocked =>
      cases h
      constructor <;> simp [hlocked]
  | removing =>
    simp only [advanceMark] at h
    split at h
    · next hmem =>
      cases h
      have hne : flag.tokens ≠ [] := ne_nil_of_mem hmem
      have hsubset : flag.tokens.erase token ⊆ flag.tokens := erase_subset
      constructor
      case inserts => exact fun token' htoken => .inl (hsubset htoken)
      all_goals simp [hmem, hne, hsubset]
    · cases h
      constructor <;> simp
  | storing =>
    cases h
    constructor <;> simp
  | unlocking removed =>
    cases removed
    · cases h
      constructor <;> simp
    · cases h
      constructor <;> simp
  | sending =>
    have hkept := send_value_of flag
    have hsent := send_value flag
    cases h
    constructor
    case value => exact hkept
    all_goals simp [hsent]

theorem moves_wait {stage : WaitStage} (h : advanceWait flag index stage = some (flag', new)) :
    Moves index flag (.wait stage) flag' new := by
  cases stage with
  | subscribing =>
    cases h
    constructor <;> simp +contextual
  | borrowing seen =>
    simp only [advanceWait] at h
    split at h
    · cases h
      constructor <;> simp +contextual [mem_erase_of_ne]
    · cases h
      constructor <;> simp
  | parked seen =>
    simp only [advanceWait] at h
    split at h
    · cases h
    · cases h
      constructor <;> simp

theorem moves_advance (h : advance flag index old = some (flag', new)) :
    Moves index flag old flag' new := by
  cases old with
  | check waiter stage =>
    have hmoved := Option.some.inj h
    have hmoves : Moves index flag (.check waiter stage) _ _ := moves_check stage
    rw [hmoved] at hmoves
    exact hmoves
  | subscribe stage => exact moves_subscribe h
  | mark token stage => exact moves_mark h
  | wait stage => exact moves_wait h
  | finished outcome => cases h

theorem moves_timeout (h : timeout old = some new) : Moves index flag old flag new := by
  unfold timeout at h
  split at h
  · cases h
    constructor <;> simp
  · cases h
    constructor <;> simp
  · cases h

theorem moves_drop (h : dropCall flag index old = some (flag', new)) :
    Moves index flag old flag' new := by
  unfold dropCall at h
  split at h
  · cases h
    constructor <;> simp
  · cases h
    constructor <;> simp
  · cases h
    constructor <;> simp +contextual [mem_erase_of_ne]
  · cases h

/-! ## What every step keeps -/

variable {s t : FlagCalls}

structure Sound (s : FlagCalls) : Prop where
  holds_locked : ∀ {i : ℕ} {call : Call}, s.calls[i]? = some call → call.holds = true →
    s.flag.locked = true
  holds_unique : ∀ {i j : ℕ} {call call' : Call}, s.calls[i]? = some call →
    s.calls[j]? = some call' → call.holds = true → call'.holds = true → i = j
  finds_notReady : ∀ {i : ℕ} {call : Call}, s.calls[i]? = some call → call.finds = true →
    s.flag.ready = false
  stored_ready : ∀ {i : ℕ} {call : Call}, s.calls[i]? = some call → call.stored = true →
    s.flag.ready = true
  wins_unique : ∀ {i j : ℕ} {call call' : Call} {token token' : Token}, s.calls[i]? = some call →
    s.calls[j]? = some call' → call.winsWith = some token → call'.winsWith = some token' → i = j
  wins_handedOut : ∀ {i : ℕ} {call : Call} {token : Token}, s.calls[i]? = some call →
    call.winsWith = some token → .finished (.subscribed (.ok token)) ∈ s.calls
  ready_tokens : s.flag.ready = true → (∀ call ∈ s.calls, call.clearing = false) →
    s.flag.tokens = []
  tokens_issued : ∀ token ∈ s.flag.tokens, .subscribe (.unlocking (some token)) ∈ s.calls ∨
    .finished (.subscribed (.ok token)) ∈ s.calls
  receives : ∀ {i : ℕ} {call : Call}, s.calls[i]? = some call → call.receives = true →
    i ∈ s.flag.receivers

theorem sound_start : Sound {} := by
  constructor <;> simp

theorem Call.holds_of_finds {call : Call} (h : call.finds = true) : call.holds = true := by
  unfold finds at h
  split at h <;> first | rfl | cases h

theorem Call.holds_of_clearing {call : Call} (h : call.clearing = true) : call.holds = true := by
  unfold clearing at h
  split at h <;> first | rfl | cases h

theorem Call.stored_or_holds {call : Call} {token : Token} (h : call.winsWith = some token) :
    call.stored = true ∨ call.holds = true := by
  unfold winsWith at h
  split at h <;> first | exact .inl rfl | exact .inr rfl | cases h

/-- A token in the set, found by a call that holds the lock, means that the flag is not ready. -/
theorem Sound.notReady (h : Sound s) {i : ℕ} {call : Call} (hcall : s.calls[i]? = some call)
    (hholds : call.holds = true) (hclearing : call.clearing = false) (htokens : s.flag.tokens ≠ []) :
    s.flag.ready = false := by
  by_contra hready
  refine htokens (h.ready_tokens (eq_true_of_ne_false hready) fun call' hmem => ?_)
  obtain ⟨j, hj⟩ := mem_iff_getElem?.1 hmem
  by_contra hclearing'
  rw [Bool.not_eq_false] at hclearing'
  cases h.holds_unique hcall hj hholds (Call.holds_of_clearing hclearing')
  cases hcall.symm.trans hj
  rw [hclearing] at hclearing'
  cases hclearing'

theorem put_cases {i j : ℕ} {call : Call}
    (h : (s.put i (flag', new)).calls[j]? = some call) :
    (j = i ∧ call = new) ∨ (j ≠ i ∧ s.calls[j]? = some call) := by
  have hset : (s.calls.set i new)[j]? = some call := h
  by_cases hij : i = j
  · subst hij
    rw [getElem?_set_self'] at hset
    cases hold : s.calls[i]? with
    | none =>
      rw [hold] at hset
      cases hset
    | some old =>
      rw [hold] at hset
      cases hset
      exact .inl ⟨rfl, rfl⟩
  · rw [getElem?_set_ne hij] at hset
    exact .inr ⟨Ne.symm hij, hset⟩

theorem mem_put_new {i : ℕ} (hold : s.calls[i]? = some old) :
    new ∈ (s.put i (flag', new)).calls :=
  mem_set (List.getElem?_eq_some_iff.1 hold).1 new

theorem mem_put_of_ne {i : ℕ} {call : Call} (hold : s.calls[i]? = some old) (hmem : call ∈ s.calls)
    (hne : call ≠ old) : call ∈ (s.put i (flag', new)).calls := by
  obtain ⟨j, hj⟩ := mem_iff_getElem?.1 hmem
  refine mem_iff_getElem?.2 ⟨j, ?_⟩
  have hij : i ≠ j := by
    rintro rfl
    cases hold.symm.trans hj
    exact hne rfl
  exact (getElem?_set_ne hij).trans hj

theorem Moves.ready_kept (h : Moves index flag old flag' new) (hready : flag.ready = true) :
    flag'.ready = true := by
  rcases h.ready with heq | ⟨htrue, -⟩
  · exact heq.trans hready
  · exact htrue

/-- Every step of a call keeps the invariant. -/
theorem Sound.put (h : Sound s) {i : ℕ} (hold : s.calls[i]? = some old)
    (hmoves : Moves i s.flag old flag' new) : Sound (s.put i (flag', new)) := by
  constructor
  case holds_locked =>
    intro j call hcall hholds
    rcases put_cases hcall with ⟨rfl, rfl⟩ | ⟨hne, hcall⟩
    · rcases hmoves.locks hholds with ⟨hholds', heq⟩ | ⟨-, hlocked⟩
      · exact heq.trans (h.holds_locked hold hholds')
      · exact hlocked
    · rcases hmoves.unlocks (h.holds_locked hcall hholds) with hlocked | hholds'
      · exact hlocked
      · exact (hne (h.holds_unique hcall hold hholds hholds')).elim
  case holds_unique =>
    have hother : ∀ {j : ℕ} {call : Call}, s.calls[j]? = some call → j ≠ i → new.holds = true →
        call.holds = true → False := by
      intro j call hcall hne hholds hholds'
      rcases hmoves.locks hholds with ⟨hholds'', -⟩ | ⟨hunlocked, -⟩
      · exact hne (h.holds_unique hcall hold hholds' hholds'')
      · rw [h.holds_locked hcall hholds'] at hunlocked
        cases hunlocked
    intro j k call call' hcall hcall' hholds hholds'
    rcases put_cases hcall with ⟨rfl, rfl⟩ | ⟨hne, hj⟩
    · rcases put_cases hcall' with ⟨rfl, rfl⟩ | ⟨hne', hk⟩
      · rfl
      · exact (hother hk hne' hholds hholds').elim
    · rcases put_cases hcall' with ⟨rfl, rfl⟩ | ⟨hne', hk⟩
      · exact (hother hj hne hholds' hholds).elim
      · exact h.holds_unique hj hk hholds hholds'
  case finds_notReady =>
    intro j call hcall hfinds
    rcases put_cases hcall with ⟨rfl, rfl⟩ | ⟨hne, hcall⟩
    · obtain ⟨heq, hready | hfinds' | ⟨hholds, hclearing, htokens⟩⟩ := hmoves.finds hfinds
      · exact heq.trans hready
      · exact heq.trans (h.finds_notReady hold hfinds')
      · exact heq.trans (h.notReady hold hholds hclearing htokens)
    · rcases hmoves.ready with heq | ⟨-, hholds⟩
      · exact heq.trans (h.finds_notReady hcall hfinds)
      · exact (hne (h.holds_unique hcall hold (Call.holds_of_finds hfinds) hholds)).elim
  case stored_ready =>
    intro j call hcall hstored
    rcases put_cases hcall with ⟨rfl, rfl⟩ | ⟨-, hcall⟩
    · rcases hmoves.stores hstored with hstored' | hready
      · exact hmoves.ready_kept (h.stored_ready hold hstored')
      · exact hready
    · exact hmoves.ready_kept (h.stored_ready hcall hstored)
  case wins_unique =>
    have hother : ∀ {j : ℕ} {call : Call} {token token' : Token}, s.calls[j]? = some call → j ≠ i →
        new.winsWith = some token → call.winsWith = some token' → False := by
      intro j call token token' hcall hne hwins hwins'
      rcases hmoves.wins token hwins with hwins'' | ⟨hholds, hclearing, hmem⟩
      · exact hne (h.wins_unique hcall hold hwins' hwins'')
      · rcases Call.stored_or_holds hwins' with hstored | hholds'
        · have hready := h.notReady hold hholds hclearing (ne_nil_of_mem hmem)
          rw [h.stored_ready hcall hstored] at hready
          cases hready
        · exact hne (h.holds_unique hcall hold hholds' hholds)
    intro j k call call' token token' hcall hcall' hwins hwins'
    rcases put_cases hcall with ⟨rfl, rfl⟩ | ⟨hne, hj⟩
    · rcases put_cases hcall' with ⟨rfl, rfl⟩ | ⟨hne', hk⟩
      · rfl
      · exact (hother hk hne' hwins hwins').elim
    · rcases put_cases hcall' with ⟨rfl, rfl⟩ | ⟨hne', hk⟩
      · exact (hother hj hne hwins' hwins).elim
      · exact h.wins_unique hj hk hwins hwins'
  case wins_handedOut =>
    intro j call token hcall hwins
    have hkeep : ∀ {outcome : Outcome}, .finished outcome ∈ s.calls →
        .finished outcome ∈ (s.put i (flag', new)).calls :=
      fun hmem => mem_put_of_ne hold hmem (hmoves.notFinished _).symm
    rcases put_cases hcall with ⟨rfl, rfl⟩ | ⟨-, hcall⟩
    · rcases hmoves.wins token hwins with hwins' | ⟨hholds, -, hmem⟩
      · exact hkeep (h.wins_handedOut hold hwins')
      · rcases h.tokens_issued token hmem with hissued | hissued
        · obtain ⟨k, hk⟩ := mem_iff_getElem?.1 hissued
          cases h.holds_unique hk hold rfl hholds
          cases hk.symm.trans hold
          rw [hmoves.handsOut token rfl] at hwins
          cases hwins
        · exact hkeep hissued
    · exact hkeep (h.wins_handedOut hcall hwins)
  case ready_tokens =>
    intro hready hclearing
    rcases hmoves.clears with htokens | hclears | ⟨hfinds, heq⟩ | ⟨hsubset, heq, hclears⟩
    · exact htokens
    · rw [hclearing new (mem_put_new hold)] at hclears
      cases hclears
    · have hready' : s.flag.ready = true := heq.symm.trans hready
      rw [h.finds_notReady hold hfinds] at hready'
      cases hready'
    · have htokens := h.ready_tokens (heq.symm.trans hready) fun call hmem => by
        by_cases hcall : call = old
        · rw [hcall]
          exact hclears
        · exact hclearing call (mem_put_of_ne hold hmem hcall)
      rw [htokens] at hsubset
      exact subset_nil.1 hsubset
  case tokens_issued =>
    intro token hmem
    rcases hmoves.inserts token hmem with hmem | rfl
    · rcases h.tokens_issued token hmem with hissued | hissued
      · by_cases hcall : .subscribe (.unlocking (some token)) = old
        · have hnew := hmoves.handsOut token hcall.symm
          exact .inr (hnew ▸ mem_put_new hold)
        · exact .inl (mem_put_of_ne hold hissued hcall)
      · exact .inr (mem_put_of_ne hold hissued (hmoves.notFinished _).symm)
    · exact .inl (mem_put_new hold)
  case receives =>
    intro j call hcall hreceives
    rcases put_cases hcall with ⟨rfl, rfl⟩ | ⟨hne, hcall⟩
    · rcases hmoves.receives hreceives with hmem | ⟨hreceives', heq⟩
      · exact hmem
      · exact heq.symm ▸ h.receives hold hreceives'
    · exact hmoves.receivers j hne (h.receives hcall hreceives)

/-! ## Runs -/

theorem append_cases {calls : List Call} {call call' : Call} {j : ℕ}
    (h : (calls ++ [call])[j]? = some call') : call' = call ∨ calls[j]? = some call' := by
  by_cases hj : j < calls.length
  · rw [getElem?_append_left hj] at h
    exact .inr h
  · rw [getElem?_append_right (Nat.le_of_not_lt hj)] at h
    exact .inl (mem_singleton.1 (mem_of_getElem? h))

/-- A step starts a call, or it is a step of a call that is under way. A send is a step of the call
itself. -/
theorem step_cases {action : Action} (h : step s action = some t) :
    (∃ call : Call, call.begins = true ∧ t = { s with calls := s.calls ++ [call] }) ∨
    ∃ i old flag' new, s.calls[i]? = some old ∧ Moves i s.flag old flag' new ∧
      t = s.put i (flag', new) ∧ (old.sending = true → action = .advance i) := by
  cases action with
  | call call =>
    simp only [step] at h
    split at h
    · next hbegins =>
      cases h
      exact .inl ⟨call, hbegins, rfl⟩
    · cases h
  | advance i =>
    obtain ⟨old, hold, hmoved⟩ := Option.bind_eq_some_iff.1 h
    obtain ⟨⟨flag', new⟩, hadvance, rfl⟩ := Option.map_eq_some_iff.1 hmoved
    exact .inr ⟨i, old, flag', new, hold, moves_advance hadvance, rfl, fun _ => rfl⟩
  | timeout i =>
    obtain ⟨old, hold, hmoved⟩ := Option.bind_eq_some_iff.1 h
    obtain ⟨new, htimeout, rfl⟩ := Option.map_eq_some_iff.1 hmoved
    refine .inr ⟨i, old, s.flag, new, hold, moves_timeout htimeout, rfl, fun hsending => ?_⟩
    unfold Call.sending at hsending
    split at hsending <;> first | cases htimeout | cases hsending
  | drop i =>
    obtain ⟨old, hold, hmoved⟩ := Option.bind_eq_some_iff.1 h
    obtain ⟨⟨flag', new⟩, hdrop, rfl⟩ := Option.map_eq_some_iff.1 hmoved
    refine .inr ⟨i, old, flag', new, hold, moves_drop hdrop, rfl, fun hsending => ?_⟩
    unfold Call.sending at hsending
    split at hsending <;> first | cases hdrop | cases hsending

/-- A call that begins has done nothing yet. -/
structure Call.Idle (call : Call) : Prop where
  holds : call.holds = false
  finds : call.finds = false
  stored : call.stored = false
  winsWith : call.winsWith = none
  clearing : call.clearing = false
  receives : call.receives = false
  waits : call.waits = false

theorem Call.idle_of_begins {call : Call} (h : call.begins = true) : call.Idle := by
  unfold begins at h
  split at h
  · exact ⟨rfl, rfl, rfl, rfl, rfl, rfl, rfl⟩
  · exact ⟨rfl, rfl, rfl, rfl, rfl, rfl, rfl⟩
  · exact ⟨rfl, rfl, rfl, rfl, rfl, rfl, rfl⟩
  · cases h

theorem Sound.call (h : Sound s) {call : Call} (hidle : call.Idle) :
    Sound { s with calls := s.calls ++ [call] } := by
  have hold : ∀ {test : Call → Bool} {j : ℕ} {call' : Call}, test call = false →
      (s.calls ++ [call])[j]? = some call' → test call' = true → s.calls[j]? = some call' := by
    intro test j call' htest hcall htest'
    rcases append_cases hcall with rfl | hcall
    · rw [htest] at htest'
      cases htest'
    · exact hcall
  have hwinner : ∀ {j : ℕ} {call' : Call} {token : Token},
      (s.calls ++ [call])[j]? = some call' → call'.winsWith = some token →
      s.calls[j]? = some call' := by
    intro j call' token hcall hwins
    rcases append_cases hcall with rfl | hcall
    · rw [hidle.winsWith] at hwins
      cases hwins
    · exact hcall
  constructor
  case holds_locked =>
    intro j call' hcall hholds
    exact h.holds_locked (hold hidle.holds hcall hholds) hholds
  case holds_unique =>
    intro j k call' call'' hcall hcall' hholds hholds'
    exact h.holds_unique (hold hidle.holds hcall hholds) (hold hidle.holds hcall' hholds') hholds
      hholds'
  case finds_notReady =>
    intro j call' hcall hfinds
    exact h.finds_notReady (hold hidle.finds hcall hfinds) hfinds
  case stored_ready =>
    intro j call' hcall hstored
    exact h.stored_ready (hold hidle.stored hcall hstored) hstored
  case wins_unique =>
    intro j k call' call'' token token' hcall hcall' hwins hwins'
    exact h.wins_unique (hwinner hcall hwins) (hwinner hcall' hwins') hwins hwins'
  case wins_handedOut =>
    intro j call' token hcall hwins
    exact mem_append_left _ (h.wins_handedOut (hwinner hcall hwins) hwins)
  case ready_tokens =>
    intro hready hclearing
    exact h.ready_tokens hready fun call' hmem => hclearing call' (mem_append_left _ hmem)
  case tokens_issued =>
    intro token hmem
    exact (h.tokens_issued token hmem).imp (mem_append_left _) (mem_append_left _)
  case receives =>
    intro j call' hcall hreceives
    exact h.receives (hold hidle.receives hcall hreceives) hreceives

theorem sound_step {action : Action} (h : Sound s) (hstep : step s action = some t) : Sound t := by
  rcases step_cases hstep with ⟨call, hbegins, rfl⟩ | ⟨i, old, flag', new, hold, hmoves, rfl, -⟩
  · exact h.call (Call.idle_of_begins hbegins)
  · exact h.put hold hmoves

theorem sound_run {acts : List Action} (hrun : Machine.run step {} acts = some s) : Sound s :=
  Machine.run_invariant (fun _ _ _ h hstep => sound_step h hstep) sound_start hrun

/-! ## Waiters -/

/-- The step is no send that goes to nobody while a `wait_ready` is between its `is_ready` and its
subscription. -/
def sendHeard (s : FlagCalls) : Action → Bool
  | .advance i => !(s.calls[i]?.any Call.sending && decide (s.flag.receivers = []) &&
      decide (.wait .subscribing ∈ s.calls))
  | _ => true

theorem not_sendHeard {i : ℕ} (hold : s.calls[i]? = some old) (hsending : old.sending = true)
    (hreceivers : s.flag.receivers = []) (hwaiter : .wait .subscribing ∈ s.calls) :
    ¬ sendHeard s (.advance i) = true := by
  have hany : s.calls[i]?.any Call.sending = true := by
    rw [hold]
    exact hsending
  simp only [sendHeard]
  rw [hany, decide_eq_true hreceivers, decide_eq_true hwaiter]
  exact Bool.false_ne_true

/-- Where the flag is ready, it was sent, it will be sent, or nobody waits for it. -/
def Woken (s : FlagCalls) : Prop :=
  s.flag.ready = true → s.flag.value = true ∨ (∃ call ∈ s.calls, call.sends = true) ∨
    ∀ call ∈ s.calls, call.waits = false

theorem Call.waits_cases {call : Call} (h : call.waits = true) :
    call = .wait .subscribing ∨ call.receives = true := by
  cases call with
  | wait stage => cases stage <;> simp
  | _ => cases h

theorem Call.waits_of_sends {call : Call} (h : call.sends = true) : call.waits = false := by
  cases call with
  | wait stage => cases h
  | _ => rfl

/-- If no call waited before a step after which the flag is ready, none waits after it. -/
theorem Moves.noneWaits {i : ℕ} (hmoves : Moves i s.flag old flag' new)
    (hready : flag'.ready = true) (hold : old.waits = false)
    (hothers : ∀ j call, j ≠ i → s.calls[j]? = some call → call.waits = false) :
    ∀ call ∈ (s.put i (flag', new)).calls, call.waits = false := by
  intro call hmem
  obtain ⟨j, hj⟩ := mem_iff_getElem?.1 hmem
  rcases put_cases hj with ⟨rfl, rfl⟩ | ⟨hne, hj⟩
  · by_contra hwaits
    rcases hmoves.waits (eq_true_of_ne_false hwaits) with hwaits' | hready'
    · rw [hold] at hwaits'
      cases hwaits'
    · rw [hready] at hready'
      cases hready'
  · exact hothers j call hne hj

theorem woken_step {action : Action} (hsound : Sound s) (h : Woken s)
    (hheard : sendHeard s action = true) (hstep : step s action = some t) : Woken t := by
  intro hready
  rcases step_cases hstep with
    ⟨call, hbegins, rfl⟩ | ⟨i, old, flag', new, hold, hmoves, rfl, hsending⟩
  · rcases h hready with hvalue | ⟨call', hmem, hsends⟩ | hwaits
    · exact .inl hvalue
    · exact .inr (.inl ⟨call', mem_append_left _ hmem, hsends⟩)
    · refine .inr (.inr fun call' hmem => ?_)
      rcases mem_append.1 hmem with hmem | hmem
      · exact hwaits call' hmem
      · rw [mem_singleton.1 hmem]
        exact (Call.idle_of_begins hbegins).waits
  · rcases hmoves.sets hready with hready' | hsends
    · rcases h hready' with hvalue | ⟨call, hmem, hsends⟩ | hwaits
      · exact .inl (hmoves.value hvalue)
      · by_cases hcall : call = old
        · subst hcall
          rcases hmoves.sent hsends with hsends' | ⟨hsending', hvalue | hreceivers⟩
          · exact .inr (.inl ⟨new, mem_put_new hold, hsends'⟩)
          · exact .inl hvalue
          · -- the send goes to nobody, and nobody is about to wait
            refine .inr (.inr (hmoves.noneWaits hready (Call.waits_of_sends hsends) ?_))
            intro j call' _ hj
            by_contra hwaits
            rcases Call.waits_cases (eq_true_of_ne_false hwaits) with rfl | hreceives
            · rw [hsending hsending'] at hheard
              exact not_sendHeard hold hsending' hreceivers (mem_of_getElem? hj) hheard
            · have hmem' := hsound.receives hj hreceives
              rw [hreceivers] at hmem'
              cases hmem'
        · exact .inr (.inl ⟨call, mem_put_of_ne hold hmem hcall, hsends⟩)
      · refine .inr (.inr (hmoves.noneWaits hready (hwaits old (mem_of_getElem? hold)) ?_))
        exact fun j call _ hj => hwaits call (mem_of_getElem? hj)
    · exact .inr (.inl ⟨new, mem_put_new hold, hsends⟩)

/-- The call is an `is_ready` or a `mark_ready` that has not returned. -/
def Call.setting : Call → Bool
  | .check _ _ | .mark _ _ => true
  | _ => false

/-- The flag is ready, no call is going to change anything, and a waiter is parked on a channel
that still says it is not. -/
def LostWakeup (s : FlagCalls) : Prop :=
  s.flag.ready = true ∧ (∀ call ∈ s.calls, call.setting = false) ∧ s.flag.value = false ∧
    ∃ seen, .wait (.parked seen) ∈ s.calls

theorem Woken.notLost (h : Woken s) : ¬ LostWakeup s := by
  rintro ⟨hready, hsetting, hvalue, seen, hparked⟩
  rcases h hready with hvalue' | ⟨call, hmem, hsends⟩ | hwaits
  · rw [hvalue] at hvalue'
    cases hvalue'
  · have hcall := hsetting call hmem
    cases call with
    | check waiter stage => cases hcall
    | mark token stage => cases hcall
    | _ => cases hsends
  · cases hwaits _ hparked

theorem woken_run {acts : List Action}
    (hheard : Machine.AllMeet step (fun s action => sendHeard s action = true) {} acts)
    (hrun : Machine.run step {} acts = some s) : Woken s := by
  have hkeep : ∀ u action v, Sound u ∧ Woken u → sendHeard u action = true →
      step u action = some v → Sound v ∧ Woken v :=
    fun _ _ _ h hmeet hstep => ⟨sound_step h.1 hstep, woken_step h.1 h.2 hmeet hstep⟩
  have hstart : Woken {} := fun hready => by cases hready
  exact (Machine.run_invariant_of_meets hkeep ⟨sound_start, hstart⟩ hheard hrun).2

/-- **Ready once, and everybody is woken.** In every state of every run: a step keeps a ready flag
ready; one `mark_ready` at most has returned `true`, with a token that a `subscribe` has returned;
no step after which the flag is ready lets a `subscribe` return a token. And if the sends of the run
are heard, no wake-up is lost. -/
theorem ready_once_and_woken {acts : List Action} (hrun : Machine.run step {} acts = some s) :
    (∀ action t, step s action = some t → s.flag.ready = true → t.flag.ready = true) ∧
    (∀ (i j : ℕ) token token', s.calls[i]? = some (.finished (.marked token (.ok true))) →
      s.calls[j]? = some (.finished (.marked token' (.ok true))) → i = j) ∧
    (∀ token, .finished (.marked token (.ok true)) ∈ s.calls →
      .finished (.subscribed (.ok token)) ∈ s.calls) ∧
    (∀ action t (i : ℕ) token, step s action = some t →
      t.calls[i]? = some (.finished (.subscribed (.ok token))) →
      s.calls[i]? ≠ some (.finished (.subscribed (.ok token))) → t.flag.ready = false) ∧
    (Machine.AllMeet step (fun s action => sendHeard s action = true) {} acts →
      ¬ LostWakeup s) := by
  have hsound := sound_run hrun
  refine ⟨?_, ?_, ?_, ?_, ?_⟩
  · intro action t hstep hready
    rcases step_cases hstep with ⟨call, -, rfl⟩ | ⟨i, old, flag', new, -, hmoves, rfl, -⟩
    · exact hready
    · exact hmoves.ready_kept hready
  · intro i j token token' hi hj
    exact hsound.wins_unique hi hj rfl rfl
  · intro token hmem
    obtain ⟨i, hi⟩ := mem_iff_getElem?.1 hmem
    exact hsound.wins_handedOut hi rfl
  · intro action t i token hstep hnew hold
    rcases step_cases hstep with
      ⟨call, hbegins, rfl⟩ | ⟨j, old, flag', new, hj, hmoves, rfl, -⟩
    · rcases append_cases hnew with rfl | hnew
      · cases hbegins
      · exact (hold hnew).elim
    · rcases put_cases hnew with ⟨rfl, rfl⟩ | ⟨-, hnew⟩
      · have hunlocking := hmoves.handedOut token rfl
        subst hunlocking
        have hnotReady := hsound.finds_notReady hj rfl
        by_contra hready
        rcases hmoves.sets (eq_true_of_ne_false hready) with hready' | hsends
        · rw [hnotReady] at hready'
          cases hready'
        · cases hsends
      · exact (hold hnew).elim
  · intro hheard
    exact (woken_run hheard hrun).notLost

/-- A token is handed out; a waiter subscribes before the token is used, and is woken by its use. -/
def heardRun : List Action :=
  [Action.call .subscribes] ++ List.replicate 5 (Action.advance 0) ++
  [Action.call .waitReady] ++ List.replicate 6 (Action.advance 1) ++
  [Action.call (.markReady 1)] ++ List.replicate 6 (Action.advance 2) ++
  List.replicate 2 (Action.advance 1)

theorem ready_once_and_woken_heard :
    ∃ s, Machine.run step {} heardRun = some s ∧
      .finished (.marked 1 (.ok true)) ∈ s.calls ∧ .finished .waited ∈ s.calls ∧
      .finished (.subscribed (.ok 1)) ∈ s.calls ∧ ¬ LostWakeup s := by
  have hmeet : Machine.AllMeet step (fun s action => sendHeard s action = true) {} heardRun :=
    Machine.allMeet_of_meets (by decide +kernel)
  have hcheck : ((Machine.run step {} heardRun).any fun s =>
      decide (.finished (.marked 1 (.ok true)) ∈ s.calls) &&
      decide (.finished .waited ∈ s.calls)) = true := by decide +kernel
  obtain ⟨s, hrun, hs⟩ := (Option.any_eq_true _ _).1 hcheck
  simp only [Bool.and_eq_true, decide_eq_true_eq] at hs
  obtain ⟨-, -, htoken, -, hwoken⟩ := ready_once_and_woken hrun
  exact ⟨s, hrun, hs.1, hs.2, htoken 1 hs.1, hwoken hmeet⟩

/-- The same calls, and the token is used after the waiter's `is_ready` has returned `false` and
before its receiver exists: the send fails, and the waiter parks. -/
theorem wakeup_lost :
    ¬ ∀ acts s, Machine.run step {} acts = some s → ¬ LostWakeup s := by
  have hcheck : ((Machine.run step {} ([Action.call .subscribes] ++ List.replicate 5 (Action.advance 0) ++
      [Action.call .waitReady] ++ List.replicate 4 (Action.advance 1) ++
      [Action.call (.markReady 1)] ++ List.replicate 6 (Action.advance 2) ++
      List.replicate 2 (Action.advance 1))).any fun s =>
      s.flag.ready && s.calls.all (fun call => !call.setting) && !s.flag.value &&
      decide (.wait (.parked 0) ∈ s.calls)) = true := by decide +kernel
  obtain ⟨s, hrun, hs⟩ := (Option.any_eq_true _ _).1 hcheck
  simp only [Bool.and_eq_true, Bool.not_eq_true', decide_eq_true_eq, all_eq_true] at hs
  obtain ⟨⟨⟨hready, hsetting⟩, hvalue⟩, hparked⟩ := hs
  exact fun h => h _ s hrun ⟨hready, hsetting, hvalue, 0, hparked⟩

end Codex.Readiness
