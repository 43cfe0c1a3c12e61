import Codex.Base.Machine
import Codex.Base.Table
import Codex.Text.Str

/-!
# Sessions of the exec server

`SessionRegistry` (`exec-server/src/server/session_registry.rs`). The map of the
sessions and the attachment of each session have a lock of their own: `attach` and
the expiry tasks hold the lock of the map, `detach` does not. The part of an
operation under the map's lock is cut here wherever it takes an attachment's lock,
so that a `detach` may come between (`sessions_attached_once`).
-/

namespace Codex.ExecServer

open List Codex.Text Entries

/-- Session and connection ids are numbered uuids. -/
abbrev SessionId := ℕ

abbrev ConnectionId := ℕ

/-- `DETACHED_SESSION_TTL`, in milliseconds. -/
def detachedSessionTtl : ℕ := 30000

/-! ## Attachments -/

structure AttachmentState where
  currentConnectionId : Option ConnectionId := none
  detachedConnectionId : Option ConnectionId := none
  detachedExpiresAt : Option ℕ := none
  deriving DecidableEq

/-- An entry, with the connection whose notification sender its process has. -/
structure SessionEntry where
  notificationSender : Option ConnectionId
  attachment : AttachmentState
  deriving DecidableEq

namespace SessionEntry

def new (connectionId : ConnectionId) : SessionEntry where
  notificationSender := some connectionId
  attachment := { currentConnectionId := some connectionId }

/-- `set_notification_sender` and `attach`. In between nothing can happen to the entry: it has no
connection that might detach, and the lock of the map is held. -/
def attach (_entry : SessionEntry) (connectionId : ConnectionId) : SessionEntry where
  notificationSender := some connectionId
  attachment := { currentConnectionId := some connectionId }

/-- Nothing if the connection is not the current one. -/
def detach (entry : SessionEntry) (connectionId : ConnectionId) (now : ℕ) : Option SessionEntry :=
  if entry.attachment.currentConnectionId ≠ some connectionId then none
  else some
    { notificationSender := none
      attachment :=
        { currentConnectionId := none
          detachedConnectionId := some connectionId
          detachedExpiresAt := some (now + detachedSessionTtl) } }

def hasActiveConnection (entry : SessionEntry) : Bool :=
  entry.attachment.currentConnectionId.isSome

def isAttachedTo (entry : SessionEntry) (connectionId : ConnectionId) : Bool :=
  entry.attachment.currentConnectionId = some connectionId

def isExpired (entry : SessionEntry) (now : ℕ) : Bool :=
  entry.attachment.detachedExpiresAt.any fun deadline => deadline ≤ now

def isDetachedConnectionExpired (entry : SessionEntry) (connectionId : ConnectionId) (now : ℕ) :
    Bool :=
  entry.attachment.currentConnectionId.isNone &&
    entry.attachment.detachedConnectionId = some connectionId &&
    entry.attachment.detachedExpiresAt.any fun deadline => deadline ≤ now

end SessionEntry

/-! ## The registry and its tasks -/

/-- Who holds the lock of the map, past a look at an entry. -/
inductive MapLock where
  | free
  /-- `attach` has seen that the session is not expired. -/
  | resuming (connectionId : ConnectionId) (sessionId : SessionId)
  /-- `attach`, or an expiry task, is about to remove an expired session. -/
  | removing (sessionId : SessionId) (resumedBy : Option ConnectionId)
  deriving DecidableEq

inductive AttachError where
  | invalidRequest (message : Str)
  | sessionAlreadyAttached (message : Str)
  deriving DecidableEq

def unknownSession (sessionId : SessionId) : AttachError :=
  .invalidRequest ("unknown session id ".toList ++ Nat.toDigits 10 sessionId)

def alreadyAttached (sessionId : SessionId) : AttachError :=
  .sessionAlreadyAttached ("session ".toList ++ Nat.toDigits 10 sessionId ++
    " is already attached to another connection".toList)

structure SessionHandle where
  connectionId : ConnectionId
  sessionId : SessionId
  deriving DecidableEq

inductive SessionEvent where
  | attached (connectionId : ConnectionId)
  | detached (connectionId : ConnectionId)
  deriving DecidableEq

/-- All entries that were ever created; the sessions of the map; the handles and errors that `attach`
has returned; the expiry tasks that sleep; the sessions that were removed, before and after their
shutdown; and what has happened to the sessions. -/
structure Sessions where
  now : ℕ := 0
  entries : List (SessionId × SessionEntry) := []
  sessions : List SessionId := []
  lock : MapLock := .free
  connectionIds : List ConnectionId := []
  handles : List SessionHandle := []
  errors : List (ConnectionId × AttachError) := []
  expiryTasks : List SessionHandle := []
  removed : List (SessionId × Option ConnectionId) := []
  shutDown : List SessionId := []
  history : List (SessionId × SessionEvent) := []
  deriving DecidableEq

inductive SessionStep where
  | passTime (duration : ℕ)
  | attachNew (connectionId : ConnectionId) (sessionId : SessionId)
  /-- `attach` with a session id, up to the look at its expiry. -/
  | attachResume (connectionId : ConnectionId) (sessionId : SessionId)
  /-- The rest of it, for a session that is not expired. -/
  | finishResume
  /-- The removal of an expired session from the map. -/
  | remove
  | shutdownProcess (sessionId : SessionId) (resumedBy : Option ConnectionId)
  | detach (handle : SessionHandle)
  /-- An expiry task wakes up and looks at its session; the entry's deadline decides. -/
  | wake (handle : SessionHandle)
  deriving DecidableEq

namespace Sessions

def step (s : Sessions) : SessionStep → Option Sessions
  | .passTime duration => some { s with now := s.now + duration }
  | .attachNew connectionId sessionId =>
    -- New uuids are fresh.
    if s.lock = .free ∧ connectionId ∉ s.connectionIds ∧
        get? sessionId s.entries = none then
      some { s with
        connectionIds := connectionId :: s.connectionIds
        entries := Entries.insert sessionId (SessionEntry.new connectionId) s.entries
        sessions := sessionId :: s.sessions
        handles := ⟨connectionId, sessionId⟩ :: s.handles
        history := s.history ++ [(sessionId, .attached connectionId)] }
    else none
  | .attachResume connectionId sessionId =>
    if s.lock = .free ∧ connectionId ∉ s.connectionIds then
      let s := { s with connectionIds := connectionId :: s.connectionIds }
      match get? sessionId s.entries with
      | some entry =>
        if sessionId ∈ s.sessions then
          if entry.isExpired s.now then
            some { s with lock := .removing sessionId (some connectionId) }
          else some { s with lock := .resuming connectionId sessionId }
        else some { s with errors := (connectionId, unknownSession sessionId) :: s.errors }
      | none => some { s with errors := (connectionId, unknownSession sessionId) :: s.errors }
    else none
  | .finishResume =>
    match s.lock with
    | .resuming connectionId sessionId =>
      match get? sessionId s.entries with
      | some entry =>
        if entry.hasActiveConnection then
          some { s with
            lock := .free
            errors := (connectionId, alreadyAttached sessionId) :: s.errors }
        else
          some { s with
            lock := .free
            entries := Entries.insert sessionId (entry.attach connectionId) s.entries
            handles := ⟨connectionId, sessionId⟩ :: s.handles
            history := s.history ++ [(sessionId, .attached connectionId)] }
      | none => none
    | _ => none
  | .remove =>
    match s.lock with
    | .removing sessionId resumedBy =>
      some { s with
        lock := .free
        sessions := s.sessions.erase sessionId
        removed := (sessionId, resumedBy) :: s.removed }
    | _ => none
  | .shutdownProcess sessionId resumedBy =>
    if (sessionId, resumedBy) ∈ s.removed then
      some { s with
        removed := s.removed.erase (sessionId, resumedBy)
        shutDown := sessionId :: s.shutDown
        errors := match resumedBy with
          | some connectionId => (connectionId, unknownSession sessionId) :: s.errors
          | none => s.errors }
    else none
  | .detach handle =>
    if handle ∈ s.handles then
      match get? handle.sessionId s.entries with
      | some entry =>
        match entry.detach handle.connectionId s.now with
        | some entry =>
          some { s with
            entries := Entries.insert handle.sessionId entry s.entries
            expiryTasks := handle :: s.expiryTasks
            history := s.history ++ [(handle.sessionId, .detached handle.connectionId)] }
        | none => some s
      | none => none
    else none
  | .wake handle =>
    if s.lock = .free ∧ handle ∈ s.expiryTasks then
      let s := { s with expiryTasks := s.expiryTasks.erase handle }
      match get? handle.sessionId s.entries with
      | some entry =>
        if handle.sessionId ∈ s.sessions ∧
            entry.isDetachedConnectionExpired handle.connectionId s.now then
          some { s with lock := .removing handle.sessionId none }
        else some s
      | none => some s
    else none

end Sessions

/-! ## What every run keeps -/

section Runs

variable {s t : Sessions} {sessionId sessionId' : SessionId} {entry : SessionEntry}
  {connectionId : ConnectionId}

def lastEvent (sessionId : SessionId) (history : List (SessionId × SessionEvent)) :
    Option SessionEvent :=
  ((history.filter fun event => event.1 = sessionId).getLast?).map Prod.snd

theorem lastEvent_concat (history : List (SessionId × SessionEvent)) (event : SessionEvent) :
    lastEvent sessionId' (history ++ [(sessionId, event)]) =
      if sessionId' = sessionId then some event else lastEvent sessionId' history := by
  unfold lastEvent
  rw [filter_append]
  by_cases h : sessionId' = sessionId
  · simp [h]
  · simp [h, Ne.symm h]

/-- The entry is as its last event has left it. -/
def SessionEntry.LeftBy (entry : SessionEntry) : Option SessionEvent → Prop
  | some (.attached connectionId) =>
    entry = ⟨some connectionId, { currentConnectionId := some connectionId }⟩
  | some (.detached connectionId) => ∃ deadline, entry = ⟨none, ⟨none, some connectionId, some deadline⟩⟩
  | none => False

variable {event : Option SessionEvent} {resumedBy : Option ConnectionId} {handle : SessionHandle}

theorem SessionEntry.LeftBy.sender (h : entry.LeftBy event) :
    entry.notificationSender = entry.attachment.currentConnectionId := by
  match event with
  | some (.attached connectionId) =>
    cases h
    rfl
  | some (.detached connectionId) =>
    obtain ⟨deadline, rfl⟩ := h
    rfl

/-- Only a detached entry has a deadline. -/
theorem SessionEntry.LeftBy.expired (h : entry.LeftBy event) {now : ℕ}
    (hexpired : entry.isExpired now = true) : entry.attachment.currentConnectionId = none := by
  match event with
  | some (.attached connectionId) =>
    cases h
    cases hexpired
  | some (.detached connectionId) =>
    obtain ⟨deadline, rfl⟩ := h
    rfl

theorem SessionEntry.LeftBy.detached (h : entry.LeftBy event) {now : ℕ}
    (hexpired : entry.isDetachedConnectionExpired connectionId now = true) :
    event = some (.detached connectionId) ∧ entry.attachment.currentConnectionId = none := by
  simp only [isDetachedConnectionExpired, Bool.and_eq_true, decide_eq_true_eq] at hexpired
  obtain ⟨⟨hnone, hdetached⟩, -⟩ := hexpired
  match event with
  | some (.attached connectionId) =>
    cases h
    cases hdetached
  | some (.detached connectionId) =>
    obtain ⟨deadline, rfl⟩ := h
    cases hdetached
    exact ⟨rfl, rfl⟩

/-- How often the session was removed and is waiting for its shutdown, or was shut down. -/
def Sessions.shutdowns (s : Sessions) (sessionId : SessionId) : ℕ :=
  (s.removed.map Prod.fst).count sessionId + s.shutDown.count sessionId

structure Sessions.Sound (s : Sessions) : Prop where
  nodup : s.sessions.Nodup
  created : ∀ sessionId ∈ s.sessions, get? sessionId s.entries ≠ none
  leftBy : ∀ sessionId entry, get? sessionId s.entries = some entry →
    entry.LeftBy (lastEvent sessionId s.history)
  handled : ∀ sessionId entry connectionId, get? sessionId s.entries = some entry →
    entry.attachment.currentConnectionId = some connectionId →
    ⟨connectionId, sessionId⟩ ∈ s.handles ∧ sessionId ∈ s.sessions
  resuming : ∀ connectionId sessionId, s.lock = .resuming connectionId sessionId →
    sessionId ∈ s.sessions
  removing : ∀ sessionId resumedBy, s.lock = .removing sessionId resumedBy →
    sessionId ∈ s.sessions ∧ ∀ entry, get? sessionId s.entries = some entry →
      entry.attachment.currentConnectionId = none
  kept : ∀ sessionId, get? sessionId s.entries = none ∨ sessionId ∈ s.sessions →
    s.shutdowns sessionId = 0
  gone : ∀ sessionId, get? sessionId s.entries ≠ none → sessionId ∉ s.sessions →
    s.shutdowns sessionId = 1

theorem Sessions.sound_start : ({} : Sessions).Sound where
  nodup := nodup_nil
  created := nofun
  leftBy := nofun
  handled := nofun
  resuming := nofun
  removing := nofun
  kept := fun _ _ => rfl
  gone := fun _ hne => absurd rfl hne

theorem Sessions.Sound.leftBy_insert (h : s.Sound) {event : SessionEvent}
    (hentry : entry.LeftBy (some event)) (sessionId' : SessionId) (entry' : SessionEntry)
    (hget : get? sessionId' (Entries.insert sessionId entry s.entries) = some entry') :
    entry'.LeftBy (lastEvent sessionId' (s.history ++ [(sessionId, event)])) := by
  rw [lastEvent_concat]
  obtain ⟨heq, rfl⟩ | ⟨hne, hget⟩ := get?_insert_eq_some.1 hget
  · rw [if_pos heq]
    exact hentry
  · rw [if_neg hne]
    exact h.leftBy sessionId' entry' hget

theorem get?_insert_ne_none {entries : List (SessionId × SessionEntry)}
    (h : get? sessionId' entries ≠ none) :
    get? sessionId' (Entries.insert sessionId entry entries) ≠ none := by
  rw [get?_insert]
  split
  · exact Option.some_ne_none _
  · exact h

theorem Sessions.Sound.kept_of_insert (h : s.Sound)
    (hkept : get? sessionId' (Entries.insert sessionId entry s.entries) = none ∨
      sessionId' ∈ s.sessions) : s.shutdowns sessionId' = 0 := by
  rw [get?_insert] at hkept
  split at hkept
  · exact h.kept sessionId' (.inr (hkept.resolve_left (Option.some_ne_none _)))
  · exact h.kept sessionId' hkept

theorem Sessions.Sound.gone_of_insert (h : s.Sound) {old : SessionEntry}
    (hget : get? sessionId s.entries = some old)
    (hne : get? sessionId' (Entries.insert sessionId entry s.entries) ≠ none)
    (hnotMem : sessionId' ∉ s.sessions) : s.shutdowns sessionId' = 1 := by
  rw [get?_insert] at hne
  split at hne
  · next heq =>
    refine h.gone sessionId' ?_ hnotMem
    rw [heq, hget]
    exact Option.some_ne_none _
  · exact h.gone sessionId' hne hnotMem

theorem Sessions.Sound.attachNew (h : s.Sound)
    (hstep : s.step (.attachNew connectionId sessionId) = some t) : t.Sound := by
  simp only [Sessions.step] at hstep
  split at hstep
  · next hfresh =>
    obtain ⟨hfree, -, hnone⟩ := hfresh
    cases hstep
    have hnew : sessionId ∉ s.sessions := fun hmem => h.created sessionId hmem hnone
    refine ⟨nodup_cons.2 ⟨hnew, h.nodup⟩, ?_, h.leftBy_insert rfl, ?_, ?_, ?_, ?_, ?_⟩
    · intro sessionId' hmem
      rw [get?_insert]
      split
      · exact Option.some_ne_none _
      · next hne => exact h.created sessionId' ((mem_cons.1 hmem).resolve_left hne)
    · intro sessionId' entry connectionId' hget hcurrent
      obtain ⟨rfl, rfl⟩ | ⟨-, hget⟩ := get?_insert_eq_some.1 hget
      · cases hcurrent
        exact ⟨mem_cons_self, mem_cons_self⟩
      · obtain ⟨hhandle, hmem⟩ := h.handled sessionId' entry connectionId' hget hcurrent
        exact ⟨mem_cons_of_mem _ hhandle, mem_cons_of_mem _ hmem⟩
    · intro _ _ hlock
      rw [hfree] at hlock
      cases hlock
    · intro _ _ hlock
      rw [hfree] at hlock
      cases hlock
    · intro sessionId' hkept
      by_cases heq : sessionId' = sessionId
      · exact h.kept sessionId' (.inl (heq ▸ hnone))
      · rw [get?_insert, if_neg heq] at hkept
        exact h.kept sessionId' (hkept.imp_right fun hmem => (mem_cons.1 hmem).resolve_left heq)
    · intro sessionId' hne hnotMem
      rw [mem_cons, not_or] at hnotMem
      rw [get?_insert, if_neg hnotMem.1] at hne
      exact h.gone sessionId' hne hnotMem.2
  · cases hstep

theorem Sessions.Sound.attachResume (h : s.Sound)
    (hstep : s.step (.attachResume connectionId sessionId) = some t) : t.Sound := by
  simp only [Sessions.step] at hstep
  split at hstep
  · next hfree =>
    split at hstep
    · next entry hget =>
      split at hstep
      · next hmem =>
        split at hstep
        · next hexpired =>
          cases hstep
          refine { h with resuming := ?_, removing := ?_ }
          · intro _ _ hlock
            cases hlock
          · intro sessionId' resumedBy hlock
            cases hlock
            refine ⟨hmem, fun entry' hget' => ?_⟩
            rw [hget] at hget'
            cases hget'
            exact (h.leftBy sessionId entry hget).expired hexpired
        · cases hstep
          refine { h with resuming := ?_, removing := ?_ }
          · intro connectionId' sessionId' hlock
            cases hlock
            exact hmem
          · intro _ _ hlock
            cases hlock
      · cases hstep
        exact { h with }
    · cases hstep
      exact { h with }
  · cases hstep

theorem Sessions.Sound.finishResume (h : s.Sound) (hstep : s.step .finishResume = some t) :
    t.Sound := by
  simp only [Sessions.step] at hstep
  split at hstep
  · next connectionId sessionId hlock =>
    have hmem := h.resuming connectionId sessionId hlock
    split at hstep
    · next entry hget =>
      split at hstep
      · cases hstep
        refine { h with resuming := ?_, removing := ?_ }
        · intro _ _ hlock
          cases hlock
        · intro _ _ hlock
          cases hlock
      · cases hstep
        refine ⟨h.nodup, ?_, h.leftBy_insert rfl, ?_, ?_, ?_, ?_, ?_⟩
        · exact fun sessionId' hmem' => get?_insert_ne_none (h.created sessionId' hmem')
        · intro sessionId' entry' connectionId' hget' hcurrent
          obtain ⟨rfl, rfl⟩ | ⟨-, hget'⟩ := get?_insert_eq_some.1 hget'
          · cases hcurrent
            exact ⟨mem_cons_self, hmem⟩
          · obtain ⟨hhandle, hmem'⟩ := h.handled sessionId' entry' connectionId' hget' hcurrent
            exact ⟨mem_cons_of_mem _ hhandle, hmem'⟩
        · intro _ _ hlock
          cases hlock
        · intro _ _ hlock
          cases hlock
        · exact fun sessionId' hkept => h.kept_of_insert hkept
        · exact fun sessionId' hne hnotMem => h.gone_of_insert hget hne hnotMem
    · cases hstep
  · cases hstep

/-- The session that is removed has no connection, and was not removed before. -/
theorem Sessions.Sound.remove (h : s.Sound) (hstep : s.step .remove = some t) : t.Sound := by
  simp only [Sessions.step] at hstep
  split at hstep
  · next sessionId resumedBy hlock =>
    cases hstep
    obtain ⟨hmem, hdetached⟩ := h.removing sessionId resumedBy hlock
    have hshutdowns : ∀ sessionId', s.shutdowns sessionId' + (if sessionId = sessionId' then 1 else 0) =
        (((sessionId, resumedBy) :: s.removed).map Prod.fst).count sessionId' +
          s.shutDown.count sessionId' := by
      intro sessionId'
      rw [map_cons, count_cons]
      unfold shutdowns
      simp only [beq_iff_eq]
      omega
    refine ⟨h.nodup.erase _, ?_, h.leftBy, ?_, nofun, nofun, ?_, ?_⟩
    · exact fun sessionId' hmem' => h.created sessionId' (mem_of_mem_erase hmem')
    · intro sessionId' entry connectionId hget hcurrent
      obtain ⟨hhandle, hmem'⟩ := h.handled sessionId' entry connectionId hget hcurrent
      refine ⟨hhandle, (mem_erase_of_ne fun heq => ?_).2 hmem'⟩
      rw [hdetached entry (heq ▸ hget)] at hcurrent
      cases hcurrent
    · intro sessionId' hkept
      have hne : sessionId ≠ sessionId' := by
        rintro rfl
        rcases hkept with hnone | hmem'
        · exact h.created sessionId hmem hnone
        · exact (h.nodup.mem_erase_iff.1 hmem').1 rfl
      have hzero := h.kept sessionId' (hkept.imp_right mem_of_mem_erase)
      have hcount := hshutdowns sessionId'
      rw [if_neg hne, hzero] at hcount
      exact hcount.symm
    · intro sessionId' hne hnotMem
      have hcount := hshutdowns sessionId'
      by_cases heq : sessionId = sessionId'
      · subst heq
        rw [if_pos rfl, h.kept sessionId (.inr hmem)] at hcount
        exact hcount.symm
      · have hone := h.gone sessionId' hne fun hmem' =>
          hnotMem ((mem_erase_of_ne (Ne.symm heq)).2 hmem')
        rw [if_neg heq, hone] at hcount
        exact hcount.symm
  · cases hstep

theorem Sessions.Sound.shutdownProcess (h : s.Sound)
    (hstep : s.step (.shutdownProcess sessionId resumedBy) = some t) : t.Sound := by
  simp only [Sessions.step] at hstep
  split at hstep
  · next hmem =>
    cases hstep
    have hshutdowns : ∀ sessionId', s.shutdowns sessionId' =
        ((s.removed.erase (sessionId, resumedBy)).map Prod.fst).count sessionId' +
          (sessionId :: s.shutDown).count sessionId' := by
      intro sessionId'
      have hperm : (s.removed.map Prod.fst).count sessionId' =
          (sessionId :: (s.removed.erase (sessionId, resumedBy)).map Prod.fst).count sessionId' :=
        ((perm_cons_erase hmem).map Prod.fst).count_eq sessionId'
      rw [count_cons] at hperm
      rw [shutdowns, hperm, count_cons]
      omega
    refine { h with kept := ?_, gone := ?_ }
    · exact fun sessionId' hkept => (hshutdowns sessionId').symm.trans (h.kept sessionId' hkept)
    · exact fun sessionId' hne hnotMem =>
        (hshutdowns sessionId').symm.trans (h.gone sessionId' hne hnotMem)
  · cases hstep

theorem Sessions.Sound.detach (h : s.Sound) (hstep : s.step (.detach handle) = some t) :
    t.Sound := by
  simp only [Sessions.step] at hstep
  split at hstep
  · split at hstep
    · next entry hget =>
      split at hstep
      · next entry' hdetach =>
        cases hstep
        unfold SessionEntry.detach at hdetach
        split at hdetach
        · cases hdetach
        · next hcurrent =>
          rw [ne_eq, not_not] at hcurrent
          cases hdetach
          refine ⟨h.nodup, ?_, h.leftBy_insert ⟨_, rfl⟩, ?_, h.resuming, ?_, ?_, ?_⟩
          · exact fun sessionId' hmem' => get?_insert_ne_none (h.created sessionId' hmem')
          · intro sessionId' entry' connectionId' hget' hcurrent'
            obtain ⟨-, rfl⟩ | ⟨-, hget'⟩ := get?_insert_eq_some.1 hget'
            · cases hcurrent'
            · exact h.handled sessionId' entry' connectionId' hget' hcurrent'
          · intro sessionId' resumedBy hlock
            obtain ⟨hmem, hdetached⟩ := h.removing sessionId' resumedBy hlock
            refine ⟨hmem, fun entry' hget' => ?_⟩
            obtain ⟨-, rfl⟩ | ⟨-, hget'⟩ := get?_insert_eq_some.1 hget'
            · rfl
            · exact hdetached entry' hget'
          · exact fun sessionId' hkept => h.kept_of_insert hkept
          · exact fun sessionId' hne hnotMem => h.gone_of_insert hget hne hnotMem
      · cases hstep
        exact h
    · cases hstep
  · cases hstep

theorem Sessions.Sound.wake (h : s.Sound) (hstep : s.step (.wake handle) = some t) : t.Sound := by
  simp only [Sessions.step] at hstep
  split at hstep
  · split at hstep
    · next entry hget =>
      split at hstep
      · next hexpired =>
        cases hstep
        refine { h with resuming := ?_, removing := ?_ }
        · intro _ _ hlock
          cases hlock
        · intro sessionId' resumedBy hlock
          cases hlock
          refine ⟨hexpired.1, fun entry' hget' => ?_⟩
          rw [hget] at hget'
          cases hget'
          exact ((h.leftBy _ entry hget).detached hexpired.2).2
      · cases hstep
        exact { h with }
    · cases hstep
      exact { h with }
  · cases hstep

theorem Sessions.Sound.step (h : s.Sound) {a : SessionStep} (hstep : s.step a = some t) : t.Sound := by
  cases a with
  | passTime duration =>
    cases hstep
    exact { h with }
  | attachNew connectionId sessionId => exact h.attachNew hstep
  | attachResume connectionId sessionId => exact h.attachResume hstep
  | finishResume => exact h.finishResume hstep
  | remove => exact h.remove hstep
  | shutdownProcess sessionId resumedBy => exact h.shutdownProcess hstep
  | detach handle => exact h.detach hstep
  | wake handle => exact h.wake hstep

/-- An expiry task gets to the removal only if its own detachment is the last thing that happened. -/
theorem Sessions.Sound.wake_removes (h : s.Sound) (hstep : s.step (.wake handle) = some t)
    (hremoves : t.lock = .removing sessionId resumedBy) : sessionId = handle.sessionId ∧
      lastEvent sessionId s.history = some (.detached handle.connectionId) := by
  simp only [Sessions.step] at hstep
  split at hstep
  · next hfree =>
    split at hstep
    · next entry hget =>
      split at hstep
      · next hexpired =>
        cases hstep
        cases hremoves
        exact ⟨rfl, ((h.leftBy _ entry hget).detached hexpired.2).1⟩
      · cases hstep
        rw [show s.lock = .free from hfree.1] at hremoves
        cases hremoves
    · cases hstep
      rw [show s.lock = .free from hfree.1] at hremoves
      cases hremoves
  · cases hstep

/-- The steps of a call or task that is under way: it holds the map's lock, or has a session to shut
down. -/
def SessionStep.isPending : SessionStep → Bool
  | .finishResume | .remove | .shutdownProcess _ _ => true
  | _ => false

/-- No call and no task is under way. -/
def Sessions.Settled (s : Sessions) : Prop := ∀ a : SessionStep, a.isPending = true → s.step a = none

theorem Sessions.Settled.removed_eq_nil (h : s.Settled) : s.removed = [] := by
  rw [eq_nil_iff_forall_not_mem]
  rintro ⟨sessionId, resumedBy⟩ hmem
  have hnone := h (.shutdownProcess sessionId resumedBy) rfl
  simp only [step] at hnone
  rw [if_pos hmem] at hnone
  cases hnone

/-- A session that was removed and not shut down is shut down by a step that is ready. -/
theorem Sessions.Sound.shutdown_ready (h : s.Sound)
    (hcreated : get? sessionId s.entries ≠ none) (hnotMem : sessionId ∉ s.sessions)
    (hzero : s.shutDown.count sessionId = 0) :
    ∃ resumedBy t, s.step (.shutdownProcess sessionId resumedBy) = some t ∧
      t.shutDown.count sessionId = 1 := by
  have hone := h.gone sessionId hcreated hnotMem
  unfold shutdowns at hone
  have hpos : 0 < (s.removed.map Prod.fst).count sessionId := by omega
  obtain ⟨⟨sessionId', resumedBy⟩, hmem, rfl⟩ := mem_map.1 (count_pos_iff.1 hpos)
  refine ⟨resumedBy, _, if_pos hmem, ?_⟩
  show (sessionId' :: s.shutDown).count sessionId' = 1
  rw [count_cons_self, hzero]

/-- **In every run a session has at most one connection, whose sender is the one its process has; while
it has one it is in the map and is not shut down; an expiry task only removes a session that nothing
has happened to since the detachment that started it; and a session that was removed is shut down
once: it is never shut down twice, as long as it was not shut down the step that does so is ready, and
once no call and no task is under way it has been shut down.** -/
theorem sessions_attached_once {acts : List SessionStep}
    (hrun : Machine.run Sessions.step {} acts = some s) :
    (∀ handle ∈ s.handles, ∀ handle' ∈ s.handles, handle.sessionId = handle'.sessionId →
      ∀ entry, get? handle.sessionId s.entries = some entry →
        entry.isAttachedTo handle.connectionId = true →
        entry.isAttachedTo handle'.connectionId = true → handle = handle') ∧
    (∀ sessionId entry, get? sessionId s.entries = some entry →
      entry.notificationSender = entry.attachment.currentConnectionId ∧
      ∀ connectionId, entry.attachment.currentConnectionId = some connectionId →
        ⟨connectionId, sessionId⟩ ∈ s.handles ∧ sessionId ∈ s.sessions ∧
        s.shutDown.count sessionId = 0 ∧ sessionId ∉ s.removed.map Prod.fst ∧
        ∀ resumedBy, s.lock ≠ .removing sessionId resumedBy) ∧
    (∀ handle t sessionId resumedBy, s.step (.wake handle) = some t →
      t.lock = .removing sessionId resumedBy →
      sessionId = handle.sessionId ∧
        lastEvent sessionId s.history = some (.detached handle.connectionId)) ∧
    (∀ sessionId, sessionId ∈ s.sessions → s.shutDown.count sessionId = 0) ∧
    (∀ sessionId, get? sessionId s.entries ≠ none → sessionId ∉ s.sessions →
      s.shutDown.count sessionId ≤ 1 ∧
      (s.shutDown.count sessionId = 0 → ∃ resumedBy t,
        s.step (.shutdownProcess sessionId resumedBy) = some t ∧
        t.shutDown.count sessionId = 1) ∧
      (s.Settled → s.shutDown.count sessionId = 1)) := by
  have hsound : s.Sound :=
    Machine.run_invariant (fun _ _ _ h hstep => h.step hstep) Sessions.sound_start hrun
  have hkept : ∀ sessionId ∈ s.sessions, s.shutDown.count sessionId = 0 ∧
      sessionId ∉ s.removed.map Prod.fst := by
    intro sessionId hmem
    have hzero := hsound.kept sessionId (.inr hmem)
    unfold Sessions.shutdowns at hzero
    exact ⟨by omega, count_eq_zero.1 (by omega)⟩
  refine ⟨?_, ?_, fun handle t sessionId resumedBy hstep => hsound.wake_removes hstep,
    fun sessionId hmem => (hkept sessionId hmem).1, ?_⟩
  · rintro ⟨connectionId, sessionId⟩ - ⟨connectionId', sessionId'⟩ - hsame entry - hattached hattached'
    cases hsame
    have hcurrent := of_decide_eq_true hattached
    rw [of_decide_eq_true hattached'] at hcurrent
    cases hcurrent
    rfl
  · intro sessionId entry hget
    refine ⟨(hsound.leftBy sessionId entry hget).sender, fun connectionId hcurrent => ?_⟩
    obtain ⟨hhandle, hmem⟩ := hsound.handled sessionId entry connectionId hget hcurrent
    obtain ⟨hzero, hnotRemoved⟩ := hkept sessionId hmem
    refine ⟨hhandle, hmem, hzero, hnotRemoved, fun resumedBy hlock => ?_⟩
    rw [(hsound.removing sessionId resumedBy hlock).2 entry hget] at hcurrent
    cases hcurrent
  · intro sessionId hcreated hnotMem
    have hone := hsound.gone sessionId hcreated hnotMem
    unfold Sessions.shutdowns at hone
    refine ⟨by omega, hsound.shutdown_ready hcreated hnotMem, fun hsettled => ?_⟩
    rw [hsettled.removed_eq_nil] at hone
    exact (Nat.zero_add _).symm.trans hone

/-- The first expiry task finds the session attached again, the second one removes it. -/
theorem sessions_attached_once_expired :
    ∃ s, Machine.run Sessions.step {}
        [.attachNew 1 7, .detach ⟨1, 7⟩, .passTime 10, .attachResume 2 7, .finishResume,
          .passTime detachedSessionTtl, .wake ⟨1, 7⟩, .detach ⟨2, 7⟩, .detach ⟨2, 7⟩,
          .passTime detachedSessionTtl, .wake ⟨2, 7⟩, .remove, .shutdownProcess 7 none] = some s ∧
      s.shutDown.count 7 = 1 := by
  refine Exists.imp (fun s hs => ⟨hs, ?_⟩) ⟨_, rfl⟩
  have hgone : get? 7 s.entries ≠ none ∧ 7 ∉ s.sessions := by
    cases hs
    decide
  have hidle : s.lock = .free ∧ s.removed = [] := by
    cases hs
    exact ⟨rfl, rfl⟩
  have hsettled : s.Settled := by
    intro a hpending
    cases a with
    | finishResume | remove => simp only [Sessions.step, hidle.1]
    | shutdownProcess sessionId resumedBy =>
      simp only [Sessions.step, hidle.2, not_mem_nil, if_false]
    | _ => cases hpending
  exact ((sessions_attached_once hs).2.2.2.2 7 hgone.1 hgone.2).2.2 hsettled

end Runs

end Codex.ExecServer
