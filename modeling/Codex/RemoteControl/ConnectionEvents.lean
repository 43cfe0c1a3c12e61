import Codex.RemoteControl.Protocol

/-!
# Transport events

What the transport tells the app server of its connections, in the order in
which it is told, and what a log of such events is when the transport follows
the protocol of connections (`Accepted`). `π` is the type of JSON values.
-/

namespace Codex.RemoteControl

open Codex.Text

variable {π : Type}

abbrev ConnectionId := ℕ

abbrev ClientKey := ClientId × StreamId

inductive RequestId where
  | string (value : Str)
  | integer (value : ℤ)
  deriving DecidableEq

/-- Without the trace contexts of requests, which are handed on as they are. -/
inductive JSONRPCMessage (π : Type) where
  | request (id : RequestId) (method : Str) (params : Option π)
  | notification (method : Str) (params : Option π)
  | response (id : RequestId) (result : π)
  | error (id : RequestId) (code : ℤ) (message : Str) (data : Option π)
  deriving DecidableEq

def remoteControlMessageStartsConnection : JSONRPCMessage π → Bool
  | .request _ method _ => method = "initialize".toList
  | _ => false

inductive TransportEvent (π : Type) where
  | connectionOpened (connectionId : ConnectionId)
  | incomingMessage (connectionId : ConnectionId) (message : JSONRPCMessage π)
  | connectionClosed (connectionId : ConnectionId)
  deriving DecidableEq

def TransportEvent.connectionId : TransportEvent π → ConnectionId
  | .connectionOpened connectionId => connectionId
  | .incomingMessage connectionId _ => connectionId
  | .connectionClosed connectionId => connectionId

/-- An event in the log, with the client and the stream that the connection is
for and the `seq_id` of the envelope that brought the message. -/
structure Emitted (π : Type) where
  event : TransportEvent π
  clientKey : ClientKey
  seqId : Option ℕ := none
  deriving DecidableEq

/-! ## Reading a log -/

section Log

variable {log before : List (Emitted π)} {entry : Emitted π} {c d : ConnectionId}
  {key : ClientKey} {message : JSONRPCMessage π} {seqId : Option ℕ}

def eventsOf (log : List (Emitted π)) (c : ConnectionId) : List (TransportEvent π) :=
  (log.filter (·.event.connectionId = c)).map (·.event)

/-- The `seq_id` of a message after the first of connection `c`. -/
def Emitted.laterSeqId (c : ConnectionId) (entry : Emitted π) : Option ℕ :=
  match entry.event with
  | .incomingMessage d message =>
    if d = c ∧ remoteControlMessageStartsConnection message = false then entry.seqId else none
  | _ => none

def seqIdsOf (log : List (Emitted π)) (c : ConnectionId) : List ℕ :=
  log.filterMap (Emitted.laterSeqId c)

def OpenedIn (log : List (Emitted π)) (c : ConnectionId) (key : ClientKey) : Prop :=
  ∃ entry ∈ log, entry.event = .connectionOpened c ∧ entry.clientKey = key

def ClosedIn (log : List (Emitted π)) (c : ConnectionId) : Prop :=
  ∃ entry ∈ log, entry.event = .connectionClosed c

/-- `c` is open for `key` after `log`. -/
def OpenIn (log : List (Emitted π)) (c : ConnectionId) (key : ClientKey) : Prop :=
  OpenedIn log c key ∧ ¬ClosedIn log c

/-- No message of `c` is in the log. -/
def Silent (log : List (Emitted π)) (c : ConnectionId) : Prop :=
  ∀ entry ∈ log, ∀ message, entry.event ≠ .incomingMessage c message

instance [DecidableEq π] : Decidable (OpenedIn log c key) := List.decidableBEx _ _

instance [DecidableEq π] : Decidable (ClosedIn log c) := List.decidableBEx _ _

instance [DecidableEq π] : Decidable (OpenIn log c key) := inferInstanceAs (Decidable (_ ∧ _))

variable {event : TransportEvent π}

theorem eventsOf_concat_self (h : event.connectionId = c) :
    eventsOf (log ++ [⟨event, key, seqId⟩]) c = eventsOf log c ++ [event] := by
  unfold eventsOf
  simp [List.filter_append, h]

theorem eventsOf_concat_of_ne (h : event.connectionId ≠ c) :
    eventsOf (log ++ [⟨event, key, seqId⟩]) c = eventsOf log c := by
  unfold eventsOf
  simp [List.filter_append, h]

theorem seqIdsOf_concat :
    seqIdsOf (log ++ [entry]) c = seqIdsOf log c ++ (entry.laterSeqId c).toList := by
  unfold seqIdsOf
  rw [List.filterMap_append]
  cases h : entry.laterSeqId c with
  | none => simp [h]
  | some seqId => simp [h]

@[simp] theorem openedIn_concat :
    OpenedIn (log ++ [entry]) c key ↔
      OpenedIn log c key ∨ (entry.event = .connectionOpened c ∧ entry.clientKey = key) := by
  unfold OpenedIn
  simp [or_and_right, exists_or]

@[simp] theorem closedIn_concat :
    ClosedIn (log ++ [entry]) c ↔ ClosedIn log c ∨ entry.event = .connectionClosed c := by
  unfold ClosedIn
  simp [or_and_right, exists_or]

@[simp] theorem silent_concat :
    Silent (log ++ [entry]) c ↔
      Silent log c ∧ ∀ message, entry.event ≠ .incomingMessage c message := by
  unfold Silent
  simp [or_imp, forall_and]

theorem OpenedIn.mono (h : OpenedIn before c key) (hprefixed : before <+: log) :
    OpenedIn log c key := by
  obtain ⟨entry, hentry, hevent⟩ := h
  exact ⟨entry, hprefixed.subset hentry, hevent⟩

theorem OpenedIn.exists_entry (h : OpenedIn log c key) :
    ∃ entry ∈ log, entry.event.connectionId = c := by
  obtain ⟨entry, hentry, hevent, -⟩ := h
  exact ⟨entry, hentry, by rw [hevent]; rfl⟩

theorem mem_eventsOf :
    event ∈ eventsOf log c ↔ event.connectionId = c ∧ ∃ entry ∈ log, entry.event = event := by
  unfold eventsOf
  simp only [List.mem_map, List.mem_filter, decide_eq_true_eq]
  constructor
  · rintro ⟨entry, ⟨hentry, hid⟩, rfl⟩
    exact ⟨hid, entry, hentry, rfl⟩
  · rintro ⟨hid, entry, hentry, rfl⟩
    exact ⟨entry, ⟨hentry, hid⟩, rfl⟩

end Log

/-! ## The protocol -/

/-- The first message starts the connection, and no later one does. -/
def StartsFirst : List (JSONRPCMessage π) → Prop
  | [] => True
  | first :: rest => remoteControlMessageStartsConnection first = true ∧
      ∀ message ∈ rest, remoteControlMessageStartsConnection message = false

/-- The events of a connection: it opens, receives messages of which the first
starts it, and closes at most once. -/
def EventsInOrder (c : ConnectionId) (events : List (TransportEvent π)) : Prop :=
  ∃ messages closing, events = .connectionOpened c :: messages.map (.incomingMessage c) ++ closing ∧
    (closing = [] ∨ closing = [.connectionClosed c]) ∧ StartsFirst messages

/-- Logs of a transport that follows the protocol. New connections have larger
ids; a client's stream gets a new connection only when those that are open for it have not
received anything, and of these only the newest can receive its first message. -/
inductive Accepted : List (Emitted π) → Prop where
  | nil : Accepted []
  | opened {log : List (Emitted π)} {c : ConnectionId} {key : ClientKey} (hlog : Accepted log)
      (hfresh : ∀ entry ∈ log, entry.event.connectionId < c)
      (hsilent : ∀ d, OpenIn log d key → Silent log d) :
      Accepted (log ++ [⟨.connectionOpened c, key, none⟩])
  | first {log : List (Emitted π)} {c : ConnectionId} {key : ClientKey}
      {message : JSONRPCMessage π} {seqId : Option ℕ} (hlog : Accepted log)
      (hopen : OpenIn log c key) (hsilent : Silent log c)
      (hnewest : ∀ d, OpenedIn log d key → d ≤ c)
      (hstarts : remoteControlMessageStartsConnection message = true) :
      Accepted (log ++ [⟨.incomingMessage c message, key, seqId⟩])
  | later {log : List (Emitted π)} {c : ConnectionId} {key : ClientKey}
      {message : JSONRPCMessage π} {seqId : Option ℕ} (hlog : Accepted log)
      (hopen : OpenIn log c key) (hspoken : ¬Silent log c)
      (hstarts : remoteControlMessageStartsConnection message = false)
      (hseq : ∀ n, seqId = some n → ∀ m ∈ seqIdsOf log c, m < n) :
      Accepted (log ++ [⟨.incomingMessage c message, key, seqId⟩])
  | closed {log : List (Emitted π)} {c : ConnectionId} {key : ClientKey} (hlog : Accepted log)
      (hopen : OpenIn log c key) : Accepted (log ++ [⟨.connectionClosed c, key, none⟩])

namespace Accepted

variable {log before : List (Emitted π)} {c d : ConnectionId} {key key' : ClientKey}

theorem openedIn_unique (h : Accepted log) (hkey : OpenedIn log c key)
    (hkey' : OpenedIn log c key') : key = key' := by
  induction h with
  | nil =>
    obtain ⟨entry, hentry, -⟩ := hkey
    cases hentry
  | opened _ hfresh _ ih =>
    rw [openedIn_concat] at hkey hkey'
    rcases hkey with hkey | ⟨hevent, rfl⟩
    · rcases hkey' with hkey' | ⟨hevent', -⟩
      · exact ih hkey hkey'
      · obtain ⟨entry, hentry, hid⟩ := hkey.exists_entry
        cases hevent'
        exact absurd hid (hfresh entry hentry).ne
    · rcases hkey' with hkey' | ⟨-, hkey'⟩
      · obtain ⟨entry, hentry, hid⟩ := hkey'.exists_entry
        cases hevent
        exact absurd hid (hfresh entry hentry).ne
      · exact hkey'
  | first _ _ _ _ _ ih | later _ _ _ _ _ ih | closed _ _ ih =>
    exact ih (by simpa using hkey) (by simpa using hkey')

/-! ### The events of a connection -/

theorem eventsOf_of_openIn (hopen : OpenIn log c key)
    (h : eventsOf log c = [] ∨ EventsInOrder c (eventsOf log c)) :
    ∃ messages, eventsOf log c = .connectionOpened c :: messages.map (.incomingMessage c) ∧
      StartsFirst messages := by
  obtain ⟨entry, hentry, hevent, -⟩ := hopen.1
  have hmem : .connectionOpened c ∈ eventsOf log c := mem_eventsOf.2 ⟨rfl, entry, hentry, hevent⟩
  rcases h with h | ⟨messages, closing, h, rfl | rfl, hstarts⟩
  · rw [h] at hmem
    cases hmem
  · exact ⟨messages, by rw [h, List.append_nil], hstarts⟩
  · have hclosed : .connectionClosed c ∈ eventsOf log c := by
      rw [h]
      exact List.mem_append_right _ (List.mem_singleton_self _)
    exact absurd (mem_eventsOf.1 hclosed).2 hopen.2

variable {messages : List (JSONRPCMessage π)}

theorem silent_iff_of_eventsOf
    (h : eventsOf log c = .connectionOpened c :: messages.map (.incomingMessage c)) :
    Silent log c ↔ messages = [] := by
  constructor
  · intro hsilent
    cases messages with
    | nil => rfl
    | cons first rest =>
      have hmem : .incomingMessage c first ∈ eventsOf log c := by
        rw [h]
        exact List.mem_cons_of_mem _ List.mem_cons_self
      obtain ⟨-, entry, hentry, hevent⟩ := mem_eventsOf.1 hmem
      exact absurd hevent (hsilent entry hentry first)
  · rintro rfl entry hentry message hevent
    have hmem : .incomingMessage c message ∈ eventsOf log c :=
      mem_eventsOf.2 ⟨rfl, entry, hentry, hevent⟩
    rw [h] at hmem
    simp at hmem

theorem startsFirst_concat {message : JSONRPCMessage π} (h : StartsFirst messages)
    (hne : messages ≠ []) (hmessage : remoteControlMessageStartsConnection message = false) :
    StartsFirst (messages ++ [message]) := by
  cases messages with
  | nil => exact absurd rfl hne
  | cons first rest =>
    refine ⟨h.1, fun other hother => ?_⟩
    rcases List.mem_append.1 hother with hrest | hlast
    · exact h.2 other hrest
    · rw [List.mem_singleton.1 hlast]
      exact hmessage

/-- **The events of every connection are in order.** -/
theorem eventsOf_eventsInOrder (h : Accepted log) (c : ConnectionId) :
    eventsOf log c = [] ∨ EventsInOrder c (eventsOf log c) := by
  induction h with
  | nil => exact .inl rfl
  | @opened log d key _ hfresh _ ih =>
    by_cases hd : d = c
    · subst hd
      have hnone : eventsOf log d = [] := by
        refine List.eq_nil_iff_forall_not_mem.2 fun event hevent => ?_
        obtain ⟨hid, entry, hentry, rfl⟩ := mem_eventsOf.1 hevent
        exact absurd hid (hfresh entry hentry).ne
      refine .inr ⟨[], [], ?_, .inl rfl, trivial⟩
      rw [eventsOf_concat_self (by rfl), hnone]
      rfl
    · rw [eventsOf_concat_of_ne (by exact hd)]
      exact ih
  | @first log d key message seqId _ hopen hsilent _ hstarts ih =>
    by_cases hd : d = c
    · subst hd
      obtain ⟨messages, hevents, -⟩ := eventsOf_of_openIn hopen ih
      obtain rfl := (silent_iff_of_eventsOf hevents).1 hsilent
      refine .inr ⟨[message], [], ?_, .inl rfl, hstarts, nofun⟩
      rw [eventsOf_concat_self (by rfl), hevents]
      rfl
    · rw [eventsOf_concat_of_ne (by exact hd)]
      exact ih
  | @later log d key message seqId _ hopen hspoken hstarts _ ih =>
    by_cases hd : d = c
    · subst hd
      obtain ⟨messages, hevents, hfirst⟩ := eventsOf_of_openIn hopen ih
      have hne : messages ≠ [] := fun hnil => hspoken ((silent_iff_of_eventsOf hevents).2 hnil)
      refine .inr ⟨messages ++ [message], [], ?_, .inl rfl, startsFirst_concat hfirst hne hstarts⟩
      rw [eventsOf_concat_self (by rfl), hevents]
      simp
    · rw [eventsOf_concat_of_ne (by exact hd)]
      exact ih
  | @closed log d key _ hopen ih =>
    by_cases hd : d = c
    · subst hd
      obtain ⟨messages, hevents, hfirst⟩ := eventsOf_of_openIn hopen ih
      refine .inr ⟨messages, [.connectionClosed d], ?_, .inr rfl, hfirst⟩
      rw [eventsOf_concat_self (by rfl), hevents]
    · rw [eventsOf_concat_of_ne (by exact hd)]
      exact ih

/-! ### Numbers and exclusion -/

/-- **The `seq_id`s of the later messages of a connection increase.** -/
theorem seqIdsOf_increase (h : Accepted log) (c : ConnectionId) :
    (seqIdsOf log c).Pairwise (· < ·) := by
  induction h with
  | nil => exact List.Pairwise.nil
  | opened _ _ _ ih | closed _ _ ih =>
    rw [seqIdsOf_concat]
    simpa [Emitted.laterSeqId] using ih
  | first _ _ _ _ hstarts ih =>
    rw [seqIdsOf_concat]
    simpa [Emitted.laterSeqId, hstarts] using ih
  | @later log d key message seqId _ _ _ hstarts hseq ih =>
    rw [seqIdsOf_concat]
    by_cases hd : d = c
    · subst hd
      cases seqId with
      | none => simpa [Emitted.laterSeqId, hstarts] using ih
      | some n =>
        have hlast : Emitted.laterSeqId d ⟨.incomingMessage d message, key, some n⟩ = some n := by
          simp [Emitted.laterSeqId, hstarts]
        rw [hlast]
        refine List.pairwise_append.2 ⟨ih, List.pairwise_singleton _ _, fun m hm k hk => ?_⟩
        rw [List.mem_singleton.1 hk]
        exact hseq n rfl m hm
    · simpa [Emitted.laterSeqId, hd] using ih

/-- Only the opening of a connection makes it open. -/
theorem exists_shorter {entry : Emitted π} (hbefore : before <+: log ++ [entry])
    (hentry : ∀ c, entry.event ≠ .connectionOpened c) :
    ∃ shorter, shorter <+: log ∧ ∀ c key, OpenIn before c key → OpenIn shorter c key := by
  rcases List.prefix_concat_iff.1 hbefore with rfl | hshorter
  · refine ⟨log, List.prefix_rfl, fun c key ⟨hopened, hopen⟩ => ?_⟩
    rw [openedIn_concat] at hopened
    rw [closedIn_concat, not_or] at hopen
    exact ⟨hopened.resolve_right fun hevent => hentry c hevent.1, hopen.1⟩
  · exact ⟨before, hshorter, fun _ _ => id⟩

/-- Where two connections are open for one stream at some moment, the older
one never receives a message. -/
theorem silent_of_older (h : Accepted log) (hbefore : before <+: log)
    (hc : OpenIn before c key) (hd : OpenIn before d key) (hlt : c < d) : Silent log c := by
  induction h generalizing before with
  | nil =>
    intro entry hentry
    cases hentry
  | @opened log e key' _ hfresh hsilent ih =>
    refine silent_concat.2 ⟨?_, nofun⟩
    rcases List.prefix_concat_iff.1 hbefore with rfl | hshorter
    · simp only [OpenIn, openedIn_concat, closedIn_concat, reduceCtorEq, or_false] at hc hd
      obtain ⟨hc | ⟨hevent, -⟩, hcopen⟩ := hc
      · rcases hd with ⟨hd | ⟨-, rfl⟩, hdopen⟩
        · exact ih List.prefix_rfl ⟨hc, hcopen⟩ ⟨hd, hdopen⟩
        · exact hsilent c ⟨hc, hcopen⟩
      · cases hevent
        rcases hd with ⟨hd | ⟨hevent, -⟩, -⟩
        · obtain ⟨entry, hentry, rfl⟩ := hd.exists_entry
          exact absurd (hfresh entry hentry) hlt.not_gt
        · cases hevent
          exact absurd hlt (lt_irrefl _)
    · exact ih hshorter hc hd
  | @first log e key' message seqId hlog hopen _ hnewest _ ih =>
    obtain ⟨shorter, hshorter, hopens⟩ := exists_shorter hbefore nofun
    refine silent_concat.2 ⟨ih hshorter (hopens c key hc) (hopens d key hd), fun other hevent => ?_⟩
    cases hevent
    obtain rfl := hlog.openedIn_unique hopen.1 ((hopens c key hc).1.mono hshorter)
    exact absurd hlt (hnewest d ((hopens d key' hd).1.mono hshorter)).not_gt
  | @later log e key' message seqId _ _ hspoken _ _ ih =>
    obtain ⟨shorter, hshorter, hopens⟩ := exists_shorter hbefore nofun
    have hsilent := ih hshorter (hopens c key hc) (hopens d key hd)
    refine silent_concat.2 ⟨hsilent, fun other hevent => ?_⟩
    cases hevent
    exact hspoken hsilent
  | @closed log e key' _ _ ih =>
    obtain ⟨shorter, hshorter, hopens⟩ := exists_shorter hbefore nofun
    exact silent_concat.2 ⟨ih hshorter (hopens c key hc) (hopens d key hd), nofun⟩

/-- **Of the connections that are open for one stream at some moment, all but
one never receive a message.** -/
theorem exclusive (h : Accepted log) (hbefore : before <+: log) (hc : OpenIn before c key)
    (hd : OpenIn before d key) (hne : c ≠ d) : Silent log c ∨ Silent log d := by
  rcases lt_or_gt_of_ne hne with hlt | hlt
  · exact .inl (h.silent_of_older hbefore hc hd hlt)
  · exact .inr (h.silent_of_older hbefore hd hc hlt)

end Accepted

end Codex.RemoteControl
