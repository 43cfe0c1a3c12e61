import Codex.RemoteControl.Tracking

/-!
# The events of a tracker

Each action keeps track of the connections, whatever its sends come to, so the log of
every run is that of a transport which follows the protocol.
-/

namespace Codex.RemoteControl

open Codex.Text

variable {π : Type} {s t : Transport π} {clientKey : ClientKey} {seqId : Option ℕ}
  {message : JSONRPCMessage π}

/-- `x` keeps track of the connections, whether it fails or not. -/
def KeepsTrack {α : Type} (x : M π α) (s : Transport π) : Prop :=
  Ends x s (fun _ t => Tracks none none t) (Tracks none none)

/-! ## Clients -/

theorem updateClient_keepsTrack {change : ClientState → ClientState} (h : Tracks none none s)
    (hid : ∀ client, (change client).connectionId = client.connectionId)
    (hnumbers : ∀ client, s.clients.lookup clientKey = some client →
      ∀ m ∈ seqIdsOf s.emitted client.connectionId,
        ∃ last, (change client).lastInboundSeqId = some last ∧ m ≤ last) :
    Ends (updateClient clientKey change) s
      (fun _ t => Tracks none none t ∧ t.emitted = s.emitted ∧
        t.clients.lookup clientKey = (s.clients.lookup clientKey).map change)
      fun _ => False := by
  unfold updateClient
  refine ends_modify ?_
  cases hclient : s.clients.lookup clientKey with
  | none => exact ⟨h, rfl, hclient⟩
  | some client =>
    exact ⟨h.updates hclient (hid client) (hnumbers client hclient), rfl, AList.lookup_insert _⟩

theorem touch_keepsTrack (now : Instant) (h : Tracks none none s) :
    Ends (updateClient clientKey fun client => { client with lastActivityAt := now }) s
      (fun _ t => Tracks none none t ∧ t.emitted = s.emitted ∧ t.clients.lookup clientKey =
        (s.clients.lookup clientKey).map fun client => { client with lastActivityAt := now })
      fun _ => False :=
  updateClient_keepsTrack h (fun _ => rfl) fun client hclient => h.numbers clientKey client hclient

theorem recordInboundMessageDelivery_keepsTrack (h : Tracks none none s)
    (hnumbers : ∀ client n, s.clients.lookup clientKey = some client → seqId = some n →
      ∀ m ∈ seqIdsOf s.emitted client.connectionId, m ≤ n) :
    KeepsTrack (recordInboundMessageDelivery clientKey seqId) s := by
  unfold recordInboundMessageDelivery KeepsTrack
  cases seqId with
  | none => exact ends_pure h
  | some n =>
    let record (client : ClientState) : ClientState := { client with lastInboundSeqId := some n }
    have hid : ∀ client, (record client).connectionId = client.connectionId := fun _ => rfl
    have hupdate := updateClient_keepsTrack h hid fun client hclient m hm =>
      ⟨n, rfl, hnumbers client n hclient rfl m hm⟩
    exact hupdate.mono (fun _ t ht => ht.1) fun _ hfalse => hfalse.elim

/-- `close_client` and what comes of it. -/
theorem closeClient_keepsTrack (h : Tracks none none s) (wait : Wait) (clientKey : ClientKey) :
    KeepsTrack (closeClient wait clientKey) s :=
  (h.closesClient wait clientKey).mono (fun _ _ ht => ht.1) fun _ => id

/-! ## Messages -/

/-- A later message of a connection has been sent, and its seq id is recorded. -/
theorem record_keepsTrack {client : ClientState} {c : ConnectionId} (h : Tracks none none s)
    (hclient : s.clients.lookup clientKey = some client) (hid : client.connectionId = c)
    (hlater : remoteControlMessageStartsConnection message = false)
    (hnew : ∀ n last, seqId = some n → client.lastInboundSeqId = some last → last < n) :
    KeepsTrack (recordInboundMessageDelivery clientKey seqId)
      { s with emitted := s.emitted ++ [⟨.incomingMessage c message, clientKey, seqId⟩] } := by
  subst hid
  have hopen := (h.owned client.connectionId clientKey (.inl ⟨client, hclient, rfl⟩)).1
  have hspoken := h.spoken clientKey client hclient nofun
  have hlt : ∀ n, seqId = some n → ∀ m ∈ seqIdsOf s.emitted client.connectionId, m < n := by
    intro n hn m hm
    obtain ⟨last, hlast, hle⟩ := h.numbers clientKey client hclient m hm
    have := hnew n last hn hlast
    omega
  have haccepted := Accepted.later h.accepted hopen hspoken hlater hlt
  unfold recordInboundMessageDelivery KeepsTrack
  cases seqId with
  | none => exact ends_pure (h.incoming hclient rfl (.inl rfl) haccepted nofun)
  | some n =>
    refine ends_modify ?_
    dsimp only
    rw [hclient]
    -- the log and the client do not mind in which order they change
    let delivered : ClientState := { client with lastInboundSeqId := some n }
    have hupdated : Tracks none none { s with clients := s.clients.insert clientKey delivered } :=
      h.updates hclient rfl
        fun m hm => ⟨n, rfl, (hlt n rfl m hm).le⟩
    have hmine : (s.clients.insert clientKey delivered).lookup clientKey = some delivered :=
      AList.lookup_insert _
    exact hupdated.incoming hmine rfl (.inl rfl) haccepted fun k hk _ => hk

/-- A connection is opened for a stream that has none. -/
theorem openConnection_keepsTrack (circumstances : Circumstances) (isLegacyStreamId : Bool)
    (h : Tracks none none s) (hnone : s.clients.lookup clientKey = none)
    (hstarts : remoteControlMessageStartsConnection message = true) :
    KeepsTrack (openConnection circumstances clientKey isLegacyStreamId seqId message) s := by
  unfold openConnection nextConnectionId KeepsTrack
  refine ends_bind (ends_bind (ends_get (ends_bind (ends_modify (ends_pure ?_)))))
  have hcounted : Tracks none none { s with nextConnectionId := s.nextConnectionId + 1 } :=
    (h.background .connectionOpensElsewhere).1
  refine (hcounted.sends circumstances.forOpened ⟨.connectionOpened _, clientKey, none⟩
    fun c heq => by cases heq).bind (fun _ t ht => ?_) fun _ ht => ht.1
  obtain ⟨mid, hmid, hbetween, halive, rfl⟩ := ht
  have hfresh : ∀ entry ∈ mid.emitted, entry.event.connectionId < s.nextConnectionId :=
    hbetween.bounded s.nextConnectionId h.fresh
  have hnext : s.nextConnectionId < mid.nextConnectionId :=
    lt_of_lt_of_le (Nat.lt_succ_self _) hbetween.next
  let client : ClientState := ⟨s.nextConnectionId, circumstances.now, none⟩
  let opened : Transport π := { mid with
    emitted := mid.emitted ++ [⟨.connectionOpened s.nextConnectionId, clientKey, none⟩]
    joinSet := mid.joinSet ++ [clientKey]
    clients := mid.clients.insert clientKey client
    legacyStreamIds := if isLegacyStreamId then mid.legacyStreamIds.insert clientKey.1 clientKey.2
      else mid.legacyStreamIds }
  have hopened : Tracks (some s.nextConnectionId) none opened :=
    hmid.opens halive (hbetween.clients ▸ hnone) hfresh hnext rfl rfl rfl rfl rfl
  have hclient : opened.clients.lookup clientKey = some client := AList.lookup_insert _
  refine ends_bind (ends_modify ?_)
  show Ends _ opened _ _
  have hsend := hopened.sends circumstances.forMessage
    ⟨.incomingMessage s.nextConnectionId message, clientKey, seqId⟩ fun c heq => by cases heq
  refine Ends.bind (ends_tryCatch (hsend.mono (fun _ _ => id) ?_)) ?_ fun _ => id
  · -- the request was not delivered: the connection is closed behind the tracker's back
    rintro t ⟨ht, hbetween⟩ err
    have hthere : t.clients.lookup clientKey = some client := hbetween.clients ▸ hclient
    refine (ht.removes clientKey).bind (fun removed u hremoved => ?_) fun _ hfalse => hfalse.elim
    cases removed with
    | none => cases hthere.symm.trans hremoved.2
    | some other =>
      obtain ⟨hother, htracks, -, -⟩ := hremoved
      obtain rfl : client = other := Option.some_inj.1 (hthere.symm.trans hother)
      exact ends_bind (ends_modify (ends_throw htracks.spawns))
  · rintro - t ⟨mid, hmid, hbetween, -, rfl⟩
    have hthere : mid.clients.lookup clientKey = some client := hbetween.clients ▸ hclient
    have hopen := (hmid.owned s.nextConnectionId clientKey (.inl ⟨client, hthere, rfl⟩)).1
    obtain ⟨hsilent, hnewest⟩ := hmid.newest s.nextConnectionId rfl
    have haccepted : Accepted (mid.emitted ++
        [⟨.incomingMessage s.nextConnectionId message, clientKey, seqId⟩]) :=
      .first hmid.accepted hopen hsilent (fun d => hnewest d clientKey hopen.1) hstarts
    have hstarted := hmid.incoming hthere rfl (.inr rfl) haccepted
      fun _ _ hlater => absurd (hstarts.symm.trans hlater) (by decide)
    split
    · exact ends_pure hstarted
    · refine recordInboundMessageDelivery_keepsTrack hstarted fun other n hother _ m hm => ?_
      obtain rfl : client = other := Option.some_inj.1 (hthere.symm.trans hother)
      obtain ⟨last, hlast, -⟩ := hstarted.numbers clientKey client hthere m hm
      cases hlast

theorem alreadyDelivered_eq_false {client : ClientState}
    (hclient : s.clients.lookup clientKey = some client) :
    alreadyDelivered s clientKey seqId = false ↔
      ∀ n last, seqId = some n → client.lastInboundSeqId = some last → last < n := by
  unfold alreadyDelivered
  rw [hclient]
  cases seqId with
  | none => simp
  | some n =>
    cases hlast : client.lastInboundSeqId with
    | none => simp [hlast]
    | some last => simp [hlast]

theorem forwardClientMessage_keepsTrack (circumstances : Circumstances) (isLegacyStreamId : Bool)
    (h : Tracks none none s)
    (hfirst : remoteControlMessageStartsConnection message = true → s.clients.lookup clientKey = none)
    (hlater : remoteControlMessageStartsConnection message = false →
      alreadyDelivered s clientKey seqId = false) :
    KeepsTrack (forwardClientMessage circumstances clientKey isLegacyStreamId seqId message) s := by
  unfold forwardClientMessage KeepsTrack
  refine ends_bind (ends_get ?_)
  cases hclient : s.clients.lookup clientKey with
  | none =>
    dsimp only
    split
    · exact ends_pure h
    · next hstarts =>
      rw [Bool.not_eq_true, Bool.not_eq_false'] at hstarts
      exact openConnection_keepsTrack circumstances isLegacyStreamId h hclient hstarts
  | some client =>
    dsimp only
    have hstarts : remoteControlMessageStartsConnection message = false := by
      rw [← Bool.not_eq_true]
      intro hstarts
      cases (hfirst hstarts).symm.trans hclient
    have hnew := (alreadyDelivered_eq_false hclient).1 (hlater hstarts)
    refine (touch_keepsTrack circumstances.now h).bind (fun _ t ht => ?_) fun _ hfalse => hfalse.elim
    obtain ⟨ht, -, htouched⟩ := ht
    rw [hclient] at htouched
    refine (ht.sends circumstances.forMessage
      ⟨.incomingMessage client.connectionId message, clientKey, seqId⟩
      fun c heq => by cases heq).bind (fun _ u hu => ?_) fun _ hu => hu.1
    obtain ⟨mid, hmid, hbetween, -, rfl⟩ := hu
    rw [← hbetween.clients] at htouched
    exact record_keepsTrack hmid htouched rfl hstarts hnew

theorem handleClientMessage_keepsTrack (circumstances : Circumstances) (isLegacyStreamId : Bool)
    (h : Tracks none none s) :
    KeepsTrack (handleClientMessage circumstances clientKey isLegacyStreamId seqId message) s := by
  unfold handleClientMessage KeepsTrack
  refine ends_bind (ends_get ?_)
  split
  · exact ends_pure h
  · next hnew =>
    split
    · next hagain =>
      rw [Bool.and_eq_true] at hagain
      refine (h.closesClient circumstances.forClosed clientKey).bind (fun _ t ht => ?_) fun _ => id
      refine forwardClientMessage_keepsTrack circumstances isLegacyStreamId ht.1 (fun _ => ht.2) ?_
      exact fun hlater => absurd (hagain.1.symm.trans hlater) (by decide)
    · next honce =>
      refine forwardClientMessage_keepsTrack circumstances isLegacyStreamId h ?_ fun hlater => ?_
      · intro hstarts
        rw [hstarts, Bool.true_and, Bool.not_eq_true, Option.isSome_eq_false_iff,
          Option.isNone_iff_eq_none] at honce
        exact honce
      · rw [hlater, Bool.not_false, Bool.and_true, Bool.not_eq_true] at hnew
        exact hnew

/-! ## Actions -/

theorem resolveStreamId_keepsTrack (newRandom : StreamId)
    (envelope : ClientEnvelope (JSONRPCMessage π)) (h : Tracks none none s) :
    KeepsTrack (resolveStreamId newRandom envelope) s := by
  unfold resolveStreamId KeepsTrack
  refine ends_bind (ends_get ?_)
  split
  · exact ends_pure h
  · split
    · exact ends_bind (ends_modify (ends_pure { h with }))
    · exact ends_pure h

theorem handlePing_keepsTrack (now : Instant) (h : Tracks none none s) :
    KeepsTrack (handlePing now clientKey) s := by
  unfold handlePing KeepsTrack
  refine ends_bind (ends_get ?_)
  split
  · refine (touch_keepsTrack now h).bind (fun _ t ht => ?_) fun _ hfalse => hfalse.elim
    exact ends_modify { ht.1 with }
  · exact ends_modify { h with }

theorem handleMessage_keepsTrack (circumstances : Circumstances)
    (envelope : ClientEnvelope (JSONRPCMessage π)) (h : Tracks none none s) :
    KeepsTrack (handleMessage circumstances envelope) s := by
  unfold handleMessage KeepsTrack
  refine (resolveStreamId_keepsTrack circumstances.newRandom envelope h).bind (fun streamId t ht => ?_)
    fun _ => id
  dsimp only
  split
  · exact ends_pure ht
  · split
    · exact handleClientMessage_keepsTrack circumstances _ ht
    · exact ends_pure ht
    · exact ends_pure ht
    · exact handlePing_keepsTrack circumstances.now ht
    · exact closeClient_keepsTrack ht circumstances.forClosed _

theorem closeExpiredClients_keepsTrack (waits : ClientKey → Wait) (expired : List ClientKey)
    (h : Tracks none none s) : KeepsTrack (closeExpiredClients waits expired) s := by
  unfold closeExpiredClients KeepsTrack
  have hall : Ends (expired.forM fun clientKey => closeClient (waits clientKey) clientKey : M π PUnit) s
      (fun _ t => Tracks none none t) (Tracks none none) := by
    induction expired generalizing s with
    | nil => exact ends_pure h
    | cons clientKey rest ih =>
      exact (closeClient_keepsTrack h (waits clientKey) clientKey).bind (fun _ _ ht => ih ht)
        fun _ => id
  exact hall.bind (fun _ _ ht => ends_pure ht) fun _ => id

theorem closeEndedClient_keepsTrack (wait : Wait) (h : Tracks none none s) :
    KeepsTrack (closeEndedClient wait clientKey) s := by
  unfold closeEndedClient KeepsTrack
  have hjoined : Tracks none none { s with joinSet := s.joinSet.erase clientKey } := { h with }
  exact ends_bind (ends_modify (closeClient_keepsTrack hjoined wait clientKey))

theorem trackerStep_keepsTrack {action : TrackerAction π} (h : Tracks none none s)
    (hstep : trackerStep s action = some t) : Tracks none none t := by
  cases action with
  | handleMessage circumstances envelope =>
    obtain rfl := Option.some_inj.1 hstep
    exact Ends.leaves (handleMessage_keepsTrack circumstances envelope h)
  | outboundEnds wait clientKey =>
    dsimp only [trackerStep] at hstep
    split at hstep
    · obtain rfl := Option.some_inj.1 hstep
      exact Ends.leaves (closeEndedClient_keepsTrack wait h)
    · cases hstep
  | closeExpiredClients now waits expired =>
    dsimp only [trackerStep] at hstep
    split at hstep
    · obtain rfl := Option.some_inj.1 hstep
      exact Ends.leaves (closeExpiredClients_keepsTrack waits expired h)
    · cases hstep
  | background background =>
    obtain rfl := Option.some_inj.1 hstep
    exact (h.background background).1

theorem run_keepsTrack {first : ConnectionId} {actions : List (TrackerAction π)}
    (hrun : Machine.run trackerStep { nextConnectionId := first } actions = some t) :
    Tracks none none t :=
  Machine.run_invariant (fun _ _ _ => trackerStep_keepsTrack) (tracks_new first) hrun

/-! ## The claim on runs -/

/-- **The transport events of the client tracker.** In every run the events of
each connection are in order and the seq ids of its later messages increase. Of two connections
that are open for one stream at some moment, one never receives a message and its close was left to
a task of its own; and a connection that is open without a message waits for that task, unless the
app server has stopped listening. -/
theorem tracker_connection_events {first : ConnectionId} {actions : List (TrackerAction π)}
    (hrun : Machine.run trackerStep { nextConnectionId := first } actions = some t) :
    (∀ c, eventsOf t.emitted c = [] ∨ EventsInOrder c (eventsOf t.emitted c)) ∧
    (∀ before c d key, before <+: t.emitted → OpenIn before c key → OpenIn before d key → c ≠ d →
      (Silent t.emitted c ∧ (c, key) ∈ t.spawned) ∨ (Silent t.emitted d ∧ (d, key) ∈ t.spawned)) ∧
    (∀ c key, OpenIn t.emitted c key → Silent t.emitted c →
      (c, key) ∈ t.closing ∨ t.receiverDropped = true) ∧
    ∀ c, (seqIdsOf t.emitted c).Pairwise (· < ·) := by
  have htracks := run_keepsTrack hrun
  refine ⟨htracks.accepted.eventsOf_eventsInOrder, ?_, ?_, htracks.accepted.seqIdsOf_increase⟩
  · intro before c d key hbefore hc hd hne
    have hspawned : ∀ e, OpenIn before e key → Silent t.emitted e → (e, key) ∈ t.spawned := by
      rintro e ⟨⟨entry, hmem, hopened⟩, -⟩ hsilent
      refine (htracks.silent e key ⟨entry, hbefore.subset hmem, hopened⟩ hsilent).resolve_left ?_
      exact (Option.some_ne_none e).symm
    rcases htracks.accepted.exclusive hbefore hc hd hne with hsilent | hsilent
    · exact .inl ⟨hsilent, hspawned c hc hsilent⟩
    · exact .inr ⟨hsilent, hspawned d hd hsilent⟩
  · intro c key hopen hsilent
    cases hdropped : t.receiverDropped with
    | true => exact .inr rfl
    | false =>
      rcases htracks.accounted hdropped c key hopen with (⟨client, hclient, rfl⟩ | hnone) | hmem
      · exact absurd hsilent (htracks.spoken key client hclient (Option.some_ne_none _).symm)
      · cases hnone
      · exact .inl hmem

private def sampleEnvelope (seqId : ℕ) (message : JSONRPCMessage Unit) :
    ClientEnvelope (JSONRPCMessage Unit) where
  event := .clientMessage message
  clientId := "client".toList
  streamId := some "stream".toList
  seqId := some seqId

private def sampleInitialize : JSONRPCMessage Unit :=
  .request (.integer 1) "initialize".toList none

private def sampleNotification : JSONRPCMessage Unit := .notification "initialized".toList none

private def sampleActions : List (TrackerAction Unit) :=
  [.handleMessage { now := 0, newRandom := [] } (sampleEnvelope 0 sampleInitialize),
    .handleMessage { now := 1, newRandom := [] } (sampleEnvelope 1 sampleNotification),
    .handleMessage { now := 2, newRandom := [] } (sampleEnvelope 1 sampleNotification),
    .handleMessage { now := 3, newRandom := [], forMessage := { timedOut := true } }
      (sampleEnvelope 0 sampleInitialize),
    .handleMessage { now := 4, newRandom := [] } (sampleEnvelope 0 sampleInitialize)]

/-- A duplicate, a new start whose first message is lost, and another new start. -/
theorem tracker_connection_events_restarted :
    ∃ t, Machine.run trackerStep ({ nextConnectionId := 7 } : Transport Unit) sampleActions = some t ∧
      seqIdsOf t.emitted 7 = [1] ∧ EventsInOrder 7 (eventsOf t.emitted 7) ∧
      OpenIn t.emitted 8 ("client".toList, "stream".toList) ∧
      OpenIn t.emitted 9 ("client".toList, "stream".toList) ∧
      (Silent t.emitted 8 ∧ (8, "client".toList, "stream".toList) ∈ t.spawned ∨
        Silent t.emitted 9 ∧ (9, "client".toList, "stream".toList) ∈ t.spawned) := by
  have hrun : ∃ t, Machine.run trackerStep ({ nextConnectionId := 7 } : Transport Unit)
      sampleActions = some t ∧ seqIdsOf t.emitted 7 = [1] ∧ eventsOf t.emitted 7 ≠ [] ∧
      OpenIn t.emitted 8 ("client".toList, "stream".toList) ∧
      OpenIn t.emitted 9 ("client".toList, "stream".toList) :=
    ⟨_, rfl, by decide +kernel, by decide +kernel, by decide +kernel, by decide +kernel⟩
  obtain ⟨t, ht, hseqIds, hne, h8, h9⟩ := hrun
  obtain ⟨hevents, hexclusive, -, -⟩ := tracker_connection_events ht
  refine ⟨t, ht, hseqIds, (hevents 7).resolve_left hne, h8, h9, ?_⟩
  exact hexclusive t.emitted 8 9 _ List.prefix_rfl h8 h9 (by decide)

/-- While the close of a connection whose first message was lost is on its way,
the stream has another connection open. -/
theorem two_connections_open_for_stream :
    ¬∀ (actions : List (TrackerAction Unit)) (t : Transport Unit) (c d : ConnectionId)
      (key : ClientKey), Machine.run trackerStep { nextConnectionId := 0 } actions = some t →
        OpenIn t.emitted c key → OpenIn t.emitted d key → c = d := by
  intro hall
  have hrun : ∃ t, Machine.run trackerStep ({ nextConnectionId := 0 } : Transport Unit)
      sampleActions = some t ∧ OpenIn t.emitted 1 ("client".toList, "stream".toList) ∧
      OpenIn t.emitted 2 ("client".toList, "stream".toList) :=
    ⟨_, rfl, by decide +kernel, by decide +kernel⟩
  obtain ⟨t, ht, h1, h2⟩ := hrun
  exact absurd (hall sampleActions t 1 2 _ ht h1 h2) (by decide)

end Codex.RemoteControl
