import Codex.RemoteControl.ClientTracker

/-!
# What the tracker knows of its connections

`Tracks` relates the tracker's state to the log of the events it has sent: each
open connection is a client's, or is about to be closed.
-/

namespace Codex.RemoteControl

open Codex.Text

variable {π : Type}

/-- `c` is the connection of a client, or the one that is just being closed. -/
def Owned (s : Transport π) (leaving : Option (ConnectionId × ClientKey)) (c : ConnectionId)
    (key : ClientKey) : Prop :=
  (∃ client, s.clients.lookup key = some client ∧ client.connectionId = c) ∨ leaving = some (c, key)

/-- The log is that of a transport which follows the protocol, and the state
says of each connection where it stands. `starting` is a connection that waits for its first
message, `leaving` one whose client has been removed and whose close is awaited. -/
structure Tracks (starting : Option ConnectionId) (leaving : Option (ConnectionId × ClientKey))
    (s : Transport π) : Prop where
  accepted : Accepted s.emitted
  fresh : ∀ entry ∈ s.emitted, entry.event.connectionId < s.nextConnectionId
  owned : ∀ c key, Owned s leaving c key →
    OpenIn s.emitted c key ∧ ∀ key', (c, key') ∉ s.closing
  removed : ∀ c key, leaving = some (c, key) → s.clients.lookup key = none
  spoken : ∀ key client, s.clients.lookup key = some client →
    starting ≠ some client.connectionId → ¬Silent s.emitted client.connectionId
  silent : ∀ c key, OpenedIn s.emitted c key → Silent s.emitted c →
    starting = some c ∨ (c, key) ∈ s.spawned
  numbers : ∀ key client, s.clients.lookup key = some client →
    ∀ m ∈ seqIdsOf s.emitted client.connectionId, ∃ last, client.lastInboundSeqId = some last ∧ m ≤ last
  newest : ∀ c, starting = some c → Silent s.emitted c ∧
    ∀ d key, OpenedIn s.emitted c key → OpenedIn s.emitted d key → d ≤ c
  closing : ∀ c key, (c, key) ∈ s.closing → OpenIn s.emitted c key ∧ Silent s.emitted c
  once : (s.closing.map Prod.fst).Nodup
  accounted : s.receiverDropped = false → ∀ c key, OpenIn s.emitted c key →
    Owned s leaving c key ∨ (c, key) ∈ s.closing

theorem tracks_new (nextConnectionId : ConnectionId) :
    Tracks none none ({ nextConnectionId } : Transport π) where
  accepted := .nil
  fresh := nofun
  owned := by
    rintro c key (⟨client, hclient, -⟩ | hleaving)
    · cases hclient
    · cases hleaving
  removed := nofun
  spoken := nofun
  silent := by
    rintro c key ⟨entry, hentry, -⟩
    cases hentry
  numbers := nofun
  newest := nofun
  closing := nofun
  once := List.nodup_nil
  accounted := by
    rintro - c key ⟨⟨entry, hentry, -⟩, -⟩
    cases hentry

/-! ## Closes -/

section Closed

variable {log : List (Emitted π)} {c d : ConnectionId} {key key' : ClientKey}

theorem openIn_closed : OpenIn (log ++ [⟨.connectionClosed d, key', none⟩]) c key ↔
    OpenIn log c key ∧ c ≠ d := by
  unfold OpenIn
  rw [openedIn_concat, closedIn_concat]
  simp [and_assoc, eq_comm]

theorem openedIn_closed :
    OpenedIn (log ++ [⟨.connectionClosed d, key', none⟩]) c key ↔ OpenedIn log c key := by
  rw [openedIn_concat]
  simp

theorem silent_closed : Silent (log ++ [⟨.connectionClosed d, key', none⟩]) c ↔ Silent log c := by
  rw [silent_concat]
  simp

theorem seqIdsOf_closed : seqIdsOf (log ++ [⟨.connectionClosed d, key', none⟩]) c = seqIdsOf log c := by
  rw [seqIdsOf_concat]
  simp [Emitted.laterSeqId]

end Closed

variable {s : Transport π} {starting : Option ConnectionId}
  {leaving : Option (ConnectionId × ClientKey)} {c d : ConnectionId} {key key' : ClientKey}

/-- A connection that is owned twice is owned for one stream. -/
theorem Tracks.owned_unique (h : Tracks starting leaving s) (hkey : Owned s leaving c key)
    (hkey' : Owned s leaving c key') : key = key' :=
  h.accepted.openedIn_unique (h.owned c key hkey).1.1 (h.owned c key' hkey').1.1

variable {t : Transport π} {clients : HashMap ClientKey ClientState} {client : ClientState}

/-- The close of `d` has been sent, which is no client's any more. -/
theorem Tracks.closes {leaving' : Option (ConnectionId × ClientKey)} (h : Tracks starting leaving s)
    (d : ConnectionId) (key : ClientKey) (hclients : t.clients = s.clients)
    (hnext : t.nextConnectionId = s.nextConnectionId)
    (hdropped : t.receiverDropped = s.receiverDropped) (hspawned : t.spawned = s.spawned)
    (hemitted : t.emitted = s.emitted ++ [⟨.connectionClosed d, key, none⟩])
    (hopen : OpenIn s.emitted d key) (hgone : ∀ key', ¬Owned t leaving' d key')
    (hstill : ∀ c key', c ≠ d → (Owned s leaving c key' ↔ Owned t leaving' c key'))
    (hremoved : ∀ c key', leaving' = some (c, key') → leaving = some (c, key'))
    (hclosing : ∀ c key', (c, key') ∈ t.closing ↔ (c, key') ∈ s.closing ∧ c ≠ d)
    (honce : (t.closing.map Prod.fst).Nodup) : Tracks starting leaving' t where
  accepted := by
    rw [hemitted]
    exact .closed h.accepted hopen
  fresh := by
    intro entry hentry
    rw [hnext]
    rw [hemitted, List.mem_append, List.mem_singleton] at hentry
    rcases hentry with hentry | rfl
    · exact h.fresh entry hentry
    · obtain ⟨opened, hmem, rfl⟩ := hopen.1.exists_entry
      exact h.fresh opened hmem
  owned := by
    intro c key' howned
    have hne : c ≠ d := fun heq => hgone key' (heq ▸ howned)
    obtain ⟨hopenc, hnot⟩ := h.owned c key' ((hstill c key' hne).2 howned)
    rw [hemitted]
    exact ⟨openIn_closed.2 ⟨hopenc, hne⟩, fun k hk => hnot k ((hclosing c k).1 hk).1⟩
  removed := by
    intro c key' hleaving
    rw [hclients]
    exact h.removed c key' (hremoved c key' hleaving)
  spoken := by
    intro key' client hclient hne
    rw [hclients] at hclient
    rw [hemitted, silent_closed]
    exact h.spoken key' client hclient hne
  silent := by
    intro c key' hopened hsilent
    rw [hemitted] at hopened hsilent
    rw [hspawned]
    exact h.silent c key' (openedIn_closed.1 hopened) (silent_closed.1 hsilent)
  numbers := by
    intro key' client hclient
    rw [hclients] at hclient
    rw [hemitted, seqIdsOf_closed]
    exact h.numbers key' client hclient
  newest := by
    intro c hc
    rw [hemitted, silent_closed]
    simp only [openedIn_closed]
    exact h.newest c hc
  closing := by
    intro c key' hmem
    obtain ⟨hmem, hne⟩ := (hclosing c key').1 hmem
    obtain ⟨hopenc, hsilent⟩ := h.closing c key' hmem
    rw [hemitted]
    exact ⟨openIn_closed.2 ⟨hopenc, hne⟩, silent_closed.2 hsilent⟩
  once := honce
  accounted := by
    intro halive c key' hopenc
    rw [hemitted, openIn_closed] at hopenc
    rw [hdropped] at halive
    obtain ⟨hopenc, hne⟩ := hopenc
    rcases h.accounted halive c key' hopenc with howned | hmem
    · exact .inl ((hstill c key' hne).1 howned)
    · exact .inr ((hclosing c key').2 ⟨hmem, hne⟩)

/-! ## Other tasks -/

theorem mem_erase_closing (h : Tracks starting leaving s) (hmem : (d, key) ∈ s.closing) :
    (c, key') ∈ s.closing.erase (d, key) ↔ (c, key') ∈ s.closing ∧ c ≠ d := by
  rw [List.Nodup.mem_erase_iff (List.Nodup.of_map _ h.once)]
  constructor
  · rintro ⟨hne, hmem'⟩
    refine ⟨hmem', fun heq => hne ?_⟩
    subst heq
    exact List.inj_on_of_nodup_map h.once hmem' hmem rfl
  · rintro ⟨hmem', hne⟩
    exact ⟨fun heq => hne (Prod.ext_iff.1 heq).1, hmem'⟩

theorem nodup_erase_closing (h : Tracks starting leaving s) :
    ((s.closing.erase (d, key)).map Prod.fst).Nodup :=
  h.once.sublist (List.erase_sublist.map _)

/-- What other tasks do leads from `s` to `t`: the clients stay, and no new
connection is heard of. -/
structure Meanwhile (s t : Transport π) : Prop where
  clients : t.clients = s.clients
  next : s.nextConnectionId ≤ t.nextConnectionId
  bounded : ∀ bound, (∀ entry ∈ s.emitted, entry.event.connectionId < bound) →
    ∀ entry ∈ t.emitted, entry.event.connectionId < bound

theorem Meanwhile.refl : Meanwhile s s := ⟨rfl, le_rfl, fun _ => id⟩

theorem Meanwhile.trans {u : Transport π} (h : Meanwhile s t) (h' : Meanwhile t u) :
    Meanwhile s u :=
  ⟨h'.clients.trans h.clients, h.next.trans h'.next,
    fun bound hbound => h'.bounded bound (h.bounded bound hbound)⟩

/-- Other tasks leave the tracker alone, and it keeps track of what they send. -/
theorem Tracks.background (h : Tracks starting leaving s) (background : Background) :
    Tracks starting leaving (background.apply s) ∧ Meanwhile s (background.apply s) := by
  cases background with
  | connectionOpensElsewhere =>
    refine ⟨{ h with fresh := fun entry hentry => ?_ }, ⟨rfl, Nat.le_succ _, fun _ => id⟩⟩
    exact (h.fresh entry hentry).trans (Nat.lt_succ_self _)
  | receiverDrops => exact ⟨{ h with accounted := nofun }, ⟨rfl, le_rfl, fun _ => id⟩⟩
  | closeForwarded d key =>
    unfold Background.apply
    dsimp only
    by_cases hmem : (d, key) ∈ s.closing
    · rw [if_pos hmem]
      have hopen := (h.closing d key hmem).1
      refine ⟨?_, rfl, le_rfl, fun bound hbound entry hentry => ?_⟩
      rotate_left
      · dsimp only at hentry
        split at hentry
        · exact hbound entry hentry
        · rcases List.mem_append.1 hentry with hentry | hentry
          · exact hbound entry hentry
          · obtain ⟨opened, hmem, hid⟩ := hopen.1.exists_entry
            rw [List.mem_singleton.1 hentry]
            exact hid ▸ hbound opened hmem
      by_cases hdropped : s.receiverDropped = true
      · rw [if_pos hdropped]
        exact { h with
          owned := fun c key' howned => by
            obtain ⟨hopen, hnot⟩ := h.owned c key' howned
            exact ⟨hopen, fun k hk => hnot k (List.mem_of_mem_erase hk)⟩
          closing := fun c key' hc => h.closing c key' (List.mem_of_mem_erase hc)
          once := nodup_erase_closing h
          accounted := fun halive => absurd (hdropped.symm.trans halive) (by decide) }
      · rw [if_neg hdropped]
        refine h.closes d key rfl rfl rfl rfl rfl hopen ?_
          (fun _ _ _ => Iff.rfl) (fun _ _ => id) (fun c key' => mem_erase_closing h hmem)
          (nodup_erase_closing h)
        exact fun key' howned => (h.owned d key' howned).2 key hmem
    · rw [if_neg hmem]
      exact ⟨h, .refl⟩

theorem Tracks.meanwhile (h : Tracks starting leaving s) (wait : Wait) :
    Ends (await wait) s (fun _ t => Tracks starting leaving t ∧ Meanwhile s t) fun _ => False := by
  refine ends_modify ?_
  generalize wait.meanwhile = meanwhile
  induction meanwhile generalizing s with
  | nil => exact ⟨h, .refl⟩
  | cons background rest ih =>
    obtain ⟨hnext, hfirst⟩ := h.background background
    obtain ⟨hlast, hrest⟩ := ih hnext
    exact ⟨hlast, hfirst.trans hrest⟩

/-- An event that is not a close is sent by itself, or not at all. -/
theorem Tracks.sends (h : Tracks starting leaving s) (wait : Wait) (entry : Emitted π)
    (hentry : ∀ c, entry.event ≠ .connectionClosed c) :
    Ends (sendTransportEvent wait entry) s
      (fun _ t => ∃ mid : Transport π, Tracks starting leaving mid ∧ Meanwhile s mid ∧
        mid.receiverDropped = false ∧ t = { mid with emitted := mid.emitted ++ [entry] })
      fun t => Tracks starting leaving t ∧ Meanwhile s t := by
  unfold sendTransportEvent
  split
  · next hevent => exact absurd hevent (hentry _)
  · refine (h.meanwhile wait).bind (fun _ mid hmid => ?_) fun _ hfalse => hfalse.elim
    refine ends_bind (ends_get ?_)
    split
    · exact ends_throw hmid
    · next hgoes =>
      rw [Bool.or_eq_true, not_or, Bool.not_eq_true] at hgoes
      exact ends_modify ⟨mid, hmid.1, hmid.2, hgoes.1, rfl⟩

/-- The close of the connection that is leaving. -/
theorem Tracks.sendsClosed (h : Tracks starting (some (c, key)) s) (wait : Wait) :
    Ends (sendConnectionClosed wait c key) s
      (fun _ t => Tracks starting none t ∧ t.clients = s.clients)
      fun t => Tracks starting none t ∧ t.clients = s.clients := by
  unfold sendConnectionClosed
  refine (h.meanwhile wait).bind (fun _ mid ⟨hmid, hbetween⟩ => ?_) fun _ hfalse => hfalse.elim
  refine ends_bind (ends_get ?_)
  have hleft : Owned mid (some (c, key)) c key := .inr rfl
  split
  · next hdropped =>
    refine ends_throw ⟨{ hmid with
      owned := fun d key' howned => hmid.owned d key' (howned.imp_right nofun)
      removed := nofun
      accounted := fun halive => absurd (hdropped.symm.trans halive) (by decide) }, hbetween.clients⟩
  · refine ends_modify ⟨?_, hbetween.clients⟩
    have hgone : ∀ key', ¬Owned mid none c key' := by
      rintro key' (⟨client, hclient, hid⟩ | hnone)
      · obtain rfl := hmid.owned_unique hleft (.inl ⟨client, hclient, hid⟩)
        rw [hmid.removed c key rfl] at hclient
        cases hclient
      · cases hnone
    refine hmid.closes c key rfl rfl rfl rfl rfl (hmid.owned c key hleft).1 hgone ?_ nofun
      ?_ hmid.once
    · intro d key' hne
      refine or_congr_right ⟨fun heq => ?_, nofun⟩
      cases heq
      exact absurd rfl hne
    · intro d key'
      refine ⟨fun hmem => ⟨hmem, fun heq => ?_⟩, And.left⟩
      subst heq
      exact (hmid.owned d key hleft).2 key' hmem

/-! ## Clients -/

theorem lookup_erase_eq :
    (clients.erase key).lookup key' = if key' = key then none else clients.lookup key' := by
  split
  · next heq =>
    rw [heq]
    exact AList.lookup_erase _ _
  · next hne => exact AList.lookup_erase_ne hne

theorem lookup_insert_eq : (clients.insert key client).lookup key' =
      if key' = key then some client else clients.lookup key' := by
  split
  · next heq =>
    rw [heq]
    exact AList.lookup_insert clients
  · next hne => exact AList.lookup_insert_ne hne

/-- The removed client's connection is leaving. -/
theorem Tracks.removes (h : Tracks starting none s) (key : ClientKey) :
    Ends (removeClient key) s
      (fun removed t => match removed with
        | none => t = s ∧ s.clients.lookup key = none
        | some client => s.clients.lookup key = some client ∧
            Tracks starting (some (client.connectionId, key)) t ∧
            t.clients = s.clients.erase key ∧ t.emitted = s.emitted)
      fun _ => False := by
  unfold removeClient
  refine ends_bind (ends_get ?_)
  cases hclient : s.clients.lookup key with
  | none => exact ends_pure ⟨rfl, rfl⟩
  | some client =>
    refine ends_bind (ends_modify (ends_pure ⟨rfl, ?_, rfl, rfl⟩))
    have hleft : Owned s none client.connectionId key := .inl ⟨client, hclient, rfl⟩
    refine { h with owned := ?_, removed := ?_, spoken := ?_, numbers := ?_, accounted := ?_ }
    · rintro c key' (⟨other, hother, hid⟩ | heq)
      · dsimp only at hother
        rw [lookup_erase_eq] at hother
        split at hother
        · cases hother
        · exact h.owned c key' (.inl ⟨other, hother, hid⟩)
      · cases heq
        exact h.owned client.connectionId key hleft
    · rintro c key' heq
      cases heq
      exact AList.lookup_erase _ _
    · intro key' other hother hne
      dsimp only at hother
      rw [lookup_erase_eq] at hother
      split at hother
      · cases hother
      · exact h.spoken key' other hother hne
    · intro key' other hother
      dsimp only at hother
      rw [lookup_erase_eq] at hother
      split at hother
      · cases hother
      · exact h.numbers key' other hother
    · intro halive c key' hopen
      rcases h.accounted halive c key' hopen with (⟨other, hother, hid⟩ | hnone) | hmem
      · by_cases heq : key' = key
        · subst heq
          obtain rfl : client = other := Option.some_inj.1 (hclient.symm.trans hother)
          exact .inl (.inr (by rw [hid]))
        · refine .inl (.inl ⟨other, ?_, hid⟩)
          dsimp only
          rw [lookup_erase_eq, if_neg heq]
          exact hother
      · cases hnone
      · exact .inr hmem

/-- A connection that has received nothing is left to the task that closes it. -/
theorem Tracks.spawns (h : Tracks (some c) (some (c, key)) s) :
    Tracks none none { s with
      closing := s.closing ++ [(c, key)]
      spawned := s.spawned ++ [(c, key)] } := by
  obtain ⟨hopen, hnot⟩ := h.owned c key (.inr rfl)
  have hsilent := (h.newest c rfl).1
  refine { h with
    owned := ?_, removed := nofun, spoken := ?_, silent := ?_, newest := nofun, closing := ?_, once := ?_
    accounted := ?_ }
  · intro d key' howned
    obtain ⟨hopend, hnotd⟩ := h.owned d key' (howned.imp_right nofun)
    refine ⟨hopend, fun k hk => ?_⟩
    rcases List.mem_append.1 hk with hk | hk
    · exact hnotd k hk
    · obtain ⟨rfl, rfl⟩ := Prod.ext_iff.1 (List.mem_singleton.1 hk)
      rcases howned with ⟨client, hclient, hid⟩ | hnone
      · obtain rfl := h.owned_unique (.inr rfl) (.inl ⟨client, hclient, hid⟩)
        rw [h.removed d k rfl] at hclient
        cases hclient
      · cases hnone
  · intro key' client hclient _
    refine h.spoken key' client hclient fun heq => ?_
    obtain rfl : key = key' :=
      h.owned_unique (.inr rfl) (.inl ⟨client, hclient, (Option.some_inj.1 heq).symm⟩)
    rw [h.removed c key rfl] at hclient
    cases hclient
  · intro d key' hopened hsilentd
    refine .inr (List.mem_append.2 ?_)
    rcases h.silent d key' hopened hsilentd with heq | hmem
    · cases heq
      obtain rfl : key = key' := h.accepted.openedIn_unique hopen.1 hopened
      exact .inr (List.mem_singleton_self _)
    · exact .inl hmem
  · intro d key' hmem
    rcases List.mem_append.1 hmem with hmem | hmem
    · exact h.closing d key' hmem
    · cases List.mem_singleton.1 hmem
      exact ⟨hopen, hsilent⟩
  · rw [List.map_append]
    refine List.nodup_append.2 ⟨h.once, List.nodup_singleton c, fun d hd e he heq => ?_⟩
    obtain ⟨⟨d', k⟩, hmem, rfl⟩ := List.mem_map.1 hd
    obtain rfl := List.mem_singleton.1 he
    subst heq
    exact hnot k hmem
  · intro halive d key' hopend
    rcases h.accounted halive d key' hopend with (hclient | heq) | hmem
    · exact .inl (.inl hclient)
    · cases heq
      exact .inr (List.mem_append_right _ (List.mem_singleton_self _))
    · exact .inr (List.mem_append_left _ hmem)

theorem Tracks.closesClient (h : Tracks none none s) (wait : Wait) (key : ClientKey) :
    Ends (closeClient wait key) s
      (fun _ t => Tracks none none t ∧ t.clients.lookup key = none)
      fun t => Tracks none none t := by
  unfold closeClient
  refine (h.removes key).bind (fun removed t hremoved => ?_) fun _ hfalse => hfalse.elim
  cases removed with
  | none =>
    obtain ⟨rfl, hnone⟩ := hremoved
    exact ends_pure ⟨h, hnone⟩
  | some client =>
    obtain ⟨-, htracks, hclients, -⟩ := hremoved
    have hclosed := htracks.sendsClosed wait
    refine hclosed.mono (fun _ u hu => ⟨hu.1, ?_⟩) fun u hu => hu.1
    rw [hu.2, hclients]
    exact AList.lookup_erase _ _

/-- What a client knows about its past may change as long as it stays true. -/
theorem Tracks.updates (h : Tracks starting none s) {clientKey : ClientKey}
    {updated : ClientState} (hclient : s.clients.lookup clientKey = some client)
    (hid : updated.connectionId = client.connectionId)
    (hnumbers : ∀ m ∈ seqIdsOf s.emitted client.connectionId,
      ∃ last, updated.lastInboundSeqId = some last ∧ m ≤ last) :
    Tracks starting none { s with clients := s.clients.insert clientKey updated } := by
  have hthere : ∀ key other, (s.clients.insert clientKey updated).lookup key = some other →
      ∃ old, s.clients.lookup key = some old ∧ old.connectionId = other.connectionId := by
    intro key other hother
    rw [lookup_insert_eq] at hother
    split at hother
    · next heq =>
      cases hother
      exact ⟨client, heq ▸ hclient, hid.symm⟩
    · exact ⟨other, hother, rfl⟩
  refine { h with owned := ?_, removed := nofun, spoken := ?_, numbers := ?_, accounted := ?_ }
  · rintro c key (⟨other, hother, rfl⟩ | hnone)
    · obtain ⟨old, hold, holdid⟩ := hthere key other hother
      exact h.owned other.connectionId key (.inl ⟨old, hold, holdid⟩)
    · cases hnone
  · intro key other hother hne
    obtain ⟨old, hold, holdid⟩ := hthere key other hother
    rw [← holdid] at hne ⊢
    exact h.spoken key old hold hne
  · intro key other hother
    dsimp only at hother ⊢
    rw [lookup_insert_eq] at hother
    split at hother
    · cases hother
      rw [hid]
      exact hnumbers
    · exact h.numbers key other hother
  · intro halive c key hopen
    rcases h.accounted halive c key hopen with (⟨other, hother, rfl⟩ | hnone) | hmem
    · refine .inl (.inl ?_)
      by_cases heq : key = clientKey
      · subst heq
        obtain rfl : client = other := Option.some_inj.1 (hclient.symm.trans hother)
        exact ⟨updated, AList.lookup_insert _, hid⟩
      · exact ⟨other, (AList.lookup_insert_ne heq).trans hother, rfl⟩
    · cases hnone
    · exact .inr hmem

/-! ## Messages -/

theorem seqIdsOf_silent (hsilent : Silent s.emitted c) : seqIdsOf s.emitted c = [] := by
  refine List.filterMap_eq_nil_iff.2 fun entry hentry => ?_
  unfold Emitted.laterSeqId
  split
  · next d message hevent =>
    refine if_neg fun hboth => hsilent entry hentry message ?_
    rw [hevent, hboth.1]
  · rfl

/-- A new connection: the log has its opening, and its client is in the map. -/
theorem Tracks.opens {now : Instant} (h : Tracks none none s) (halive : s.receiverDropped = false)
    (hnone : s.clients.lookup key = none)
    (hfresh : ∀ entry ∈ s.emitted, entry.event.connectionId < c) (hnext : c < s.nextConnectionId)
    (hemitted : t.emitted = s.emitted ++ [⟨.connectionOpened c, key, none⟩])
    (hclients : t.clients = s.clients.insert key ⟨c, now, none⟩) (hclosing : t.closing = s.closing)
    (hspawned : t.spawned = s.spawned) (hnextId : t.nextConnectionId = s.nextConnectionId) :
    Tracks (some c) none t := by
  have hsilent : Silent s.emitted c := by
    intro entry hentry message hevent
    have hlt := hfresh entry hentry
    rw [hevent] at hlt
    exact lt_irrefl c hlt
  have hnotOpened : ∀ key', ¬OpenedIn s.emitted c key' := by
    intro key' hopened
    obtain ⟨entry, hentry, hid⟩ := hopened.exists_entry
    exact (hfresh entry hentry).ne hid
  have hnotClosed : ¬ClosedIn s.emitted c := by
    rintro ⟨entry, hentry, hevent⟩
    have hlt := hfresh entry hentry
    rw [hevent] at hlt
    exact lt_irrefl c hlt
  have hold : ∀ d key', d ≠ c → (OpenIn t.emitted d key' ↔ OpenIn s.emitted d key') := by
    intro d key' hne
    rw [hemitted]
    unfold OpenIn
    rw [openedIn_concat, closedIn_concat]
    simp [hne.symm]
  have hthere : ∀ key' client, t.clients.lookup key' = some client →
      (key' = key ∧ client = ⟨c, now, none⟩) ∨
        (s.clients.lookup key' = some client ∧ client.connectionId ≠ c) := by
    intro key' client hclient
    rw [hclients, lookup_insert_eq] at hclient
    split at hclient
    · next heq => exact .inl ⟨heq, (Option.some_inj.1 hclient).symm⟩
    · refine .inr ⟨hclient, fun heq => ?_⟩
      exact hnotOpened key' (heq ▸ (h.owned client.connectionId key' (.inl ⟨client, hclient, rfl⟩)).1.1)
  refine {
    accepted := ?_, fresh := ?_, owned := ?_, removed := ?_, spoken := ?_, silent := ?_, numbers := ?_
    newest := ?_, closing := ?_, once := hclosing ▸ h.once, accounted := ?_ }
  · rw [hemitted]
    refine .opened h.accepted hfresh fun d hopen => ?_
    rcases h.accounted halive d key hopen with (⟨client, hclient, -⟩ | hleaving) | hmem
    · rw [hnone] at hclient
      cases hclient
    · cases hleaving
    · exact (h.closing d key hmem).2
  · intro entry hentry
    rw [hnextId]
    rw [hemitted, List.mem_append, List.mem_singleton] at hentry
    rcases hentry with hentry | rfl
    · exact h.fresh entry hentry
    · exact hnext
  · rintro d key' (⟨client, hclient, rfl⟩ | hleaving)
    · rw [hclosing]
      rcases hthere key' client hclient with ⟨rfl, rfl⟩ | ⟨hclient, hne⟩
      · refine ⟨⟨?_, ?_⟩, fun k hk => hnotOpened k (h.closing c k hk).1.1⟩
        · rw [hemitted, openedIn_concat]
          exact .inr ⟨rfl, rfl⟩
        · rw [hemitted, closedIn_concat, not_or]
          exact ⟨hnotClosed, fun heq => by cases heq⟩
      · obtain ⟨hopen, hnot⟩ := h.owned client.connectionId key' (.inl ⟨client, hclient, rfl⟩)
        exact ⟨(hold _ key' hne).2 hopen, hnot⟩
    · cases hleaving
  · intro _ _ hleaving
    cases hleaving
  · intro key' client hclient hne
    rcases hthere key' client hclient with ⟨rfl, rfl⟩ | ⟨hclient, -⟩
    · exact absurd rfl hne
    · rw [hemitted, silent_concat]
      exact fun hboth => h.spoken key' client hclient (Option.some_ne_none _).symm hboth.1
  · intro d key' hopened hsilentd
    rw [hemitted] at hopened hsilentd
    rcases openedIn_concat.1 hopened with hopened | ⟨heq, -⟩
    · rcases h.silent d key' hopened (silent_concat.1 hsilentd).1 with hnone | hmem
      · cases hnone
      · exact .inr (hspawned ▸ hmem)
    · cases heq
      exact .inl rfl
  · intro key' client hclient
    rw [hemitted, seqIdsOf_concat]
    rcases hthere key' client hclient with ⟨rfl, rfl⟩ | ⟨hclient, -⟩
    · rw [seqIdsOf_silent hsilent]
      intro m hm
      cases hm
    · simpa [Emitted.laterSeqId] using h.numbers key' client hclient
  · intro d hd
    cases hd
    refine ⟨?_, fun d key' hc hd => ?_⟩
    · rw [hemitted, silent_concat]
      exact ⟨hsilent, fun _ heq => by cases heq⟩
    · rw [hemitted, openedIn_concat] at hd
      rcases hd with hd | ⟨heq, -⟩
      · obtain ⟨entry, hentry, rfl⟩ := hd.exists_entry
        exact (hfresh entry hentry).le
      · cases heq
        exact le_rfl
  · intro d key' hmem
    rw [hclosing] at hmem
    obtain ⟨hopen, hsilent⟩ := h.closing d key' hmem
    have hne : d ≠ c := fun heq => hnotOpened key' (heq ▸ hopen.1)
    refine ⟨(hold d key' hne).2 hopen, ?_⟩
    rw [hemitted, silent_concat]
    exact ⟨hsilent, fun _ heq => by cases heq⟩
  · intro _ d key' hopen
    rw [hclosing]
    by_cases hd : d = c
    · subst hd
      rw [hemitted] at hopen
      have hkey : key = key' := by
        rcases openedIn_concat.1 hopen.1 with hopened | ⟨-, hkey⟩
        · exact absurd hopened (hnotOpened key')
        · exact hkey
      subst hkey
      refine .inl (.inl ⟨⟨d, now, none⟩, ?_, rfl⟩)
      rw [hclients]
      exact AList.lookup_insert _
    · rcases h.accounted halive d key' ((hold d key' hd).1 hopen) with howned | hmem
      · rcases howned with ⟨client, hclient, hid⟩ | hleaving
        · refine .inl (.inl ⟨client, ?_, hid⟩)
          rw [hclients, lookup_insert_eq, if_neg]
          · exact hclient
          · rintro rfl
            rw [hnone] at hclient
            cases hclient
        · cases hleaving
      · exact .inr hmem

/-- A message that a client's connection is given. -/
theorem Tracks.incoming {message : JSONRPCMessage π} {seqId : Option ℕ}
    (h : Tracks starting none s) (hclient : s.clients.lookup key = some client)
    (hid : client.connectionId = c) (hstarting : starting = none ∨ starting = some c)
    (haccepted : Accepted (s.emitted ++ [⟨.incomingMessage c message, key, seqId⟩]))
    (hlast : ∀ n, seqId = some n → remoteControlMessageStartsConnection message = false →
      client.lastInboundSeqId = some n) :
    Tracks none none { s with
      emitted := s.emitted ++ [⟨.incomingMessage c message, key, seqId⟩] } := by
  subst hid
  have howned : Owned s none client.connectionId key := .inl ⟨client, hclient, rfl⟩
  have hopens : ∀ d key', OpenIn
      (s.emitted ++ [⟨.incomingMessage client.connectionId message, key, seqId⟩]) d key' ↔
        OpenIn s.emitted d key' := by
    intro d key'
    unfold OpenIn
    rw [openedIn_concat, closedIn_concat]
    simp
  refine { h with
    accepted := haccepted, fresh := ?_, owned := ?_, spoken := ?_, silent := ?_, numbers := ?_
    newest := nofun, closing := ?_, accounted := ?_ }
  · intro entry hentry
    rcases List.mem_append.1 hentry with hentry | hentry
    · exact h.fresh entry hentry
    · obtain ⟨opened, hmem, hid⟩ := (h.owned _ key howned).1.1.exists_entry
      rw [List.mem_singleton.1 hentry]
      exact hid ▸ h.fresh opened hmem
  · intro d key' howned
    obtain ⟨hopen, hnot⟩ := h.owned d key' howned
    exact ⟨(hopens d key').2 hopen, hnot⟩
  · intro key' other hother _ hsilent
    rw [silent_concat] at hsilent
    by_cases heq : client.connectionId = other.connectionId
    · exact hsilent.2 message (by rw [heq])
    · refine h.spoken key' other hother (fun hsome => ?_) hsilent.1
      rcases hstarting with hnone | hstart
      · cases hnone.symm.trans hsome
      · exact heq (Option.some_inj.1 (hstart.symm.trans hsome))
  · intro d key' hopened hsilent
    rw [silent_concat] at hsilent
    rcases openedIn_concat.1 hopened with hopened | ⟨heq, -⟩
    · refine .inr ((h.silent d key' hopened hsilent.1).resolve_left fun hsome => ?_)
      rcases hstarting with hnone | hstart
      · cases hnone.symm.trans hsome
      · obtain rfl : client.connectionId = d := Option.some_inj.1 (hstart.symm.trans hsome)
        exact hsilent.2 message rfl
    · cases heq
  · intro key' other hother m hm
    rw [seqIdsOf_concat] at hm
    rcases List.mem_append.1 hm with hm | hm
    · exact h.numbers key' other hother m hm
    · rw [Option.mem_toList] at hm
      have hboth : client.connectionId = other.connectionId ∧
          remoteControlMessageStartsConnection message = false := by
        by_contra hneither
        simp [Emitted.laterSeqId, hneither] at hm
      have hseqId : seqId = some m := by simpa [Emitted.laterSeqId, hboth] using hm
      obtain rfl := h.owned_unique howned (.inl ⟨other, hother, hboth.1.symm⟩)
      obtain rfl : client = other := Option.some_inj.1 (hclient.symm.trans hother)
      exact ⟨m, hlast m hseqId hboth.2, le_rfl⟩
  · intro d key' hmem
    obtain ⟨hopen, hsilent⟩ := h.closing d key' hmem
    refine ⟨(hopens d key').2 hopen, silent_concat.2 ⟨hsilent, fun other hevent => ?_⟩⟩
    cases hevent
    exact (h.owned _ key howned).2 key' hmem
  · intro halive d key' hopen
    exact h.accounted halive d key' ((hopens d key').1 hopen)

end Codex.RemoteControl
