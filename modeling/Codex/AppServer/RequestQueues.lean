import Codex.Base.Machine
import Codex.Base.Tree
import Mathlib.Data.List.TakeWhile

/-!
# Request queues of the app server

`RequestSerializationQueues` (`app-server/src/request_serialization.rs`) with the gates of
the connections (`connection_rpc_gate.rs`). A request goes into the queue of its key, and
the first one of a queue spawns a task that drains it: an exclusive request alone, reads
that stand together at once. What the tasks do between two locks interleaves in any order,
and the futures do not panic. Whatever the order, conflicting requests of a key run one
after the other (`run_in_order`).
-/

namespace Codex.AppServer

open List Entries

inductive RequestSerializationAccess where
  | exclusive
  | sharedRead
  deriving DecidableEq

/-- A request with the key of its queue. The number stands for its future. -/
structure QueuedSerializedRequest (κ γ : Type) where
  key : κ
  access : RequestSerializationAccess
  gate : γ
  id : ℕ

/-- How far `QueuedInitializedRequest::run` has come. -/
inductive RunState where
  | waiting
  | inFlight
  | ended
  deriving DecidableEq

/-- Where a task of `drain` is: before the lock, in `join_all`, or at its end. -/
inductive DrainPoint (κ γ : Type) where
  | locking
  | joining (requests : List (QueuedSerializedRequest κ γ × RunState))
  | returned

structure Drain (κ γ : Type) where
  key : κ
  point : DrainPoint κ γ

/-- What is seen of a request, and the closing of a gate. -/
inductive Event (κ γ : Type) where
  | enqueued (request : QueuedSerializedRequest κ γ)
  | started (request : QueuedSerializedRequest κ γ)
  | finished (request : QueuedSerializedRequest κ γ)
  /-- The gate is closed: the future is dropped. -/
  | skipped (request : QueuedSerializedRequest κ γ)
  | closed (gate : γ)

structure RequestSerializationQueues (κ γ : Type) where
  inner : List (κ × List (QueuedSerializedRequest κ γ)) := []
  drains : List (Drain κ γ) := []
  /-- The gates that no longer accept. -/
  closed : List γ := []
  next : ℕ := 0
  log : List (Event κ γ) := []

/-- The index of a drain, and of a request in its `join_all`. -/
inductive QueueStep (κ γ : Type) where
  | enqueue (key : κ) (access : RequestSerializationAccess) (gate : γ)
  | lock (drain : ℕ)
  | enter (drain request : ℕ)
  | finish (drain request : ℕ)
  | join (drain : ℕ)
  | closeGate (gate : γ)

variable {κ γ : Type}

def QueuedSerializedRequest.isShared (request : QueuedSerializedRequest κ γ) : Bool :=
  request.access == .sharedRead

open QueuedSerializedRequest (isShared)

/-- The requests that are taken with the first one, and those that stay. -/
def takeBatch (request : QueuedSerializedRequest κ γ) (queue : List (QueuedSerializedRequest κ γ)) :
    List (QueuedSerializedRequest κ γ) × List (QueuedSerializedRequest κ γ) :=
  if request.isShared then (request :: queue.takeWhile isShared, queue.dropWhile isShared)
  else ([request], queue)

namespace RequestSerializationQueues

def setPoint (s : RequestSerializationQueues κ γ) (drain : ℕ) (key : κ) (point : DrainPoint κ γ) :
    RequestSerializationQueues κ γ :=
  { s with drains := s.drains.set drain { key, point } }

/-- What the gate records of a request, and what comes of the request in `join_all`. -/
def record (s : RequestSerializationQueues κ γ) (drain : ℕ) (key : κ)
    (requests : List (QueuedSerializedRequest κ γ × RunState)) (index : ℕ)
    (request : QueuedSerializedRequest κ γ) (state : RunState) (event : Event κ γ) :
    RequestSerializationQueues κ γ :=
  { s with log := s.log ++ [event] }.setPoint drain key
    (.joining (requests.set index (request, state)))

variable [DecidableEq κ] [DecidableEq γ]

/-- The queue is made and its drain spawned if there is none. -/
def enqueue (s : RequestSerializationQueues κ γ) (key : κ) (access : RequestSerializationAccess)
    (gate : γ) : RequestSerializationQueues κ γ :=
  let request : QueuedSerializedRequest κ γ := { key, access, gate, id := s.next }
  let log := s.log ++ [.enqueued request]
  match get? key s.inner with
  | some queue =>
    { s with next := s.next + 1, log, inner := Entries.insert key (queue ++ [request]) s.inner }
  | none =>
    { s with
      next := s.next + 1, log, inner := Entries.insert key [request] s.inner
      drains := s.drains ++ [{ key, point := .locking }] }

/-- A drain takes the lock and the requests that it is going to run. -/
def lock (s : RequestSerializationQueues κ γ) (drain : ℕ) (key : κ) :
    RequestSerializationQueues κ γ :=
  match get? key s.inner with
  | none => s.setPoint drain key .returned
  | some [] => { s with inner := Entries.remove key s.inner }.setPoint drain key .returned
  | some (request :: queue) =>
    let (requests, queue) := takeBatch request queue
    { s with inner := Entries.insert key queue s.inner }.setPoint drain key
      (.joining (requests.map (·, .waiting)))

/-- A request of `join_all` comes to its gate. -/
def enter (s : RequestSerializationQueues κ γ) (drain : ℕ) (key : κ)
    (requests : List (QueuedSerializedRequest κ γ × RunState)) (index : ℕ)
    (request : QueuedSerializedRequest κ γ) : RequestSerializationQueues κ γ :=
  if request.gate ∈ s.closed then
    s.record drain key requests index request .ended (.skipped request)
  else s.record drain key requests index request .inFlight (.started request)

def step (s : RequestSerializationQueues κ γ) :
    QueueStep κ γ → Option (RequestSerializationQueues κ γ)
  | .enqueue key access gate => some (s.enqueue key access gate)
  | .lock drain =>
    match s.drains[drain]? with
    | some { key, point := .locking } => some (s.lock drain key)
    | _ => none
  | .enter drain index =>
    match s.drains[drain]? with
    | some { key, point := .joining requests } =>
      match requests[index]? with
      | some (request, .waiting) => some (s.enter drain key requests index request)
      | _ => none
    | _ => none
  | .finish drain index =>
    match s.drains[drain]? with
    | some { key, point := .joining requests } =>
      match requests[index]? with
      | some (request, .inFlight) =>
        some (s.record drain key requests index request .ended (.finished request))
      | _ => none
    | _ => none
  | .join drain =>
    match s.drains[drain]? with
    | some { key, point := .joining requests } =>
      if ∀ entry ∈ requests, entry.2 = .ended then some (s.setPoint drain key .locking) else none
    | _ => none
  | .closeGate gate => some { s with closed := gate :: s.closed, log := s.log ++ [.closed gate] }

end RequestSerializationQueues

/-! ## What the log says -/

def Event.request? : Event κ γ → Option (QueuedSerializedRequest κ γ)
  | .enqueued request => some request
  | _ => none

def enqueued (log : List (Event κ γ)) : List (QueuedSerializedRequest κ γ) :=
  log.filterMap Event.request?

def Ended (request : QueuedSerializedRequest κ γ) (log : List (Event κ γ)) : Prop :=
  .finished request ∈ log ∨ .skipped request ∈ log

/-- Two reads may run at the same time. -/
def Conflict (first second : QueuedSerializedRequest κ γ) : Prop :=
  (first.isShared && second.isShared) = false

/-- The request does not start twice or behind a closed gate, and what it waits for has ended. -/
structure StartsWell (request : QueuedSerializedRequest κ γ) (before : List (Event κ γ)) :
    Prop where
  once : .started request ∉ before
  accepted : .closed request.gate ∉ before
  ordered : ∀ earlier ∈ enqueued before, earlier.key = request.key → earlier.id < request.id →
    Conflict earlier request → Ended earlier before

def AllStartWell (log : List (Event κ γ)) : Prop :=
  ∀ before request after, log = before ++ .started request :: after → StartsWell request before

section Lanes

variable {log more : List (Event κ γ)} {event : Event κ γ}
  {request earlier : QueuedSerializedRequest κ γ}
  {requests queue done : List (QueuedSerializedRequest κ γ)}
  {batch : List (QueuedSerializedRequest κ γ × RunState)}

theorem enqueued_append : enqueued (log ++ more) = enqueued log ++ enqueued more :=
  filterMap_append

theorem enqueued_closed (gate : γ) : enqueued (log ++ [.closed gate]) = enqueued log := by
  rw [enqueued_append]
  exact append_nil _

theorem Ended.append (h : Ended request log) : Ended request (log ++ more) :=
  h.imp (mem_append_left more) (mem_append_left more)

theorem AllStartWell.concat (h : AllStartWell log)
    (hevent : ∀ request, event = .started request → StartsWell request log) :
    AllStartWell (log ++ [event]) := by
  intro before request after hsplit
  rcases eq_nil_or_concat after with rfl | ⟨after, last, rfl⟩
  · obtain ⟨rfl, hlast⟩ := append_inj' hsplit rfl
    exact hevent request (singleton_inj.1 hlast)
  · have hsplit' : log ++ [event] = (before ++ .started request :: after) ++ [last] := by
      rw [hsplit, List.append_assoc, concat_eq_append, cons_append]
    exact h before request after (append_inj' hsplit' rfl).1

/-! ## Lanes -/

/-- The requests of one key: those that have ended, those that are taken, those in the queue. -/
structure Lane (log : List (Event κ γ)) (requests : List (QueuedSerializedRequest κ γ))
    (batch : List (QueuedSerializedRequest κ γ × RunState))
    (queue : List (QueuedSerializedRequest κ γ)) : Prop where
  split : ∃ done, requests = done ++ batch.map Prod.fst ++ queue ∧ ∀ r ∈ done, Ended r log
  together : batch.length ≤ 1 ∨ ∀ entry ∈ batch, entry.1.isShared = true
  ended : ∀ entry ∈ batch, entry.2 = .ended → Ended entry.1 log
  fresh : ∀ r, (r, .waiting) ∈ batch ∨ r ∈ queue → .started r ∉ log

/-- The other lanes do not see an event. -/
theorem Lane.append (h : Lane log requests batch queue)
    (hmore : ∀ r ∈ requests, .started r ∉ more) : Lane (log ++ more) requests batch queue := by
  obtain ⟨done, hsplit, hdone⟩ := h.split
  refine ⟨⟨done, hsplit, fun r hr => (hdone r hr).append⟩, h.together, ?_, ?_⟩
  · intro entry hentry hended
    exact (h.ended entry hentry hended).append
  · intro r hr hstarted
    rcases mem_append.1 hstarted with hlog | hlast
    · exact h.fresh r hr hlog
    · refine hmore r ?_ hlast
      rw [hsplit]
      rcases hr with hbatch | hqueue
      · exact mem_append_left _ (mem_append_right _ (mem_map_of_mem hbatch))
      · exact mem_append_right _ hqueue

theorem Lane.push (h : Lane log requests batch queue) (hfresh : .started request ∉ log) :
    Lane log (requests ++ [request]) batch (queue ++ [request]) := by
  obtain ⟨done, rfl, hdone⟩ := h.split
  refine ⟨⟨done, List.append_assoc .., hdone⟩, h.together, h.ended, ?_⟩
  intro r hr
  rw [mem_append, mem_singleton, ← or_assoc] at hr
  rcases hr with hr | rfl
  · exact h.fresh r hr
  · exact hfresh

theorem takeBatch_append : (takeBatch request queue).1 ++ (takeBatch request queue).2 =
    request :: queue := by
  unfold takeBatch
  split
  · rw [cons_append, takeWhile_append_dropWhile]
  · rfl

theorem takeBatch_together : (takeBatch request queue).1.length ≤ 1 ∨
    ∀ r ∈ (takeBatch request queue).1, r.isShared = true := by
  unfold takeBatch
  split
  · next hshared =>
    refine .inr fun r hr => ?_
    rcases mem_cons.1 hr with rfl | hr
    · exact hshared
    · exact mem_takeWhile_imp hr
  · exact .inl (Nat.le_refl 1)

theorem Lane.take (h : Lane log requests [] (request :: queue)) :
    Lane log requests ((takeBatch request queue).1.map (·, .waiting))
      (takeBatch request queue).2 := by
  obtain ⟨done, hsplit, hdone⟩ := h.split
  refine ⟨⟨done, ?_, hdone⟩, ?_, ?_, ?_⟩
  · rw [hsplit, ← takeBatch_append, map_map, List.append_assoc, List.append_assoc]
    simp [Function.comp_def]
  · rw [length_map, forall_mem_map]
    exact takeBatch_together
  · rintro entry hentry hended
    obtain ⟨r, -, rfl⟩ := mem_map.1 hentry
    cases hended
  · intro r hr
    refine h.fresh r (.inr ?_)
    rw [← takeBatch_append, mem_append]
    refine hr.imp_left fun hbatch => ?_
    obtain ⟨r', hr', heq⟩ := mem_map.1 hbatch
    cases heq
    exact hr'

/-- When all that is taken has ended, nothing is taken. -/
theorem Lane.join (h : Lane log requests batch queue) (hended : ∀ entry ∈ batch, entry.2 = .ended) :
    Lane log requests [] queue := by
  obtain ⟨done, hsplit, hdone⟩ := h.split
  refine ⟨⟨done ++ batch.map Prod.fst, ?_, ?_⟩, .inl (Nat.zero_le 1), nofun, ?_⟩
  · rw [hsplit, map_nil, append_nil]
  · intro r hr
    rcases mem_append.1 hr with hr | hr
    · exact hdone r hr
    · obtain ⟨entry, hentry, rfl⟩ := mem_map.1 hr
      exact h.ended entry hentry (hended entry hentry)
  · exact fun r hr => h.fresh r (hr.imp_left nofun)

theorem exists_split_of_getElem? {α : Type} {l : List α} {index : ℕ} {a : α}
    (h : l[index]? = some a) :
    ∃ before after, l = before ++ a :: after ∧ ∀ b, l.set index b = before ++ b :: after := by
  obtain ⟨hlt, hget⟩ := List.getElem?_eq_some_iff.1 h
  have hset (b : α) : l.set index b = l.take index ++ b :: l.drop (index + 1) := by
    rw [set_eq_take_append_cons_drop, if_pos hlt]
  refine ⟨l.take index, l.drop (index + 1), ?_, hset⟩
  rw [← hset, ← hget, set_getElem_self]

/-- What still waits after a taken request went on is another request. -/
theorem waits_of_waits {before after : List (QueuedSerializedRequest κ γ × RunState)}
    {old new : RunState} {r : QueuedSerializedRequest κ γ} (hwaiting : new ≠ .waiting)
    (hids : (done ++ (before ++ (request, old) :: after).map Prod.fst ++ queue).Nodup)
    (hr : (r, .waiting) ∈ before ++ (request, new) :: after ∨ r ∈ queue) :
    r ≠ request ∧ ((r, .waiting) ∈ before ++ (request, old) :: after ∨ r ∈ queue) := by
  have hne : request ∉ done ++ before.map Prod.fst ++ (after.map Prod.fst ++ queue) := by
    refine (nodup_cons.1 (nodup_middle.1 ?_)).1
    simpa using hids
  have hr' : (r, .waiting) ∈ before ++ after ∨ r ∈ queue := by
    refine hr.imp_left fun hmem => ?_
    rw [mem_append, mem_cons] at hmem
    rcases hmem with hmem | heq | hmem
    · exact mem_append_left _ hmem
    · exact absurd (Prod.mk.inj heq).2.symm hwaiting
    · exact mem_append_right _ hmem
  constructor
  · rintro rfl
    refine hne ?_
    rcases hr' with hmem | hqueue
    · have hfst := mem_map_of_mem (f := Prod.fst) hmem
      rw [map_append, mem_append] at hfst
      rcases hfst with hfst | hfst
      · exact mem_append_left _ (mem_append_right _ hfst)
      · exact mem_append_right _ (mem_append_left _ hfst)
    · exact mem_append_right _ (mem_append_right _ hqueue)
  · refine hr'.imp_left fun hmem => ?_
    rw [mem_append, mem_cons]
    exact (mem_append.1 hmem).imp_right .inr

/-- A taken request goes on. -/
theorem Lane.record {index : ℕ} {old new : RunState} (h : Lane log requests batch queue)
    (hids : requests.Nodup) (hentry : batch[index]? = some (request, old))
    (hwaiting : new ≠ .waiting) (hended : new = .ended → Ended request (log ++ [event]))
    (hevent : ∀ r, event = .started r → r = request) :
    Lane (log ++ [event]) requests (batch.set index (request, new)) queue := by
  obtain ⟨before, after, rfl, hset⟩ := exists_split_of_getElem? hentry
  obtain ⟨done, rfl, hdone⟩ := h.split
  rw [hset]
  refine ⟨⟨done, by simp, fun r hr => (hdone r hr).append⟩, ?_, ?_, ?_⟩
  · refine h.together.imp (fun hlength => ?_) fun hshared entry hentry => ?_
    · simpa using hlength
    · rw [mem_append, mem_cons] at hentry
      rcases hentry with hentry | rfl | hentry
      · exact hshared entry (by simp [hentry])
      · exact hshared (request, old) (by simp)
      · exact hshared entry (by simp [hentry])
  · intro entry hentry hstate
    rw [mem_append, mem_cons] at hentry
    rcases hentry with hentry | rfl | hentry
    · exact (h.ended entry (by simp [hentry]) hstate).append
    · exact hended hstate
    · exact (h.ended entry (by simp [hentry]) hstate).append
  · intro r hr hstarted
    obtain ⟨hne, hr⟩ := waits_of_waits hwaiting hids hr
    rcases mem_append.1 hstarted with hlog | hlast
    · exact h.fresh r hr hlog
    · exact hne (hevent r (mem_singleton.1 hlast).symm)

/-- A taken request that waits may start: what it must wait for stands before it in the lane. -/
theorem Lane.ordered {index : ℕ} {state : RunState} (h : Lane log requests batch queue)
    (hids : requests.Pairwise (·.id < ·.id)) (hentry : batch[index]? = some (request, state))
    (hearlier : earlier ∈ requests) (hlt : earlier.id < request.id)
    (hconflict : Conflict earlier request) : Ended earlier log := by
  obtain ⟨done, rfl, hdone⟩ := h.split
  have hmem : (request, state) ∈ batch := mem_of_getElem? hentry
  rw [mem_append, mem_append] at hearlier
  rcases hearlier with (hearlier | hearlier) | hearlier
  · exact hdone earlier hearlier
  · -- two requests are taken, so all that are taken are reads
    obtain ⟨entry, hentry', rfl⟩ := mem_map.1 hearlier
    rcases h.together with hlength | hshared
    · obtain ⟨only, rfl⟩ : ∃ only, batch = [only] := by
        refine length_eq_one_iff.1 (Nat.le_antisymm hlength ?_)
        exact length_pos_of_mem hmem
      rw [mem_singleton] at hmem hentry'
      rw [hentry', ← hmem] at hlt
      exact absurd hlt (Nat.lt_irrefl _)
    · unfold Conflict at hconflict
      rw [hshared _ hentry', hshared _ hmem] at hconflict
      cases hconflict
  · have hafter := (pairwise_append.1 hids).2.2 request
      (mem_append_right _ (mem_map_of_mem (f := Prod.fst) hmem)) earlier hearlier
    omega

end Lanes

/-! ## Drains -/

def DrainPoint.live : DrainPoint κ γ → Bool
  | .returned => false
  | .locking | .joining _ => true

def DrainPoint.batch : DrainPoint κ γ → List (QueuedSerializedRequest κ γ × RunState)
  | .joining requests => requests
  | .locking | .returned => []

section Serving

variable [DecidableEq κ] {key key' : κ} {drains : List (Drain κ γ)} {index : ℕ}
  {point : DrainPoint κ γ}

def Drain.serves (key : κ) (drain : Drain κ γ) : Bool :=
  drain.key = key && drain.point.live

def serving (key : κ) (drains : List (Drain κ γ)) : List (Drain κ γ) :=
  drains.filter (Drain.serves key)

/-- The requests of a key that are in a `join_all`. -/
def taken (key : κ) (drains : List (Drain κ γ)) :
    List (QueuedSerializedRequest κ γ × RunState) :=
  (serving key drains).flatMap fun drain => drain.point.batch

theorem serves_self : Drain.serves key (⟨key, point⟩ : Drain κ γ) = point.live := by
  simp [Drain.serves]

theorem serves_ne (hne : key' ≠ key) : Drain.serves key' (⟨key, point⟩ : Drain κ γ) = false := by
  simp [Drain.serves, Ne.symm hne]

theorem serving_set_of_ne (new : DrainPoint κ γ) (hdrain : drains[index]? = some ⟨key, point⟩)
    (hne : key' ≠ key) :
    serving key' (drains.set index ⟨key, new⟩) = serving key' drains := by
  obtain ⟨before, after, rfl, hset⟩ := exists_split_of_getElem? hdrain
  rw [hset]
  simp [serving, filter_append, serves_ne hne]

/-- The only drain of a key is the one that makes a step for it. -/
theorem serving_set (new : DrainPoint κ γ) (hdrain : drains[index]? = some ⟨key, point⟩)
    (hlive : point.live = true) (hone : (serving key drains).length ≤ 1) :
    serving key drains = [⟨key, point⟩] ∧
      serving key (drains.set index ⟨key, new⟩) = if new.live then [⟨key, new⟩] else [] := by
  obtain ⟨before, after, rfl, hset⟩ := exists_split_of_getElem? hdrain
  unfold serving at hone ⊢
  rw [hset]
  rw [filter_append, filter_cons, serves_self, if_pos hlive] at hone ⊢
  rw [length_append, length_cons] at hone
  have hbefore : before.filter (Drain.serves key) = [] := length_eq_zero_iff.1 (by omega)
  have hafter : after.filter (Drain.serves key) = [] := length_eq_zero_iff.1 (by omega)
  rw [filter_append, filter_cons, serves_self, hbefore, hafter]
  exact ⟨rfl, rfl⟩

end Serving

/-! ## The invariant -/

namespace RequestSerializationQueues

variable [DecidableEq κ]

def queued (key : κ) (inner : List (κ × List (QueuedSerializedRequest κ γ))) :
    List (QueuedSerializedRequest κ γ) :=
  (get? key inner).getD []

def ofKey (key : κ) (log : List (Event κ γ)) : List (QueuedSerializedRequest κ γ) :=
  (enqueued log).filter fun request => request.key = key

/-- A key has one drain while it has a queue, and its requests go through them in order. -/
structure Inv (s : RequestSerializationQueues κ γ) : Prop where
  sorted : (enqueued s.log).Pairwise (·.id < ·.id)
  next : ∀ request ∈ enqueued s.log, request.id < s.next
  started : ∀ request, .started request ∈ s.log → request ∈ enqueued s.log
  closed : ∀ gate, .closed gate ∈ s.log → gate ∈ s.closed
  served : ∀ key, (serving key s.drains).length = (get? key s.inner).elim 0 fun _ => 1
  lane : ∀ key, Lane s.log (ofKey key s.log) (taken key s.drains) (queued key s.inner)
  starts : AllStartWell s.log

variable {s t : RequestSerializationQueues κ γ} {key : κ} {index : ℕ} {point : DrainPoint κ γ}
  {inner : List (κ × List (QueuedSerializedRequest κ γ))} {log more : List (Event κ γ)}
  {request : QueuedSerializedRequest κ γ} {event : Event κ γ}
  {requests : List (QueuedSerializedRequest κ γ × RunState)}

theorem Inv.initial : Inv ({} : RequestSerializationQueues κ γ) where
  sorted := List.Pairwise.nil
  next := nofun
  started := nofun
  closed := nofun
  served _ := rfl
  lane _ := ⟨⟨[], rfl, nofun⟩, .inl (Nat.zero_le 1), nofun, nofun⟩
  starts := by
    intro before request after hsplit
    cases before <;> cases hsplit

theorem Inv.sorted_ofKey (h : Inv s) (key : κ) : (ofKey key s.log).Pairwise (·.id < ·.id) :=
  h.sorted.filter _

theorem Inv.nodup_ofKey (h : Inv s) (key : κ) : (ofKey key s.log).Nodup := by
  refine List.Pairwise.imp ?_ (h.sorted_ofKey key)
  rintro request _ hlt rfl
  exact Nat.lt_irrefl _ hlt

theorem Inv.served_le (h : Inv s) (key : κ) : (serving key s.drains).length ≤ 1 := by
  rw [h.served]
  cases get? key s.inner with
  | none => exact Nat.zero_le 1
  | some _ => exact Nat.le_refl 1

theorem Inv.taken_eq (h : Inv s) (hdrain : s.drains[index]? = some ⟨key, point⟩)
    (hlive : point.live = true) : taken key s.drains = point.batch := by
  unfold taken
  rw [(serving_set point hdrain hlive (h.served_le key)).1, flatMap_singleton]

theorem ofKey_append (hmore : enqueued more = []) : ofKey key (log ++ more) = ofKey key log := by
  unfold ofKey
  rw [enqueued_append, hmore, append_nil]

/-- **A step of a drain** keeps the invariant if it does what it should in the lane of its key. -/
theorem Inv.move (h : Inv s) (new : DrainPoint κ γ) (more : List (Event κ γ))
    (hdrain : s.drains[index]? = some ⟨key, point⟩) (hlive : point.live = true)
    (hinner : ∀ k, k ≠ key → get? k inner = get? k s.inner)
    (hserved : new.live = (get? key inner).isSome)
    (hmore : enqueued more = []) (hclosed : ∀ gate, .closed gate ∉ more)
    (hstarted : ∀ r, .started r ∈ more → r ∈ ofKey key s.log)
    (hlane : Lane (s.log ++ more) (ofKey key s.log) new.batch (queued key inner))
    (hstarts : AllStartWell (s.log ++ more)) :
    Inv { s with inner, drains := s.drains.set index ⟨key, new⟩, log := s.log ++ more } where
  sorted := by
    rw [enqueued_append, hmore, append_nil]
    exact h.sorted
  next := by
    rw [enqueued_append, hmore, append_nil]
    exact h.next
  started request hrequest := by
    rw [enqueued_append, hmore, append_nil]
    rcases mem_append.1 hrequest with hlog | hlast
    · exact h.started request hlog
    · exact (mem_filter.1 (hstarted request hlast)).1
  closed gate hgate := by
    rcases mem_append.1 hgate with hlog | hlast
    · exact h.closed gate hlog
    · exact absurd hlast (hclosed gate)
  served k := by
    dsimp only
    by_cases hk : k = key
    · rw [hk, (serving_set new hdrain hlive (h.served_le key)).2, hserved]
      cases get? key inner <;> rfl
    · rw [serving_set_of_ne new hdrain hk, hinner k hk]
      exact h.served k
  lane k := by
    dsimp only
    rw [ofKey_append hmore]
    by_cases hk : k = key
    · subst hk
      have htaken : taken k (s.drains.set index ⟨k, new⟩) = new.batch := by
        unfold taken
        rw [(serving_set new hdrain hlive (h.served_le k)).2]
        cases new <;> simp [DrainPoint.live, DrainPoint.batch]
      rw [htaken]
      exact hlane
    · unfold taken queued
      rw [serving_set_of_ne new hdrain hk, hinner k hk]
      refine (h.lane k).append fun r hr hlast => hk ?_
      have hkey : r.key = k := of_decide_eq_true (mem_filter.1 hr).2
      rw [← hkey]
      exact of_decide_eq_true (mem_filter.1 (hstarted r hlast)).2
  starts := hstarts

theorem Inv.isSome (h : Inv s) (hdrain : s.drains[index]? = some ⟨key, point⟩)
    (hlive : point.live = true) : (get? key s.inner).isSome = true := by
  have hserved := h.served key
  rw [(serving_set point hdrain hlive (h.served_le key)).1] at hserved
  cases hget : get? key s.inner with
  | none =>
    rw [hget] at hserved
    cases hserved
  | some _ => rfl

/-- A drain goes on with the same log. -/
theorem Inv.silent (h : Inv s) (new : DrainPoint κ γ)
    (hdrain : s.drains[index]? = some ⟨key, point⟩) (hlive : point.live = true)
    (hinner : ∀ k, k ≠ key → get? k inner = get? k s.inner)
    (hserved : new.live = (get? key inner).isSome)
    (hlane : Lane s.log (ofKey key s.log) new.batch (queued key inner)) :
    Inv ({ s with inner }.setPoint index key new) := by
  have hmove := h.move new [] hdrain hlive hinner hserved rfl nofun nofun
    (by rw [append_nil]; exact hlane) (by rw [append_nil]; exact h.starts)
  rw [append_nil] at hmove
  exact hmove

theorem Inv.lock (h : Inv s) (hdrain : s.drains[index]? = some ⟨key, .locking⟩) :
    Inv (s.lock index key) := by
  have hlane := h.lane key
  rw [h.taken_eq hdrain rfl] at hlane
  have hsome := h.isSome hdrain rfl
  unfold RequestSerializationQueues.lock
  unfold queued at hlane
  cases hget : get? key s.inner with
  | none =>
    rw [hget] at hsome
    cases hsome
  | some queue =>
    rw [hget] at hlane
    cases queue with
    | nil =>
      refine h.silent .returned hdrain rfl (fun k hk => ?_) ?_ ?_
      · rw [get?_remove, if_neg hk]
      · rw [get?_remove, if_pos rfl]
        rfl
      · rw [queued, get?_remove, if_pos rfl]
        exact hlane
    | cons request queue =>
      refine h.silent (.joining _) hdrain rfl (fun k hk => ?_) ?_ ?_
      · rw [get?_insert, if_neg hk]
      · rw [get?_insert, if_pos rfl]
        rfl
      · rw [queued, get?_insert, if_pos rfl]
        exact hlane.take

theorem Inv.join (h : Inv s) (hdrain : s.drains[index]? = some ⟨key, .joining requests⟩)
    (hended : ∀ entry ∈ requests, entry.2 = .ended) : Inv (s.setPoint index key .locking) := by
  have hlane := h.lane key
  rw [h.taken_eq hdrain rfl] at hlane
  exact h.silent .locking hdrain rfl (fun _ _ => rfl) (h.isSome hdrain rfl).symm
    (hlane.join hended)

theorem Inv.mem_ofKey {drain : ℕ} {state : RunState} (h : Inv s)
    (hdrain : s.drains[drain]? = some ⟨key, .joining requests⟩)
    (hentry : requests[index]? = some (request, state)) : request ∈ ofKey key s.log := by
  have hlane := h.lane key
  rw [h.taken_eq hdrain rfl] at hlane
  obtain ⟨done, hsplit, -⟩ := hlane.split
  rw [hsplit]
  refine mem_append_left _ (mem_append_right _ ?_)
  exact mem_map_of_mem (f := Prod.fst) (mem_of_getElem? hentry)

/-- A request of a `join_all` goes on. -/
theorem Inv.record {drain : ℕ} {old state : RunState} (h : Inv s)
    (hdrain : s.drains[drain]? = some ⟨key, .joining requests⟩)
    (hentry : requests[index]? = some (request, old)) (hwaiting : state ≠ .waiting)
    (hended : state = .ended → Ended request (s.log ++ [event])) (hmore : enqueued [event] = [])
    (hclosed : ∀ gate, event ≠ .closed gate) (hevent : ∀ r, event = .started r → r = request)
    (hstarts : event = .started request → StartsWell request s.log) :
    Inv (s.record drain key requests index request state event) := by
  have hlane := h.lane key
  rw [h.taken_eq hdrain rfl] at hlane
  refine h.move (.joining _) _ hdrain rfl (fun _ _ => rfl) (h.isSome hdrain rfl).symm hmore ?_
    ?_ (hlane.record (h.nodup_ofKey key) hentry hwaiting hended hevent) ?_
  · exact fun gate hgate => hclosed gate (mem_singleton.1 hgate).symm
  · intro r hr
    rw [hevent r (mem_singleton.1 hr).symm]
    exact h.mem_ofKey hdrain hentry
  · refine h.starts.concat fun r hr => ?_
    obtain rfl := hevent r hr
    exact hstarts hr

/-- A request that comes to an open gate starts well. -/
theorem Inv.startsWell {drain : ℕ} (h : Inv s)
    (hdrain : s.drains[drain]? = some ⟨key, .joining requests⟩)
    (hentry : requests[index]? = some (request, .waiting)) (hopen : request.gate ∉ s.closed) :
    StartsWell request s.log := by
  have hlane := h.lane key
  rw [h.taken_eq hdrain rfl] at hlane
  have hmem : (request, .waiting) ∈ requests := mem_of_getElem? hentry
  have hofKey := h.mem_ofKey hdrain hentry
  refine ⟨hlane.fresh request (.inl hmem), fun hgate => hopen (h.closed _ hgate), ?_⟩
  intro earlier hearlier hkey hlt hconflict
  refine hlane.ordered (h.sorted_ofKey key) hentry ?_ hlt hconflict
  refine mem_filter.2 ⟨hearlier, decide_eq_true ?_⟩
  rw [hkey]
  exact of_decide_eq_true (mem_filter.1 hofKey).2

theorem Inv.enter [DecidableEq γ] {drain : ℕ} (h : Inv s)
    (hdrain : s.drains[drain]? = some ⟨key, .joining requests⟩)
    (hentry : requests[index]? = some (request, .waiting)) :
    Inv (s.enter drain key requests index request) := by
  unfold RequestSerializationQueues.enter
  by_cases hgate : request.gate ∈ s.closed
  · rw [if_pos hgate]
    refine h.record hdrain hentry nofun (fun _ => .inr ?_) rfl nofun nofun nofun
    exact mem_append_right _ (mem_singleton_self _)
  · rw [if_neg hgate]
    refine h.record hdrain hentry nofun nofun rfl nofun (fun r hr => ?_) fun _ => ?_
    · cases hr
      rfl
    · exact h.startsWell hdrain hentry hgate

theorem Inv.finish {drain : ℕ} (h : Inv s)
    (hdrain : s.drains[drain]? = some ⟨key, .joining requests⟩)
    (hentry : requests[index]? = some (request, .inFlight)) :
    Inv (s.record drain key requests index request .ended (.finished request)) := by
  refine h.record hdrain hentry nofun (fun _ => .inl ?_) rfl nofun nofun nofun
  exact mem_append_right _ (mem_singleton_self _)

theorem Inv.closeGate (h : Inv s) (gate : γ) :
    Inv { s with closed := gate :: s.closed, log := s.log ++ [.closed gate] } where
  sorted := by
    rw [enqueued_closed]
    exact h.sorted
  next := by
    rw [enqueued_closed]
    exact h.next
  started request hrequest := by
    rw [enqueued_closed]
    rcases mem_append.1 hrequest with hlog | hlast
    · exact h.started request hlog
    · cases mem_singleton.1 hlast
  closed g hg := by
    rcases mem_append.1 hg with hlog | hlast
    · exact mem_cons_of_mem _ (h.closed g hlog)
    · cases mem_singleton.1 hlast
      exact mem_cons_self
  served := h.served
  lane key := by
    rw [ofKey_append rfl]
    exact (h.lane key).append fun r _ hlast => nomatch mem_singleton.1 hlast
  starts := h.starts.concat nofun

theorem serving_concat (drains : List (Drain κ γ)) (drain : Drain κ γ) :
    serving key (drains ++ [drain]) =
      serving key drains ++ if drain.serves key then [drain] else [] := by
  unfold serving
  rw [filter_append]
  cases h : drain.serves key with
  | true => rw [filter_cons_of_pos h, if_pos rfl, filter_nil]
  | false => rw [filter_cons_of_neg (by simp [h]), if_neg Bool.false_ne_true, filter_nil]

theorem Inv.push (h : Inv s) (drains : List (Drain κ γ)) (request : QueuedSerializedRequest κ γ)
    (hid : request.id = s.next)
    (hserved : ∀ key, (serving key drains).length =
      (get? key (Entries.insert request.key (queued request.key s.inner ++ [request])
        s.inner)).elim 0 fun _ => 1)
    (htaken : ∀ key, taken key drains = taken key s.drains) :
    Inv { s with
      inner := Entries.insert request.key (queued request.key s.inner ++ [request]) s.inner
      drains, next := s.next + 1, log := s.log ++ [.enqueued request] } := by
  have henqueued : enqueued (s.log ++ [.enqueued request]) = enqueued s.log ++ [request] :=
    enqueued_append
  have hfresh : .started request ∉ s.log := fun hstarted => by
    have hlt := h.next request (h.started request hstarted)
    omega
  refine ⟨?_, ?_, ?_, ?_, hserved, ?_, h.starts.concat nofun⟩
  · rw [henqueued]
    refine pairwise_append.2 ⟨h.sorted, pairwise_singleton _ _, ?_⟩
    intro earlier hearlier r hr
    rw [mem_singleton.1 hr, hid]
    exact h.next earlier hearlier
  · rw [henqueued]
    intro r hr
    rcases mem_append.1 hr with hr | hr
    · exact Nat.lt_succ_of_lt (h.next r hr)
    · rw [mem_singleton.1 hr, hid]
      exact Nat.lt_succ_self _
  · intro r hr
    rw [henqueued]
    rcases mem_append.1 hr with hr | hr
    · exact mem_append_left _ (h.started r hr)
    · cases mem_singleton.1 hr
  · intro gate hgate
    rcases mem_append.1 hgate with hgate | hgate
    · exact h.closed gate hgate
    · cases mem_singleton.1 hgate
  · intro key
    dsimp only
    rw [ofKey, henqueued, filter_append, htaken, queued, get?_insert]
    by_cases hkey : key = request.key
    · subst hkey
      rw [if_pos rfl, filter_singleton, decide_eq_true rfl]
      exact ((h.lane request.key).push hfresh).append fun r _ hlast =>
        nomatch mem_singleton.1 hlast
    · rw [if_neg hkey, filter_singleton, decide_eq_false (Ne.symm hkey)]
      rw [cond_false, append_nil]
      exact (h.lane key).append fun r _ hlast => nomatch mem_singleton.1 hlast

theorem Inv.enqueue (h : Inv s) (key : κ) (access : RequestSerializationAccess) (gate : γ) :
    Inv (s.enqueue key access gate) := by
  unfold RequestSerializationQueues.enqueue
  cases hget : get? key s.inner with
  | some queue =>
    have hpush := h.push s.drains ⟨key, access, gate, s.next⟩ rfl ?_ fun _ => rfl
    · rw [queued, hget] at hpush
      exact hpush
    · intro k
      rw [h.served, get?_insert]
      by_cases hk : k = key
      · rw [if_pos hk, hk, hget]
        rfl
      · rw [if_neg hk]
  | none =>
    have hnone : serving key s.drains = [] := by
      refine length_eq_zero_iff.1 ?_
      rw [h.served, hget]
      rfl
    have hpush := h.push (s.drains ++ [⟨key, .locking⟩]) ⟨key, access, gate, s.next⟩ rfl ?_ ?_
    · rw [queued, hget] at hpush
      exact hpush
    · intro k
      rw [serving_concat, get?_insert]
      by_cases hk : k = key
      · rw [if_pos hk, hk, hnone, serves_self]
        rfl
      · rw [if_neg hk, serves_ne hk, if_neg Bool.false_ne_true, append_nil]
        exact h.served k
    · intro k
      unfold taken
      rw [serving_concat, flatMap_append]
      by_cases hk : k = key
      · rw [hk, serves_self]
        exact append_nil _
      · rw [serves_ne hk, if_neg Bool.false_ne_true]
        exact append_nil _

theorem Inv.step [DecidableEq γ] {a : QueueStep κ γ} (h : Inv s) (hstep : s.step a = some t) :
    Inv t := by
  cases a with
  | enqueue key access gate =>
    cases hstep
    exact h.enqueue key access gate
  | closeGate gate =>
    cases hstep
    exact h.closeGate gate
  | lock drain =>
    rw [RequestSerializationQueues.step] at hstep
    split at hstep
    · next key hdrain =>
      cases hstep
      exact h.lock hdrain
    · cases hstep
  | enter drain index =>
    rw [RequestSerializationQueues.step] at hstep
    split at hstep
    · next key requests hdrain =>
      split at hstep
      · next request hentry =>
        cases hstep
        exact h.enter hdrain hentry
      · cases hstep
    · cases hstep
  | finish drain index =>
    rw [RequestSerializationQueues.step] at hstep
    split at hstep
    · next key requests hdrain =>
      split at hstep
      · next request hentry =>
        cases hstep
        exact h.finish hdrain hentry
      · cases hstep
    · cases hstep
  | join drain =>
    rw [RequestSerializationQueues.step] at hstep
    split at hstep
    · next key requests hdrain =>
      split at hstep
      · next hended =>
        cases hstep
        exact h.join hdrain hended
      · cases hstep
    · cases hstep

/-! ## Runs -/

/-- A step that no client and no connection makes. -/
def QueueStep.ofTask : QueueStep κ γ → Bool
  | .enqueue _ _ _ | .closeGate _ => false
  | .lock _ | .enter _ _ | .finish _ _ | .join _ => true

/-- No task can go on. -/
def Quiet [DecidableEq γ] (s : RequestSerializationQueues κ γ) : Prop :=
  ∀ a, QueueStep.ofTask a = true → s.step a = none

theorem Quiet.returned [DecidableEq γ] (h : Quiet s)
    (hdrain : s.drains[index]? = some ⟨key, point⟩) : point = .returned := by
  cases point with
  | returned => rfl
  | locking =>
    have hlock := h (.lock index) rfl
    simp [step, hdrain] at hlock
  | joining requests =>
    have hjoin := h (.join index) rfl
    simp only [step, hdrain, ite_eq_right_iff, reduceCtorEq, imp_false]
      at hjoin
    refine absurd (fun entry hentry => ?_) hjoin
    obtain ⟨i, hi⟩ := mem_iff_getElem?.1 hentry
    obtain ⟨request, state⟩ := entry
    cases state with
    | waiting =>
      have henter := h (.enter index i) rfl
      simp [step, hdrain, hi] at henter
    | inFlight =>
      have hfinish := h (.finish index i) rfl
      simp [step, hdrain, hi] at hfinish
    | ended => rfl

/-- No task can go on exactly when all drains have returned. -/
theorem quiet_iff [DecidableEq γ] : Quiet s ↔ ∀ drain ∈ s.drains, drain.point = .returned := by
  constructor
  · intro h drain hdrain
    obtain ⟨i, hi⟩ := mem_iff_getElem?.1 hdrain
    have hi' : s.drains[i]? = some ⟨drain.key, drain.point⟩ := hi
    exact h.returned hi'
  · intro h a ha
    have hpoint (i : ℕ) (drain : Drain κ γ) (hi : s.drains[i]? = some drain) :
        drain.point = .returned := h drain (mem_of_getElem? hi)
    cases a with
    | enqueue key access gate => cases ha
    | closeGate gate => cases ha
    | lock drain | enter drain index | finish drain index | join drain =>
      rw [step]
      split
      · next hdrain => cases hpoint _ _ hdrain
      · rfl

/-- When no task can go on, every request that came in has ended. -/
theorem Inv.ended [DecidableEq γ] (h : Inv s) (hquiet : Quiet s)
    (hrequest : request ∈ enqueued s.log) : Ended request s.log := by
  have hserving : serving request.key s.drains = [] := by
    refine filter_eq_nil_iff.2 fun drain hdrain => ?_
    simp [Drain.serves, quiet_iff.1 hquiet drain hdrain, DrainPoint.live]
  have hserved := h.served request.key
  rw [hserving] at hserved
  have hlane := h.lane request.key
  unfold taken queued at hlane
  rw [hserving] at hlane
  cases hget : get? request.key s.inner with
  | some _ =>
    rw [hget] at hserved
    cases hserved
  | none =>
    rw [hget] at hlane
    obtain ⟨done, hsplit, hdone⟩ := hlane.split
    refine hdone request ?_
    have hmem : request ∈ ofKey request.key s.log :=
      mem_filter.2 ⟨hrequest, decide_eq_true rfl⟩
    rw [hsplit] at hmem
    simpa using hmem

/-- **Requests of a key run in order.** In any run, a request starts at most once, never behind a
closed gate, and only when all requests of its key that came before it and conflict with it have
ended. It starts when it takes the token of its gate. When no task can go on, no request is left. -/
theorem run_in_order [DecidableEq γ] {acts : List (QueueStep κ γ)}
    (hrun : Machine.run step {} acts = some s) :
    AllStartWell s.log ∧ (Quiet s → ∀ request ∈ enqueued s.log, Ended request s.log) := by
  have hinv : Inv s := Machine.run_invariant (fun _ _ _ h hstep => h.step hstep) Inv.initial hrun
  exact ⟨hinv.starts, fun hquiet _ hrequest => hinv.ended hquiet hrequest⟩

/-- A request that is in the queue when its gate is closed. -/
def closingRun : List (QueueStep ℕ ℕ) :=
  [.enqueue 0 .exclusive 0, .enqueue 0 .sharedRead 1, .lock 0, .enter 0 0, .closeGate 1,
    .finish 0 0, .join 0, .lock 0, .enter 0 0, .join 0, .lock 0]

theorem run_in_order_closing : ∃ s, Machine.run step {} closingRun = some s ∧ AllStartWell s.log ∧
    ∀ request ∈ enqueued s.log, Ended request s.log := by
  have hrun : Machine.run step {} closingRun = some ⟨[], [⟨0, .returned⟩], [1], 2, _⟩ := rfl
  obtain ⟨hstarts, hended⟩ := run_in_order hrun
  refine ⟨_, hrun, hstarts, hended (quiet_iff.2 fun drain hdrain => ?_)⟩
  rw [mem_singleton.1 hdrain]

end RequestSerializationQueues

end Codex.AppServer
