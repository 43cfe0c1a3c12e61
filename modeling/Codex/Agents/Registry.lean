import Codex.Agents.Residency
import Codex.Base.Table

/-!
# The registry of agents

`AgentRegistry` (`core/src/agent/registry.rs`): the agents of a session by their
paths, and an atomic count of the spawned ones. A spawn first takes a slot of the
count, then reserves a path in the tree, and is committed or dropped. The count is
not under the lock of the tree, so the release of a thread and the drop of a
reservation each are two steps here.
-/

namespace Codex.Agents

open Codex.Text

/-! ## Agent paths (`protocol/src/agent_path.rs`) -/

def validateAgentName (agentName : Str) : Except Str Unit :=
  if agentName = [] then .error "agent_name must not be empty".toList
  else if agentName = "root".toList then .error "agent_name `root` is reserved".toList
  else if agentName = ".".toList ∨ agentName = "..".toList then
    .error ("agent_name `".toList ++ agentName ++ "` is reserved".toList)
  else if '/' ∈ agentName then .error "agent_name must not contain `/`".toList
  else if agentName.all fun ch => ch.isLower || ch.isDigit || ch == '_' then .ok ()
  else .error "agent_name must use only lowercase letters, digits, and underscores".toList

def validateAbsolutePath (path : Str) : Except Str Unit :=
  if path = "/morpheus".toList then .ok ()
  else match path with
    | '/' :: stripped =>
      match stripped.splitOn '/' with
      | [] => .error "absolute agent path must not be empty".toList
      | root :: segments =>
        if root ≠ "root".toList then
          .error "absolute agent paths must start with `/root` or be `/morpheus`".toList
        else if stripped.getLast? = some '/' then
          .error "absolute agent path must not end with `/`".toList
        else segments.forM validateAgentName
    | _ => .error "absolute agent paths must start with `/root` or be `/morpheus`".toList

structure AgentPath where
  text : Str
  valid : validateAbsolutePath text = .ok ()

instance : DecidableEq AgentPath := fun p q =>
  decidable_of_iff (p.text = q.text) ⟨fun h => by cases p; cases q; cases h; rfl, congrArg _⟩

namespace AgentPath

def rootText : Str := "/root".toList

def root : AgentPath where
  text := rootText
  valid := by decide

def isRoot (path : AgentPath) : Bool := path.text = rootText

theorem ext_text {p q : AgentPath} (h : p.text = q.text) : p = q := by
  cases p
  cases q
  cases h
  rfl

theorem head_of_valid {text : Str} (h : validateAbsolutePath text = .ok ()) :
    text.head? = some '/' := by
  unfold validateAbsolutePath at h
  split at h
  · next hmorpheus =>
    rw [hmorpheus]
    rfl
  · split at h
    · rfl
    · cases h

theorem text_ne_threadKey (path : AgentPath) (threadId : ThreadId) :
    path.text ≠ "thread:".toList ++ Nat.toDigits 10 threadId := by
  intro h
  have hhead := head_of_valid path.valid
  rw [h] at hhead
  exact absurd hhead (by simp)

end AgentPath

/-! ## The registry -/

structure AgentMetadata where
  agentId : Option ThreadId := none
  agentPath : Option AgentPath := none
  agentNickname : Option Str := none
  agentRole : Option Str := none
  lastTaskMessage : Option Str := none
  deriving DecidableEq

/-- `agent_tree` and `used_agent_nicknames` are under one lock, `total_count` is an atomic. -/
structure AgentRegistry where
  agentTree : List (Str × AgentMetadata) := []
  usedAgentNicknames : List Str := []
  totalCount : ℕ := 0
  deriving DecidableEq

/-- `AtomicUsize::fetch_sub(1)` wraps around. -/
def fetchSub : ℕ → ℕ
  | 0 => 2 ^ 64 - 1
  | count + 1 => count

def threadKey (threadId : ThreadId) : Str := "thread:".toList ++ Nat.toDigits 10 threadId

namespace AgentMetadata

def isRoot (metadata : AgentMetadata) : Bool := metadata.agentPath.any AgentPath.isRoot

def isLive (metadata : AgentMetadata) : Bool := metadata.agentId.isSome && !metadata.isRoot

def key (metadata : AgentMetadata) (threadId : ThreadId) : Str :=
  match metadata.agentPath with
  | some agentPath => agentPath.text
  | none => threadKey threadId

end AgentMetadata

namespace AgentRegistry

/-- The loop of compare-and-exchange ends with the count at hand. -/
def tryIncrementSpawned (registry : AgentRegistry) (maxThreads : ℕ) : Option AgentRegistry :=
  if maxThreads ≤ registry.totalCount then none
  else some { registry with totalCount := registry.totalCount + 1 }

def liveAgents (registry : AgentRegistry) : List AgentMetadata :=
  (registry.agentTree.map Prod.snd).filter AgentMetadata.isLive

def registerRootThread (registry : AgentRegistry) (threadId : ThreadId) : AgentRegistry :=
  match Entries.get? AgentPath.rootText registry.agentTree with
  | some _ => registry
  | none =>
    { registry with
      agentTree := Entries.insert AgentPath.rootText
        { agentId := some threadId, agentPath := some AgentPath.root } registry.agentTree }

def registerSpawnedThread (registry : AgentRegistry) (metadata : AgentMetadata) : AgentRegistry :=
  match metadata.agentId with
  | none => registry
  | some threadId =>
    { registry with
      usedAgentNicknames :=
        metadata.agentNickname.elim registry.usedAgentNicknames registry.usedAgentNicknames.insert
      agentTree := Entries.insert (metadata.key threadId) metadata registry.agentTree }

/-- Nothing if the path is occupied. -/
def reserveAgentPath (registry : AgentRegistry) (agentPath : AgentPath) : Option AgentRegistry :=
  match Entries.get? agentPath.text registry.agentTree with
  | some _ => none
  | none =>
    some { registry with
      agentTree := Entries.insert agentPath.text { agentPath := some agentPath } registry.agentTree }

def releaseReservedAgentPath (registry : AgentRegistry) (agentPath : AgentPath) : AgentRegistry :=
  match Entries.get? agentPath.text registry.agentTree with
  | some metadata =>
    if metadata.agentId = none then
      { registry with agentTree := Entries.remove agentPath.text registry.agentTree }
    else registry
  | none => registry

/-- The entry of the thread that the map's iteration order comes to first is at this key. -/
def EntryOf (registry : AgentRegistry) (threadId : ThreadId) : Option Str → Prop
  | some key => ∃ metadata, Entries.get? key registry.agentTree = some metadata ∧
      metadata.agentId = some threadId
  | none => ∀ entry ∈ registry.agentTree, entry.2.agentId ≠ some threadId

instance (registry : AgentRegistry) (threadId : ThreadId) (key? : Option Str) :
    Decidable (registry.EntryOf threadId key?) :=
  match key? with
  | some key =>
    match h : Entries.get? key registry.agentTree with
    | some metadata => decidable_of_iff (metadata.agentId = some threadId)
        ⟨fun hid => ⟨metadata, h, hid⟩, fun ⟨_, hget, hid⟩ => Option.some_inj.1 (h.symm.trans hget) ▸ hid⟩
    | none => .isFalse fun ⟨_, hget, _⟩ => nomatch h.symm.trans hget
  | none => inferInstanceAs (Decidable (∀ entry ∈ registry.agentTree, _))

/-- The part of `release_spawned_thread` under the lock, and whether it removed a counted agent. -/
def removeThread (registry : AgentRegistry) : Option Str → AgentRegistry × Bool
  | none => (registry, false)
  | some key =>
    ({ registry with agentTree := Entries.remove key registry.agentTree },
      match Entries.get? key registry.agentTree with
      | some metadata => !metadata.isRoot
      | none => false)

end AgentRegistry

/-! ## Spawns, releases and drops -/

/-- A `SpawnReservation` that has been neither committed nor dropped. A drop that has released the
path and not yet counted down is still outstanding. -/
structure Reservation where
  reservedAgentPath : Option AgentPath := none
  dropping : Bool := false
  deriving DecidableEq

/-- The registry, the outstanding reservations, and the releases that have removed a counted agent
and not yet counted down. -/
structure Registries where
  registry : AgentRegistry := {}
  reservations : List (ℕ × Reservation) := []
  releasing : ℕ := 0
  deriving DecidableEq

/-- The steps of `AgentControl`; reservations are numbered. An operation that is refused is a step
that changes nothing. -/
inductive RegistryStep where
  | reserveSlot (reservation : ℕ)
  | refuseSlot
  | reservePath (reservation : ℕ) (agentPath : AgentPath)
  | refusePath (reservation : ℕ) (agentPath : AgentPath)
  | commit (reservation : ℕ) (threadId : ThreadId) (nickname role message : Option Str)
  /-- The first half of a drop, which releases the path. -/
  | beginDrop (reservation : ℕ)
  /-- The second half, which counts down. -/
  | endDrop (reservation : ℕ)
  /-- The part of `release_spawned_thread` under the lock. -/
  | release (threadId : ThreadId) (key? : Option Str)
  | endRelease
  | registerRoot (threadId : ThreadId)
  deriving DecidableEq

namespace Registries

def step (maxThreads : ℕ) (s : Registries) : RegistryStep → Option Registries
  | .reserveSlot rid =>
    if Entries.get? rid s.reservations = none then
      (s.registry.tryIncrementSpawned maxThreads).map fun registry =>
        { s with registry := registry, reservations := Entries.insert rid {} s.reservations }
    else none
  | .refuseSlot =>
    if s.registry.tryIncrementSpawned maxThreads = none then some s else none
  | .reservePath rid agentPath =>
    if Entries.get? rid s.reservations = some {} ∧ agentPath.isRoot = false then
      (s.registry.reserveAgentPath agentPath).map fun registry =>
        { s with
          registry := registry
          reservations := Entries.insert rid ⟨some agentPath, false⟩ s.reservations }
    else none
  | .refusePath rid agentPath =>
    if Entries.get? rid s.reservations = some {} ∧ s.registry.reserveAgentPath agentPath = none then
      some s
    else none
  | .commit rid threadId nickname role message =>
    match Entries.get? rid s.reservations with
    | some ⟨reservedAgentPath, false⟩ =>
      -- The thread id is fresh, and the path is the reserved one.
      if s.registry.EntryOf threadId none then
        some { s with
          registry := s.registry.registerSpawnedThread
            ⟨some threadId, reservedAgentPath, nickname, role, message⟩
          reservations := Entries.remove rid s.reservations }
      else none
    | _ => none
  | .beginDrop rid =>
    match Entries.get? rid s.reservations with
    | some ⟨some agentPath, false⟩ =>
      some { s with
        registry := s.registry.releaseReservedAgentPath agentPath
        reservations := Entries.insert rid ⟨none, true⟩ s.reservations }
    | some ⟨none, false⟩ =>
      some { s with reservations := Entries.insert rid ⟨none, true⟩ s.reservations }
    | _ => none
  | .endDrop rid =>
    match Entries.get? rid s.reservations with
    | some ⟨none, true⟩ =>
      some { s with
        registry := { s.registry with totalCount := fetchSub s.registry.totalCount }
        reservations := Entries.remove rid s.reservations }
    | _ => none
  | .release threadId key? =>
    if s.registry.EntryOf threadId key? then
      let (registry, removedCountedAgent) := s.registry.removeThread key?
      some { s with
        registry := registry
        releasing := if removedCountedAgent then s.releasing + 1 else s.releasing }
    else none
  | .endRelease =>
    if 0 < s.releasing then
      some { s with
        registry := { s.registry with totalCount := fetchSub s.registry.totalCount }
        releasing := s.releasing - 1 }
    else none
  | .registerRoot threadId => some { s with registry := s.registry.registerRootThread threadId }

end Registries

end Codex.Agents
