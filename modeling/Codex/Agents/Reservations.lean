import Codex.Agents.Registry

/-!
# Reservations of the registry

What every run of spawns, releases and drops keeps: the count is that of the live
agents, the outstanding reservations and the releases that have not counted down
yet; no path is held twice; and a reservation that is dropped leaves no trace
(`registry_counts_and_forgets`).
-/

namespace Codex.Agents

open List Codex.Text Entries

/-! ## Live agents of a tree -/

variable {tree : List (Str × AgentMetadata)} {key : Str} {metadata : AgentMetadata}
  {maxThreads : ℕ} {s t u : Registries}

def liveCount (tree : List (Str × AgentMetadata)) : ℕ := tree.countP fun entry => entry.2.isLive

theorem length_liveAgents (registry : AgentRegistry) :
    registry.liveAgents.length = liveCount registry.agentTree := by
  unfold AgentRegistry.liveAgents liveCount
  rw [← countP_eq_length_filter, countP_map]
  rfl

theorem liveCount_insert (hkeys : (tree.map Prod.fst).Nodup) :
    liveCount (Entries.insert key metadata tree) =
      liveCount (Entries.remove key tree) + if metadata.isLive then 1 else 0 := by
  unfold liveCount
  rw [(perm_insert hkeys).countP_eq, countP_cons]

theorem liveCount_of_get? (hkeys : (tree.map Prod.fst).Nodup)
    (h : get? key tree = some metadata) :
    liveCount tree = liveCount (Entries.remove key tree) + if metadata.isLive then 1 else 0 := by
  unfold liveCount
  rw [(perm_of_get? hkeys h).countP_eq, countP_cons]

theorem threadKey_injective : Function.Injective threadKey := by
  intro a b h
  have hdigits := append_cancel_left h
  have ha := @Nat.ofDigitChars_ten_toDigits a
  rw [hdigits, Nat.ofDigitChars_ten_toDigits] at ha
  exact ha.symm

/-! ## What every run keeps -/

/-- An entry is at its path, or at its thread if it has none. -/
def Filed (key : Str) (metadata : AgentMetadata) : Prop :=
  (∃ path, metadata.agentPath = some path ∧ key = path.text) ∨
    (metadata.agentPath = none ∧ ∃ threadId, metadata.agentId = some threadId ∧
      key = threadKey threadId)

def reservedEntry (path : AgentPath) : AgentMetadata := { agentPath := some path }

theorem reservedEntry_not_live (path : AgentPath) : (reservedEntry path).isLive = false := rfl

structure Registries.Sound (maxThreads : ℕ) (s : Registries) : Prop where
  keys : (s.registry.agentTree.map Prod.fst).Nodup
  ids : (s.reservations.map Prod.fst).Nodup
  filed : ∀ key metadata, get? key s.registry.agentTree = some metadata → Filed key metadata
  reserved : ∀ rid path dropping, get? rid s.reservations = some ⟨some path, dropping⟩ →
    path.isRoot = false ∧ get? path.text s.registry.agentTree = some (reservedEntry path)
  distinct : ∀ rid rid' path dropping dropping',
    get? rid s.reservations = some ⟨some path, dropping⟩ →
    get? rid' s.reservations = some ⟨some path, dropping'⟩ → rid = rid'
  counted : s.registry.totalCount =
    liveCount s.registry.agentTree + s.reservations.length + s.releasing
  bounded : s.registry.totalCount ≤ maxThreads

theorem Registries.sound_start : ({} : Registries).Sound maxThreads where
  keys := nodup_nil
  ids := nodup_nil
  filed := nofun
  reserved := nofun
  distinct := nofun
  counted := rfl
  bounded := Nat.zero_le _

section Step

variable {rid : ℕ} {path : AgentPath} {threadId : ThreadId}

theorem Registries.Sound.reserveSlot (h : s.Sound maxThreads)
    (hstep : s.step maxThreads (.reserveSlot rid) = some t) : t.Sound maxThreads := by
  simp only [Registries.step, AgentRegistry.tryIncrementSpawned] at hstep
  split at hstep
  · next hfresh =>
    split at hstep
    · cases hstep
    · next hroom =>
      cases hstep
      have hothers : ∀ {rid' path dropping},
          get? rid' (Entries.insert rid {} s.reservations) = some ⟨some path, dropping⟩ →
          get? rid' s.reservations = some ⟨some path, dropping⟩ := by
        intro rid' path dropping hget
        obtain ⟨-, hnew⟩ | ⟨-, hget⟩ := get?_insert_eq_some.1 hget
        · cases hnew
        · exact hget
      refine ⟨h.keys, keys_insert_nodup h.ids, h.filed, ?_, ?_, ?_, Nat.not_le.1 hroom⟩
      · exact fun rid' path dropping hget => h.reserved rid' path dropping (hothers hget)
      · exact fun a b path da db ha hb => h.distinct a b path da db (hothers ha) (hothers hb)
      · have hcounted := h.counted
        show s.registry.totalCount + 1 = liveCount s.registry.agentTree +
          (Entries.insert rid {} s.reservations).length + s.releasing
        rw [length_insert_of_none hfresh]
        omega
  · cases hstep

/-- A path that is reserved was vacant, so no other reservation has it. -/
theorem Registries.Sound.reservePath (h : s.Sound maxThreads)
    (hstep : s.step maxThreads (.reservePath rid path) = some t) : t.Sound maxThreads := by
  simp only [Registries.step, AgentRegistry.reserveAgentPath] at hstep
  split at hstep
  · next hnew =>
    obtain ⟨hrid, hroot⟩ := hnew
    split at hstep
    · cases hstep
    · next hvacant =>
      cases hstep
      have hother : ∀ rid' path' dropping,
          get? rid' s.reservations = some ⟨some path', dropping⟩ → path' ≠ path := by
        intro rid' path' dropping hget heq
        have hentry := (h.reserved rid' path' dropping hget).2
        rw [heq, hvacant] at hentry
        cases hentry
      refine ⟨keys_insert_nodup h.keys, keys_insert_nodup h.ids, ?_, ?_, ?_, ?_,
        h.bounded⟩
      · intro key metadata hget
        obtain ⟨rfl, rfl⟩ | ⟨-, hget⟩ := get?_insert_eq_some.1 hget
        · exact .inl ⟨path, rfl, rfl⟩
        · exact h.filed key metadata hget
      · intro rid' path' dropping hget
        obtain ⟨-, hsame⟩ | ⟨-, hget⟩ := get?_insert_eq_some.1 hget
        · cases hsame
          refine ⟨hroot, ?_⟩
          rw [get?_insert, if_pos rfl]
          rfl
        · have hne := hother rid' path' dropping hget
          obtain ⟨hroot', hentry⟩ := h.reserved rid' path' dropping hget
          refine ⟨hroot', ?_⟩
          rw [get?_insert, if_neg fun htext => hne (AgentPath.ext_text htext)]
          exact hentry
      · intro a b path' da db ha hb
        obtain ⟨hida, hsame⟩ | ⟨-, ha⟩ := get?_insert_eq_some.1 ha <;>
          obtain ⟨hidb, hsame'⟩ | ⟨-, hb⟩ := get?_insert_eq_some.1 hb
        · rw [hida, hidb]
        · cases hsame
          exact absurd rfl (hother b path db hb)
        · cases hsame'
          exact absurd rfl (hother a path da ha)
        · exact h.distinct a b path' da db ha hb
      · have hcounted := h.counted
        show s.registry.totalCount =
          liveCount (Entries.insert path.text (reservedEntry path) s.registry.agentTree) +
          (Entries.insert rid ⟨some path, false⟩ s.reservations).length + s.releasing
        rw [length_insert_of_some h.ids hrid, liveCount_insert h.keys,
          remove_eq_of_none hvacant, reservedEntry_not_live]
        exact hcounted
  · cases hstep

/-- No two reservations hold one path. -/
theorem Registries.Sound.text_ne (h : s.Sound maxThreads) {rid' : ℕ} {path' : AgentPath}
    {dropping dropping' : Bool} (hne : rid' ≠ rid)
    (hrid' : get? rid' s.reservations = some ⟨some path', dropping'⟩)
    (hrid : get? rid s.reservations = some ⟨some path, dropping⟩) : path'.text ≠ path.text := by
  intro htext
  rw [AgentPath.ext_text htext] at hrid'
  exact hne (h.distinct rid' rid path dropping' dropping hrid' hrid)

/-- The entry of a commit is new to its key, or takes the place of the reserved one. -/
theorem Registries.Sound.commit (h : s.Sound maxThreads) {nickname role message : Option Str}
    (hstep : s.step maxThreads (.commit rid threadId nickname role message) = some t) :
    t.Sound maxThreads := by
  simp only [Registries.step] at hstep
  split at hstep
  · next reservedAgentPath hrid =>
    split at hstep
    · next hfresh =>
      cases hstep
      have hlength := length_remove_of_some h.ids hrid
      have hcounted := h.counted
      set metadata : AgentMetadata := ⟨some threadId, reservedAgentPath, nickname, role, message⟩
      have hfiled : Filed (metadata.key threadId) metadata := by
        cases reservedAgentPath with
        | none => exact .inr ⟨rfl, threadId, rfl, rfl⟩
        | some path => exact .inl ⟨path, rfl, rfl⟩
      have hlive : liveCount (Entries.insert (metadata.key threadId) metadata s.registry.agentTree) =
          liveCount s.registry.agentTree + 1 := by
        rw [liveCount_insert h.keys]
        cases reservedAgentPath with
        | none =>
          have hnone : get? (threadKey threadId) s.registry.agentTree = none := by
            rcases Option.eq_none_or_eq_some (get? (threadKey threadId) s.registry.agentTree)
              with hnone | ⟨old, hold⟩
            · exact hnone
            · rcases h.filed _ old hold with ⟨path, -, hkey⟩ | ⟨-, threadId', hid, hkey⟩
              · exact absurd hkey.symm (path.text_ne_threadKey threadId)
              · rw [← threadKey_injective hkey] at hid
                exact absurd hid (hfresh _ (mem_of_get? hold))
          show liveCount (Entries.remove (threadKey threadId) s.registry.agentTree) + 1 = _
          rw [remove_eq_of_none hnone]
        | some path =>
          obtain ⟨hroot, hentry⟩ := h.reserved rid path false hrid
          have hold := liveCount_of_get? h.keys hentry
          rw [reservedEntry_not_live] at hold
          have hisLive : metadata.isLive = true := by
            simp [metadata, AgentMetadata.isLive, AgentMetadata.isRoot, hroot]
          rw [hisLive, hold]
          rfl
      refine ⟨keys_insert_nodup h.keys, keys_remove_nodup h.ids, ?_, ?_, ?_, ?_,
        h.bounded⟩
      · intro key old hget
        obtain ⟨rfl, rfl⟩ | ⟨-, hget⟩ := get?_insert_eq_some.1 hget
        · exact hfiled
        · exact h.filed key old hget
      · intro rid' path' dropping hget
        obtain ⟨hne, hget'⟩ := get?_remove_eq_some.1 hget
        obtain ⟨hroot', hentry⟩ := h.reserved rid' path' dropping hget'
        refine ⟨hroot', ?_⟩
        have hkey : path'.text ≠ metadata.key threadId := by
          cases reservedAgentPath with
          | none => exact path'.text_ne_threadKey threadId
          | some path => exact h.text_ne hne hget' hrid
        show get? path'.text (Entries.insert _ _ _) = _
        rw [get?_insert, if_neg hkey]
        exact hentry
      · intro a b path' da db ha hb
        exact h.distinct a b path' da db (get?_remove_eq_some.1 ha).2 (get?_remove_eq_some.1 hb).2
      · show s.registry.totalCount = liveCount (Entries.insert _ _ _) +
          (Entries.remove rid s.reservations).length + s.releasing
        rw [hlive]
        omega
    · cases hstep
  · cases hstep

/-- Until a reservation is dropped, the entry at its path is the reserved one. -/
theorem Registries.Sound.releaseReservedAgentPath (h : s.Sound maxThreads) {dropping : Bool}
    (hrid : get? rid s.reservations = some ⟨some path, dropping⟩) :
    s.registry.releaseReservedAgentPath path =
      { s.registry with agentTree := Entries.remove path.text s.registry.agentTree } := by
  unfold AgentRegistry.releaseReservedAgentPath
  rw [(h.reserved rid path dropping hrid).2]
  rfl

theorem Registries.Sound.beginDrop (h : s.Sound maxThreads)
    (hstep : s.step maxThreads (.beginDrop rid) = some t) : t.Sound maxThreads := by
  have hothers : ∀ rid' path' dropping,
      get? rid' (Entries.insert rid ⟨none, true⟩ s.reservations) =
        some ⟨some path', dropping⟩ →
      rid' ≠ rid ∧ get? rid' s.reservations = some ⟨some path', dropping⟩ := by
    intro rid' path' dropping hget
    obtain ⟨-, hsame⟩ | hother := get?_insert_eq_some.1 hget
    · cases hsame
    · exact hother
  have hdistinct : ∀ a b path' da db,
      get? a (Entries.insert rid ⟨none, true⟩ s.reservations) = some ⟨some path', da⟩ →
      get? b (Entries.insert rid ⟨none, true⟩ s.reservations) = some ⟨some path', db⟩ →
      a = b := fun a b path' da db ha hb =>
    h.distinct a b path' da db (hothers a path' da ha).2 (hothers b path' db hb).2
  have hcounted := h.counted
  simp only [Registries.step] at hstep
  split at hstep
  · next path hrid =>
    rw [h.releaseReservedAgentPath hrid] at hstep
    cases hstep
    obtain ⟨-, hentry⟩ := h.reserved rid path false hrid
    refine ⟨keys_remove_nodup h.keys, keys_insert_nodup h.ids, ?_, ?_, hdistinct, ?_,
      h.bounded⟩
    · exact fun key metadata hget => h.filed key metadata (get?_remove_eq_some.1 hget).2
    · intro rid' path' dropping hget
      obtain ⟨hne, hget'⟩ := hothers rid' path' dropping hget
      obtain ⟨hroot', hentry'⟩ := h.reserved rid' path' dropping hget'
      refine ⟨hroot', ?_⟩
      have hkey : path'.text ≠ path.text := h.text_ne hne hget' hrid
      rw [get?_remove, if_neg hkey]
      exact hentry'
    · have hold := liveCount_of_get? h.keys hentry
      rw [reservedEntry_not_live] at hold
      show s.registry.totalCount = liveCount (Entries.remove path.text s.registry.agentTree) +
        (Entries.insert rid ⟨none, true⟩ s.reservations).length + s.releasing
      rw [length_insert_of_some h.ids hrid]
      simp only [Bool.false_eq_true, if_false] at hold
      omega
  · next hrid =>
    cases hstep
    refine ⟨h.keys, keys_insert_nodup h.ids, h.filed, ?_, hdistinct, ?_, h.bounded⟩
    · intro rid' path' dropping hget
      exact h.reserved rid' path' dropping (hothers rid' path' dropping hget).2
    · show s.registry.totalCount = liveCount s.registry.agentTree +
        (Entries.insert rid ⟨none, true⟩ s.reservations).length + s.releasing
      rw [length_insert_of_some h.ids hrid]
      exact hcounted
  · cases hstep

theorem fetchSub_of_pos {count : ℕ} (h : 0 < count) : fetchSub count = count - 1 := by
  cases count with
  | zero => omega
  | succ count => rfl

theorem Registries.Sound.endDrop (h : s.Sound maxThreads)
    (hstep : s.step maxThreads (.endDrop rid) = some t) : t.Sound maxThreads := by
  simp only [Registries.step] at hstep
  split at hstep
  · next hrid =>
    cases hstep
    have hlength := length_remove_of_some h.ids hrid
    have hcounted := h.counted
    have hbounded := h.bounded
    have hsub : fetchSub s.registry.totalCount = s.registry.totalCount - 1 :=
      fetchSub_of_pos (by omega)
    refine ⟨h.keys, keys_remove_nodup h.ids, h.filed, ?_, ?_, ?_, ?_⟩
    · exact fun rid' path dropping hget =>
        h.reserved rid' path dropping (get?_remove_eq_some.1 hget).2
    · exact fun a b path da db ha hb =>
        h.distinct a b path da db (get?_remove_eq_some.1 ha).2 (get?_remove_eq_some.1 hb).2
    · show fetchSub s.registry.totalCount = liveCount s.registry.agentTree +
        (Entries.remove rid s.reservations).length + s.releasing
      omega
    · show fetchSub s.registry.totalCount ≤ maxThreads
      omega
  · cases hstep

/-- A thread that is released is not a reservation's. -/
theorem Registries.Sound.release (h : s.Sound maxThreads) {key? : Option Str}
    (hstep : s.step maxThreads (.release threadId key?) = some t) : t.Sound maxThreads := by
  simp only [Registries.step] at hstep
  split at hstep
  · next hentryOf =>
    cases key? with
    | none =>
      cases hstep
      exact h
    | some key =>
      obtain ⟨metadata, hget, hid⟩ := hentryOf
      simp only [AgentRegistry.removeThread, hget] at hstep
      cases hstep
      have hcounted := h.counted
      have hlive := liveCount_of_get? h.keys hget
      have hisLive : metadata.isLive = !metadata.isRoot := by
        simp [AgentMetadata.isLive, hid]
      refine ⟨keys_remove_nodup h.keys, h.ids, ?_, ?_, h.distinct, ?_, h.bounded⟩
      · exact fun key' metadata' hget' => h.filed key' metadata' (get?_remove_eq_some.1 hget').2
      · intro rid path dropping hrid
        obtain ⟨hroot, hentry⟩ := h.reserved rid path dropping hrid
        refine ⟨hroot, ?_⟩
        have hkey : path.text ≠ key := by
          intro htext
          rw [htext, hget] at hentry
          cases hentry
          cases hid
        rw [get?_remove, if_neg hkey]
        exact hentry
      · show s.registry.totalCount = liveCount (Entries.remove key s.registry.agentTree) +
          s.reservations.length + if !metadata.isRoot then s.releasing + 1 else s.releasing
        rw [hisLive] at hlive
        cases hroot : metadata.isRoot with
        | false =>
          simp only [hroot, Bool.not_false, if_true] at hlive ⊢
          omega
        | true =>
          simp only [hroot, Bool.not_true, Bool.false_eq_true, if_false] at hlive ⊢
          omega
  · cases hstep

theorem Registries.Sound.endRelease (h : s.Sound maxThreads)
    (hstep : s.step maxThreads .endRelease = some t) : t.Sound maxThreads := by
  simp only [Registries.step] at hstep
  split at hstep
  · next hreleasing =>
    cases hstep
    have hcounted := h.counted
    have hbounded := h.bounded
    have hsub : fetchSub s.registry.totalCount = s.registry.totalCount - 1 :=
      fetchSub_of_pos (by omega)
    refine ⟨h.keys, h.ids, h.filed, h.reserved, h.distinct, ?_, ?_⟩
    · show fetchSub s.registry.totalCount = liveCount s.registry.agentTree +
        s.reservations.length + (s.releasing - 1)
      omega
    · show fetchSub s.registry.totalCount ≤ maxThreads
      omega
  · cases hstep

theorem Registries.Sound.registerRoot (h : s.Sound maxThreads)
    (hstep : s.step maxThreads (.registerRoot threadId) = some t) : t.Sound maxThreads := by
  simp only [Registries.step, AgentRegistry.registerRootThread] at hstep
  split at hstep
  · cases hstep
    exact h
  · next hvacant =>
    cases hstep
    refine ⟨keys_insert_nodup h.keys, h.ids, ?_, ?_, h.distinct, ?_, h.bounded⟩
    · intro key metadata hget
      obtain ⟨rfl, rfl⟩ | ⟨-, hget⟩ := get?_insert_eq_some.1 hget
      · exact .inl ⟨AgentPath.root, rfl, rfl⟩
      · exact h.filed key metadata hget
    · intro rid path dropping hrid
      obtain ⟨hroot, hentry⟩ := h.reserved rid path dropping hrid
      refine ⟨hroot, ?_⟩
      have hkey : path.text ≠ AgentPath.rootText := of_decide_eq_false hroot
      rw [get?_insert, if_neg hkey]
      exact hentry
    · show s.registry.totalCount = liveCount (Entries.insert _ _ _) + _ + _
      rw [liveCount_insert h.keys, remove_eq_of_none hvacant]
      exact h.counted

theorem Registries.Sound.step (h : s.Sound maxThreads) {a : RegistryStep}
    (hstep : s.step maxThreads a = some t) : t.Sound maxThreads := by
  cases a with
  | reserveSlot rid => exact h.reserveSlot hstep
  | refuseSlot | refusePath rid path =>
    simp only [Registries.step] at hstep
    split at hstep
    · cases hstep
      exact h
    · cases hstep
  | reservePath rid path => exact h.reservePath hstep
  | commit rid threadId nickname role message => exact h.commit hstep
  | beginDrop rid => exact h.beginDrop hstep
  | endDrop rid => exact h.endDrop hstep
  | release threadId key? => exact h.release hstep
  | endRelease => exact h.endRelease hstep
  | registerRoot threadId => exact h.registerRoot hstep

end Step

/-! ## A run without one of its reservations -/

/-- The tree without what is reserved at the path. -/
def treeWithout (path? : Option AgentPath) (tree : List (Str × AgentMetadata)) :
    List (Str × AgentMetadata) :=
  match path? with
  | some path => Entries.remove path.text tree
  | none => tree

section TreeWithout

variable {path? : Option AgentPath}

theorem get?_treeWithout (h : ∀ path, path? = some path → path.text ≠ key) :
    get? key (treeWithout path? tree) = get? key tree := by
  cases path? with
  | none => rfl
  | some path =>
    show get? key (Entries.remove path.text tree) = _
    rw [get?_remove, if_neg (Ne.symm (h path rfl))]

theorem get?_treeWithout_none (h : get? key tree = none) :
    get? key (treeWithout path? tree) = none := by
  cases path? with
  | none => exact h
  | some path =>
    show get? key (Entries.remove path.text tree) = _
    rw [get?_remove, h, ite_self]

theorem treeWithout_insert (h : ∀ path, path? = some path → path.text ≠ key) :
    treeWithout path? (Entries.insert key metadata tree) =
      Entries.insert key metadata (treeWithout path? tree) := by
  cases path? with
  | none => rfl
  | some path => exact remove_insert_of_ne (h path rfl)

theorem treeWithout_remove :
    treeWithout path? (Entries.remove key tree) = Entries.remove key (treeWithout path? tree) := by
  cases path? with
  | none => rfl
  | some path => exact remove_remove

theorem mem_treeWithout {entry : Str × AgentMetadata} (h : entry ∈ treeWithout path? tree) :
    entry ∈ tree := by
  cases path? with
  | none => exact h
  | some path => exact mem_remove h

end TreeWithout

namespace Registries

def heldPath (rid : ℕ) (s : Registries) : Option AgentPath :=
  (get? rid s.reservations).bind Reservation.reservedAgentPath

def countWithout (rid : ℕ) (s : Registries) : ℕ :=
  if (get? rid s.reservations).isSome then s.registry.totalCount - 1
  else s.registry.totalCount

/-- The state as it would be if the reservation were not there. -/
def without (rid : ℕ) (s : Registries) : Registries where
  registry :=
    { agentTree := treeWithout (s.heldPath rid) s.registry.agentTree
      usedAgentNicknames := s.registry.usedAgentNicknames
      totalCount := s.countWithout rid }
  reservations := Entries.remove rid s.reservations
  releasing := s.releasing

theorem without_of_none {rid : ℕ} (h : get? rid s.reservations = none) :
    s.without rid = s := by
  obtain ⟨⟨tree, nicknames, count⟩, reservations, releasing⟩ := s
  unfold without heldPath countWithout
  simp only at h
  simp only [h, remove_eq_of_none h]
  rfl

end Registries

/-- The steps of other reservations and threads that were not refused. -/
def keptWithout (rid : ℕ) : RegistryStep → Bool
  | .reserveSlot rid' | .reservePath rid' _ | .commit rid' _ _ _ _ | .beginDrop rid' | .endDrop rid' =>
    rid' ≠ rid
  | .refuseSlot | .refusePath _ _ => false
  | .release _ _ | .endRelease | .registerRoot _ => true

def commits (rid : ℕ) : RegistryStep → Bool
  | .commit rid' _ _ _ _ => rid' = rid
  | _ => false

section Without

variable {rid : ℕ} {a : RegistryStep}

/-- What a reservation does before it is committed shows only as itself. -/
theorem Registries.Sound.step_of_not_kept (h : s.Sound maxThreads)
    (hkept : keptWithout rid a = false) (hcommit : commits rid a = false)
    (hstep : s.step maxThreads a = some t) : t.without rid = s.without rid := by
  cases a with
  | reserveSlot rid' =>
    obtain rfl : rid' = rid := by simpa [keptWithout] using hkept
    simp only [Registries.step, AgentRegistry.tryIncrementSpawned] at hstep
    split at hstep
    · next hfresh =>
      split at hstep
      · cases hstep
      · cases hstep
        simp [without, heldPath, countWithout, hfresh,
          remove_insert, treeWithout]
    · cases hstep
  | reservePath rid' path =>
    obtain rfl : rid' = rid := by simpa [keptWithout] using hkept
    simp only [Registries.step, AgentRegistry.reserveAgentPath] at hstep
    split at hstep
    · next hnew =>
      split at hstep
      · cases hstep
      · next hvacant =>
        cases hstep
        simp [without, heldPath, countWithout, hnew.1,
          remove_insert, treeWithout, remove_eq_of_none hvacant]
    · cases hstep
  | commit rid' threadId nickname role message =>
    simp [keptWithout, commits] at hkept hcommit
    exact absurd hkept hcommit
  | beginDrop rid' =>
    obtain rfl : rid' = rid := by simpa [keptWithout] using hkept
    simp only [Registries.step] at hstep
    split at hstep
    · next path hrid =>
      rw [h.releaseReservedAgentPath hrid] at hstep
      cases hstep
      simp [without, heldPath, countWithout, hrid,
        remove_insert, treeWithout]
    · next hrid =>
      cases hstep
      simp [without, heldPath, countWithout, hrid,
        remove_insert, treeWithout]
    · cases hstep
  | endDrop rid' =>
    obtain rfl : rid' = rid := by simpa [keptWithout] using hkept
    simp only [Registries.step] at hstep
    split at hstep
    · next hrid =>
      cases hstep
      have hlength := length_remove_of_some h.ids hrid
      have hcounted := h.counted
      have hsub : fetchSub s.registry.totalCount = s.registry.totalCount - 1 :=
        fetchSub_of_pos (by omega)
      have hgone : get? rid' (Entries.remove rid' s.reservations) = none := by simp
      simp [without, heldPath, countWithout, hrid, hsub,
        remove_eq_of_none hgone, treeWithout]
    · cases hstep
  | refuseSlot | refusePath rid' path =>
    simp only [Registries.step] at hstep
    split at hstep
    · cases hstep
      rfl
    · cases hstep
  | release threadId key? | endRelease | registerRoot threadId => cases hkept

theorem Registries.Sound.held (h : s.Sound maxThreads) {path : AgentPath}
    (hpath : s.heldPath rid = some path) :
    (∃ dropping, get? rid s.reservations = some ⟨some path, dropping⟩) ∧
      path.isRoot = false ∧
      get? path.text s.registry.agentTree = some (reservedEntry path) := by
  obtain ⟨⟨path?, dropping⟩, hget, hreserved⟩ := Option.bind_eq_some_iff.1 hpath
  simp only at hreserved
  rw [hreserved] at hget
  exact ⟨⟨dropping, hget⟩, h.reserved rid path dropping hget⟩

/-- While a reservation is outstanding it is counted. -/
theorem Registries.Sound.countWithout_add (h : s.Sound maxThreads) :
    s.countWithout rid + (if (get? rid s.reservations).isSome then 1 else 0) =
      s.registry.totalCount := by
  unfold countWithout
  split
  · next hsome =>
    obtain ⟨r, hr⟩ := Option.isSome_iff_exists.1 hsome
    have hlength := length_remove_of_some h.ids hr
    have hcounted := h.counted
    omega
  · rfl

theorem Registries.without_eq (hrid : get? rid t.reservations = get? rid s.reservations) :
    t.without rid =
      { registry :=
          { agentTree := treeWithout (s.heldPath rid) t.registry.agentTree
            usedAgentNicknames := t.registry.usedAgentNicknames
            totalCount :=
              if (get? rid s.reservations).isSome then t.registry.totalCount - 1
              else t.registry.totalCount }
        reservations := Entries.remove rid t.reservations
        releasing := t.releasing } := by
  unfold without heldPath countWithout
  rw [hrid]

theorem Registries.Sound.countWithout_eq (h : s.Sound maxThreads) : s.countWithout rid =
    liveCount s.registry.agentTree + (Entries.remove rid s.reservations).length + s.releasing := by
  have hcounted := h.counted
  unfold countWithout
  split
  · next hsome =>
    obtain ⟨r, hr⟩ := Option.isSome_iff_exists.1 hsome
    have hlength := length_remove_of_some h.ids hr
    omega
  · next hnone =>
    rw [remove_eq_of_none (Option.not_isSome_iff_eq_none.1 hnone)]
    exact hcounted

theorem Registries.Sound.countWithout_succ (h : s.Sound maxThreads) : s.countWithout rid + 1 =
    if (get? rid s.reservations).isSome then s.registry.totalCount + 1 - 1
    else s.registry.totalCount + 1 := by
  have hcount : s.countWithout rid + (if (get? rid s.reservations).isSome then 1 else 0) =
      s.registry.totalCount := h.countWithout_add
  split
  · next hsome =>
    rw [if_pos hsome] at hcount
    omega
  · next hnone =>
    rw [if_neg hnone] at hcount
    omega

theorem Registries.Sound.fetchSub_countWithout (h : s.Sound maxThreads)
    (hpos : 0 < s.countWithout rid) :
    fetchSub (s.countWithout rid) =
      if (get? rid s.reservations).isSome then fetchSub s.registry.totalCount - 1
      else fetchSub s.registry.totalCount := by
  have hcount : s.countWithout rid + (if (get? rid s.reservations).isSome then 1 else 0) =
      s.registry.totalCount := h.countWithout_add
  have htotal : fetchSub s.registry.totalCount = s.registry.totalCount - 1 :=
    fetchSub_of_pos (by omega)
  rw [fetchSub_of_pos hpos, htotal]
  split
  · next hsome =>
    rw [if_pos hsome] at hcount
    omega
  · next hnone =>
    rw [if_neg hnone] at hcount
    omega

/-- The steps of the others are enabled without the reservation, and do the same. -/
theorem Registries.Sound.step_of_kept (h : s.Sound maxThreads) (hkept : keptWithout rid a = true)
    (hstep : s.step maxThreads a = some t) :
    (s.without rid).step maxThreads a = some (t.without rid) := by
  have hcount : s.countWithout rid + (if (get? rid s.reservations).isSome then 1 else 0) =
      s.registry.totalCount := h.countWithout_add
  have hget : ∀ rid', rid' ≠ rid →
      get? rid' (s.without rid).reservations = get? rid' s.reservations := by
    intro rid' hne
    show get? rid' (Entries.remove rid s.reservations) = _
    rw [get?_remove, if_neg hne]
  cases a with
  | reserveSlot rid' =>
    have hne : rid' ≠ rid := of_decide_eq_true hkept
    simp only [Registries.step, AgentRegistry.tryIncrementSpawned] at hstep
    split at hstep
    · next hfresh =>
      split at hstep
      · cases hstep
      · next hroom =>
        have ht := Option.some.inj hstep
        have hsame : get? rid t.reservations = get? rid s.reservations := by
          rw [← ht, get?_insert, if_neg hne.symm]
        have hroom' : ¬ maxThreads ≤ (s.without rid).registry.totalCount := by
          show ¬ maxThreads ≤ s.countWithout rid
          omega
        have hplus : s.countWithout rid + 1 = _ := h.countWithout_succ
        rw [Registries.step, hget rid' hne, if_pos hfresh, AgentRegistry.tryIncrementSpawned,
          if_neg hroom', without_eq hsame, ← ht]
        simp only [Option.map_some, without, remove_insert_of_ne hne.symm, hplus]
    · cases hstep
  | refuseSlot => cases hkept
  | reservePath rid' path =>
    have hne : rid' ≠ rid := of_decide_eq_true hkept
    simp only [Registries.step, AgentRegistry.reserveAgentPath] at hstep
    split at hstep
    · next hnew =>
      split at hstep
      · cases hstep
      · next hvacant =>
        have ht := Option.some.inj hstep
        have hsame : get? rid t.reservations = get? rid s.reservations := by
          rw [← ht, get?_insert, if_neg hne.symm]
        have hvacant' : get? path.text (s.without rid).registry.agentTree = none :=
          get?_treeWithout_none hvacant
        have hother : ∀ path', s.heldPath rid = some path' → path'.text ≠ path.text := by
          intro path' hpath htext
          have hentry := (h.held hpath).2.2
          rw [htext, hvacant] at hentry
          cases hentry
        rw [Registries.step, hget rid' hne, if_pos hnew, AgentRegistry.reserveAgentPath, hvacant',
          without_eq hsame, ← ht]
        simp only [Option.map_some, without, countWithout,
          remove_insert_of_ne hne.symm, treeWithout_insert hother]
    · cases hstep
  | refusePath rid' path => cases hkept
  | commit rid' threadId nickname role message =>
    have hne : rid' ≠ rid := of_decide_eq_true hkept
    simp only [Registries.step] at hstep
    split at hstep
    · next path? hrid =>
      split at hstep
      · next hfresh =>
        have ht := Option.some.inj hstep
        have hsame : get? rid t.reservations = get? rid s.reservations := by
          rw [← ht, get?_remove, if_neg hne.symm]
        have hfresh' : (s.without rid).registry.EntryOf threadId none :=
          fun entry hentry => hfresh entry (mem_treeWithout hentry)
        have hother : ∀ path, s.heldPath rid = some path → path.text ≠
            AgentMetadata.key ⟨some threadId, path?, nickname, role, message⟩ threadId := by
          intro path hpath
          cases path? with
          | none => exact path.text_ne_threadKey threadId
          | some path' =>
            obtain ⟨⟨dropping, hheld⟩, -⟩ := h.held hpath
            exact h.text_ne hne.symm hheld hrid
        rw [Registries.step, hget rid' hne, hrid, without_eq hsame, ← ht]
        simp only [if_pos hfresh']
        simp only [without, countWithout,
          AgentRegistry.registerSpawnedThread, treeWithout_insert hother]
        rw [remove_remove]
      · cases hstep
    · cases hstep
  | beginDrop rid' =>
    have hne : rid' ≠ rid := of_decide_eq_true hkept
    simp only [Registries.step] at hstep
    split at hstep
    · next path hrid =>
      rw [h.releaseReservedAgentPath hrid] at hstep
      have ht := Option.some.inj hstep
      have hsame : get? rid t.reservations = get? rid s.reservations := by
        rw [← ht, get?_insert, if_neg hne.symm]
      have hother : ∀ path', s.heldPath rid = some path' → path'.text ≠ path.text := by
        intro path' hpath
        obtain ⟨⟨dropping, hheld⟩, -⟩ := h.held hpath
        exact h.text_ne hne.symm hheld hrid
      have hentry : get? path.text (s.without rid).registry.agentTree =
          some (reservedEntry path) := by
        show get? path.text (treeWithout _ _) = _
        rw [get?_treeWithout hother, (h.reserved rid' path false hrid).2]
      rw [Registries.step, hget rid' hne, hrid, without_eq hsame, ← ht]
      simp only [AgentRegistry.releaseReservedAgentPath, hentry]
      simp only [without, countWithout, treeWithout_remove, reservedEntry,
        if_true, remove_insert_of_ne hne.symm]
    · next hrid =>
      have ht := Option.some.inj hstep
      have hsame : get? rid t.reservations = get? rid s.reservations := by
        rw [← ht, get?_insert, if_neg hne.symm]
      rw [Registries.step, hget rid' hne, hrid, without_eq hsame, ← ht]
      simp only [without, countWithout, remove_insert_of_ne hne.symm]
    · cases hstep
  | endDrop rid' =>
    have hne : rid' ≠ rid := of_decide_eq_true hkept
    simp only [Registries.step] at hstep
    split at hstep
    · next hrid =>
      have ht := Option.some.inj hstep
      have hsame : get? rid t.reservations = get? rid s.reservations := by
        rw [← ht, get?_remove, if_neg hne.symm]
      have hlength := length_remove_of_some (keys_remove_nodup h.ids)
        ((hget rid' hne).trans hrid)
      have hpos : 0 < s.countWithout rid := by
        have hcountWithout : s.countWithout rid = _ := h.countWithout_eq
        omega
      have hminus := h.fetchSub_countWithout hpos
      rw [Registries.step, hget rid' hne, hrid, without_eq hsame, ← ht]
      simp only [without, hminus]
      rw [remove_remove]
    · cases hstep
  | release threadId key? =>
    simp only [Registries.step] at hstep
    split at hstep
    · next hentryOf =>
      have ht := Option.some.inj hstep
      have hsame : get? rid t.reservations = get? rid s.reservations := by rw [← ht]
      cases key? with
      | none =>
        have hentryOf' : (s.without rid).registry.EntryOf threadId none :=
          fun entry hentry => hentryOf entry (mem_treeWithout hentry)
        rw [Registries.step, if_pos hentryOf', ← ht]
        rfl
      | some key =>
        obtain ⟨metadata, hentry, hid⟩ := hentryOf
        have hother : ∀ path, s.heldPath rid = some path → path.text ≠ key := by
          intro path hpath htext
          have hreserved := (h.held hpath).2.2
          rw [htext, hentry] at hreserved
          cases hreserved
          cases hid
        have hentry' : get? key (s.without rid).registry.agentTree = some metadata := by
          show get? key (treeWithout _ _) = _
          rw [get?_treeWithout hother, hentry]
        rw [Registries.step, if_pos ⟨metadata, hentry', hid⟩, without_eq hsame, ← ht]
        simp only [AgentRegistry.removeThread, hentry, hentry']
        simp only [without, countWithout, treeWithout_remove]
    · cases hstep
  | endRelease =>
    simp only [Registries.step] at hstep
    split at hstep
    · next hreleasing =>
      have ht := Option.some.inj hstep
      have hsame : get? rid t.reservations = get? rid s.reservations := by rw [← ht]
      have hpos : 0 < s.countWithout rid := by
        have hcountWithout : s.countWithout rid = _ := h.countWithout_eq
        omega
      have hminus := h.fetchSub_countWithout hpos
      rw [Registries.step, if_pos (show 0 < (s.without rid).releasing from hreleasing),
        without_eq hsame, ← ht]
      simp only [without, hminus]
    · cases hstep
  | registerRoot threadId =>
    have ht := Option.some.inj hstep
    have hsame : get? rid t.reservations = get? rid s.reservations := by rw [← ht]
    have hother : ∀ path, s.heldPath rid = some path → path.text ≠ AgentPath.rootText :=
      fun path hpath => of_decide_eq_false (h.held hpath).2.1
    have hroot : get? AgentPath.rootText (s.without rid).registry.agentTree =
        get? AgentPath.rootText s.registry.agentTree := get?_treeWithout hother
    rw [Registries.step, without_eq hsame, ← ht]
    simp only [AgentRegistry.registerRootThread, hroot]
    split
    · simp only [without, countWithout]
    · simp only [without, countWithout, treeWithout_insert hother]

theorem run_without {acts : List RegistryStep} (hcommit : ∀ a ∈ acts, commits rid a = false)
    (hrun : Machine.run (Registries.step maxThreads) {} acts = some s) :
    Machine.run (Registries.step maxThreads) {} (acts.filter (keptWithout rid)) =
      some (s.without rid) := by
  induction acts using List.reverseRecOn generalizing s with
  | nil =>
    cases hrun
    rfl
  | append_singleton acts a ih =>
    obtain ⟨before, hbefore, hlast⟩ := Machine.run_concat_eq_some hrun
    have hsound : before.Sound maxThreads :=
      Machine.run_invariant (fun _ _ _ h hstep => h.step hstep) Registries.sound_start hbefore
    have hfiltered := ih (fun b hb => hcommit b (mem_append_left _ hb)) hbefore
    rw [filter_append]
    cases hkept : keptWithout rid a with
    | true =>
      rw [filter_singleton, hkept]
      show Machine.run _ _ (_ ++ [a]) = _
      rw [Machine.run_concat, hfiltered]
      exact hsound.step_of_kept hkept hlast
    | false =>
      rw [filter_singleton, hkept]
      show Machine.run _ _ (_ ++ []) = _
      rw [append_nil, hfiltered]
      have hnot := hcommit a (mem_append_right _ (mem_singleton_self a))
      rw [hsound.step_of_not_kept hkept hnot hlast]

end Without

/-! ## Holders of a path -/

/-- The agents at the path, and the reservations of it. -/
def Registries.holders (s : Registries) (path : AgentPath) : ℕ :=
  (s.registry.agentTree.countP fun entry =>
    entry.2.agentId.isSome && entry.2.agentPath = some path) +
  s.reservations.countP fun entry => entry.2.reservedAgentPath = some path

/-- If at most one entry of a table passes a test, the test counts at most one. -/
theorem countP_le_one {κ β : Type} {entries : List (κ × β)} {test : κ × β → Bool}
    (hkeys : (entries.map Prod.fst).Nodup)
    (hone : ∀ a ∈ entries, ∀ b ∈ entries, test a = true → test b = true → a.1 = b.1) :
    entries.countP test ≤ 1 := by
  induction entries with
  | nil => exact Nat.zero_le _
  | cons entry entries ih =>
    rw [map_cons, nodup_cons] at hkeys
    have hrest := ih hkeys.2 fun a ha b hb =>
      hone a (mem_cons_of_mem _ ha) b (mem_cons_of_mem _ hb)
    rw [countP_cons]
    split
    · next htest =>
      have hzero : entries.countP test = 0 := by
        rw [countP_eq_zero]
        intro b hb hbtest
        apply hkeys.1
        rw [hone entry mem_cons_self b (mem_cons_of_mem _ hb) htest hbtest]
        exact mem_map_of_mem hb
      omega
    · omega

theorem Registries.Sound.holders_le_one (h : s.Sound maxThreads) (path : AgentPath) :
    s.holders path ≤ 1 := by
  have hfiledAt : ∀ entry ∈ s.registry.agentTree,
      (entry.2.agentId.isSome && entry.2.agentPath = some path) = true → entry.1 = path.text := by
    intro entry hentry htest
    rw [Bool.and_eq_true] at htest
    have hpath := of_decide_eq_true htest.2
    rcases h.filed _ _ (get?_of_mem h.keys hentry) with ⟨path', hpath', hkey⟩ | ⟨hnone, -⟩
    · rw [hpath] at hpath'
      cases hpath'
      exact hkey
    · rw [hpath] at hnone
      cases hnone
  have hreservations : (s.reservations.countP fun entry =>
      decide (entry.2.reservedAgentPath = some path)) ≤ 1 := by
    refine countP_le_one h.ids fun a ha b hb hapath hbpath => ?_
    obtain ⟨ida, patha, da⟩ := a
    obtain ⟨idb, pathb, db⟩ := b
    cases of_decide_eq_true hapath
    cases of_decide_eq_true hbpath
    exact h.distinct ida idb path da db (get?_of_mem h.ids ha) (get?_of_mem h.ids hb)
  have hagents : (s.registry.agentTree.countP fun entry =>
      entry.2.agentId.isSome && entry.2.agentPath = some path) ≤ 1 := by
    refine countP_le_one h.keys fun a ha b hb hapath hbpath => ?_
    rw [hfiledAt a ha hapath, hfiledAt b hb hbpath]
  unfold holders
  -- A reservation of the path and an agent at it would share their entry.
  by_cases hzero : (s.reservations.countP fun entry =>
      decide (entry.2.reservedAgentPath = some path)) = 0
  · omega
  · obtain ⟨⟨rid, path?, dropping⟩, hmem, hheld⟩ :=
      countP_pos_iff.1 (Nat.pos_of_ne_zero hzero)
    cases of_decide_eq_true hheld
    have hentry := (h.reserved rid path dropping (get?_of_mem h.ids hmem)).2
    have hnone : (s.registry.agentTree.countP fun entry =>
        entry.2.agentId.isSome && entry.2.agentPath = some path) = 0 := by
      rw [countP_eq_zero]
      intro entry hmem' htest
      have hget := get?_of_mem h.keys hmem'
      rw [hfiledAt entry hmem' htest, hentry] at hget
      rw [← Option.some.inj hget] at htest
      cases htest
    omega

/-- Steps that count down. -/
def countsDown : RegistryStep → Bool
  | .endDrop _ | .endRelease => true
  | _ => false

theorem Registries.Sound.pos_of_countsDown (h : s.Sound maxThreads) {a : RegistryStep}
    (ha : countsDown a = true) (hstep : s.step maxThreads a = some t) :
    0 < s.registry.totalCount := by
  have hcounted := h.counted
  cases a with
  | endDrop rid =>
    simp only [Registries.step] at hstep
    split at hstep
    · next hrid =>
      have hlength := length_remove_of_some h.ids hrid
      omega
    · cases hstep
  | endRelease =>
    simp only [Registries.step] at hstep
    split at hstep
    · omega
    · cases hstep
  | _ => cases ha

/-- **In every run the count is that of the live agents and the outstanding reservations, and of the
releases that are half-way through; it never underflows and never passes the limit; no path has two
holders; and the run without a reservation that was dropped ends in the same state.** -/
theorem registry_counts_and_forgets {acts : List RegistryStep}
    (hrun : Machine.run (Registries.step maxThreads) {} acts = some s) :
    (s.registry.totalCount =
        s.registry.liveAgents.length + s.reservations.length + s.releasing) ∧
    (s.releasing = 0 →
      s.registry.totalCount = s.registry.liveAgents.length + s.reservations.length) ∧
    (∀ a t, countsDown a = true → s.step maxThreads a = some t → 0 < s.registry.totalCount) ∧
    s.registry.totalCount ≤ maxThreads ∧
    (∀ path, s.holders path ≤ 1) ∧
    (∀ rid, (∀ a ∈ acts, commits rid a = false) → get? rid s.reservations = none →
      Machine.run (Registries.step maxThreads) {} (acts.filter (keptWithout rid)) = some s) := by
  have hsound : s.Sound maxThreads :=
    Machine.run_invariant (fun _ _ _ h hstep => h.step hstep) Registries.sound_start hrun
  have hcounted := hsound.counted
  rw [← length_liveAgents] at hcounted
  refine ⟨hcounted, fun hzero => by omega, fun a t ha hstep => hsound.pos_of_countsDown ha hstep,
    hsound.bounded, hsound.holders_le_one, fun rid hcommit hgone => ?_⟩
  rw [run_without hcommit hrun, Registries.without_of_none hgone]

def workerPath : AgentPath where
  text := "/root/worker".toList
  valid := by decide

/-- Two spawns of one path: the first is dropped, the second one committed. -/
theorem registry_counts_and_forgets_dropped :
    Machine.run (Registries.step 2) {}
      [.registerRoot 1, .reserveSlot 8, .reservePath 8 workerPath, .commit 8 5 none none none] =
    Machine.run (Registries.step 2) {}
      [.registerRoot 1, .reserveSlot 7, .reservePath 7 workerPath, .reserveSlot 8,
        .refusePath 8 workerPath, .beginDrop 7, .reservePath 8 workerPath, .endDrop 7,
        .commit 8 5 none none none] := by
  obtain ⟨s, hs⟩ : ∃ s, Machine.run (Registries.step 2) {}
      [.registerRoot 1, .reserveSlot 7, .reservePath 7 workerPath, .reserveSlot 8,
        .refusePath 8 workerPath, .beginDrop 7, .reservePath 8 workerPath, .endDrop 7,
        .commit 8 5 none none none] = some s := ⟨_, rfl⟩
  have hgone : get? 7 s.reservations = none := by
    cases hs
    rfl
  rw [hs]
  exact (registry_counts_and_forgets hs).2.2.2.2.2 7 (by decide) hgone

end Codex.Agents
