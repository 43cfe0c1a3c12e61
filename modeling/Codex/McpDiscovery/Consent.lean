import Codex.McpDiscovery.Report
import Mathlib.Logic.Function.Basic

/-!
# Consent

`consent.rs` and `wiring.rs`: the record of approved and denied names, the file
it is kept in, and the gate that `apply_discovery` puts between the report and
the servers that are merged. A history interleaves discovery passes, over
whatever the sources hold at that time, with the operations of any number of
stores on the one file. Decisions are about names: `merged_external_iff` says
that an external server is merged exactly if the last decision about its name,
in the record the pass uses, was to approve.
-/

namespace Codex.McpDiscovery

open List Codex.Text Codex.Permissions

/-! ## The store -/

inductive ConsentDecision where
  | approved
  | denied
  | pending
  deriving DecidableEq

structure ConsentRecord where
  approved : List Str := []
  denied : List Str := []
  autoApprove : Bool := false
  deriving DecidableEq

namespace ConsentRecord

def decide (record : ConsentRecord) (server : DiscoveredMcpServer) : ConsentDecision :=
  if server.source.trustedByDefault then .approved
  else if server.name ∈ record.denied then .denied
  else if record.autoApprove then .approved
  else if server.name ∈ record.approved then .approved
  else .pending

def approve (record : ConsentRecord) (serverName : Str) : ConsentRecord :=
  { record with
    denied := record.denied.filter fun name => name ≠ serverName
    approved :=
      if serverName ∈ record.approved then record.approved else record.approved ++ [serverName] }

def deny (record : ConsentRecord) (serverName : Str) : ConsentRecord :=
  { record with
    approved := record.approved.filter fun name => name ≠ serverName
    denied := if serverName ∈ record.denied then record.denied else record.denied ++ [serverName] }

def setAutoApprove (record : ConsentRecord) (enabled : Bool) : ConsentRecord :=
  { record with autoApprove := enabled }

end ConsentRecord

/-! ## The pass -/

inductive ExternalMcpAutoApprove where
  | none
  | trusted
  | all
  deriving DecidableEq

structure DiscoverySettings where
  enabled : Bool
  autoApprove : ExternalMcpAutoApprove
  sourceFilter : List ExternalMcpSource
  dedupeByContent : Bool
  unknownSourceLabels : List Str

/-- `ApplyDiscoveryInputs`. `scan` is what each source emits when the environment is read, and
`consentStore` one of the stores, or `none` for the file. -/
structure ApplyDiscoveryInputs where
  settings : DiscoverySettings
  scan : ExternalMcpSource → List SourceItem
  reservedNames : List ReservedName
  selfReference : List Str
  consentStore : Option Nat

def collectRaw (scan : ExternalMcpSource → List SourceItem) (filter : List ExternalMcpSource) :
    List SourceItem :=
  [.own, .claudeProject, .copilotCli, .copilotPlugin, .vsCode, .agencyBuiltin].flatMap
    fun source => if source ∈ filter then scan source else []

/-- `discover_with_options`. -/
def discover (inputs : ApplyDiscoveryInputs) : DiscoveryReport :=
  finalize inputs.reservedNames inputs.selfReference inputs.settings.dedupeByContent
    (collectRaw inputs.scan inputs.settings.sourceFilter)

structure ApplyDiscoveryOutcome where
  mergedServers : AList fun _ : Str => McpServerConfig := ∅
  shadows : List McpDiscoveryShadow := []
  pending : List DiscoveredMcpServer := []
  unknownSourceLabels : List Str := []

def resolveDecision (server : DiscoveredMcpServer) (consent : ConsentRecord)
    (autoApprove : ExternalMcpAutoApprove) : ConsentDecision :=
  match autoApprove, consent.decide server with
  | .none, .approved =>
    if server.source.trustedByDefault ∧ server.name ∉ consent.approved then .pending else .approved
  | .all, .pending => .approved
  | _, decision => decision

def ApplyDiscoveryOutcome.gate (consent : ConsentRecord) (autoApprove : ExternalMcpAutoApprove)
    (outcome : ApplyDiscoveryOutcome) (server : DiscoveredMcpServer) : ApplyDiscoveryOutcome :=
  match resolveDecision server consent autoApprove with
  | .approved =>
    { outcome with mergedServers := outcome.mergedServers.insert server.name server.config }
  | .denied =>
    { outcome with
      shadows := outcome.shadows ++ [⟨server.name, server.source, server.originPath,
        .explicitlyDisabled "user-deny".toList⟩] }
  | .pending => { outcome with pending := outcome.pending ++ [server] }

def applyDiscovery (inputs : ApplyDiscoveryInputs) (consent : ConsentRecord) :
    ApplyDiscoveryOutcome :=
  if inputs.settings.enabled then
    (discover inputs).servers.foldl (.gate consent inputs.settings.autoApprove)
      { shadows := (discover inputs).shadows
        unknownSourceLabels := inputs.settings.unknownSourceLabels }
  else { unknownSourceLabels := inputs.settings.unknownSourceLabels }

/-! ## Histories -/

inductive ConsentOp where
  | approve (serverName : Str)
  | deny (serverName : Str)
  | setAutoApprove (enabled : Bool)
  deriving DecidableEq

def ConsentOp.apply : ConsentOp → ConsentRecord → ConsentRecord
  | .approve serverName, record => record.approve serverName
  | .deny serverName, record => record.deny serverName
  | .setAutoApprove enabled, record => record.setAutoApprove enabled

/-- How `persist` ends: the file has the record, is as it was, or cannot be read any more. -/
inductive Persisted where
  | written
  | failed
  | malformed
  deriving DecidableEq

/-- What `ConsentStore::load` finds in the file, and the stores in memory. -/
structure Stores (ρ : Type) where
  file : ρ
  memory : Nat → ρ

inductive Event where
  | load (store : Nat)
  | mutate (store : Nat) (op : ConsentOp) (persisted : Persisted)
  | pass (inputs : ApplyDiscoveryInputs)

/-- The stores after an event, for any reading `ρ` of a record with its empty value. -/
def Stores.step {ρ : Type} (empty : ρ) (apply : ConsentOp → ρ → ρ) (stores : Stores ρ) :
    Event → Stores ρ
  | .load store => { stores with memory := Function.update stores.memory store stores.file }
  | .mutate store op persisted =>
    let record := apply op (stores.memory store)
    { file :=
        match persisted with
        | .written => record
        | .failed => stores.file
        | .malformed => empty
      memory := Function.update stores.memory store record }
  | .pass _ => stores

def Stores.run {ρ : Type} (empty : ρ) (apply : ConsentOp → ρ → ρ) (history : List Event) :
    Stores ρ :=
  history.foldl (Stores.step empty apply) ⟨empty, fun _ => empty⟩

/-- The record that a pass uses. -/
def Stores.used {ρ : Type} (stores : Stores ρ) : Option Nat → ρ
  | some store => stores.memory store
  | none => stores.file

def records (history : List Event) : Stores ConsentRecord := Stores.run {} ConsentOp.apply history

/-- The outcome of a pass after a history. -/
def outcomeAfter (history : List Event) (inputs : ApplyDiscoveryInputs) : ApplyDiscoveryOutcome :=
  applyDiscovery inputs ((records history).used inputs.consentStore)

/-- The pass merges the server `s` that it has discovered. -/
def Merges (history : List Event) (inputs : ApplyDiscoveryInputs) (s : DiscoveredMcpServer) :
    Prop :=
  s ∈ (discover inputs).servers ∧
    (outcomeAfter history inputs).mergedServers.lookup s.name = some s.config

/-! ## Decisions by name -/

/-- The operations that led to a record, in order. -/
def standing (history : List Event) : Stores (List ConsentOp) :=
  Stores.run [] (fun op ops => ops ++ [op]) history

/-- The last decision about a name: `true` to approve, `false` to deny. -/
def lastDecision (name : Str) (ops : List ConsentOp) : Option Bool :=
  ops.foldl (fun last op =>
    match op with
    | .approve n => if n = name then some true else last
    | .deny n => if n = name then some false else last
    | .setAutoApprove _ => last) none

theorem Stores.run_concat {ρ : Type} {empty : ρ} {apply : ConsentOp → ρ → ρ}
    (history : List Event) (event : Event) :
    run empty apply (history ++ [event]) =
      (run empty apply history).step empty apply event := by
  rw [run, foldl_append]
  rfl

/-- A relation that the operations keep holds between all records of two readings. -/
theorem Stores.run_rel {ρ σ : Type} {R : ρ → σ → Prop} {empty : ρ} {empty' : σ}
    {apply : ConsentOp → ρ → ρ} {apply' : ConsentOp → σ → σ} (hempty : R empty empty')
    (happly : ∀ op r r', R r r' → R (apply op r) (apply' op r')) (history : List Event) :
    R (run empty apply history).file (run empty' apply' history).file ∧
      ∀ i, R ((run empty apply history).memory i)
        ((run empty' apply' history).memory i) := by
  induction history using List.reverseRecOn with
  | nil => exact ⟨hempty, fun _ => hempty⟩
  | append_singleton history event ih =>
    rw [run_concat, run_concat]
    obtain ⟨hfile, hmemory⟩ := ih
    cases event with
    | load store =>
      refine ⟨hfile, fun i => ?_⟩
      simp only [step, Function.update_apply]
      split
      · exact hfile
      · exact hmemory i
    | mutate store op persisted =>
      have hop := happly op _ _ (hmemory store)
      refine ⟨?_, fun i => ?_⟩
      · cases persisted with
        | written => exact hop
        | failed => exact hfile
        | malformed => exact hempty
      · simp only [step, Function.update_apply]
        split
        · exact hop
        · exact hmemory i
    | pass inputs => exact ⟨hfile, hmemory⟩

/-- The lists of a record say what the last decision about each name was. -/
def Reflects (record : ConsentRecord) (ops : List ConsentOp) : Prop :=
  ∀ name, (name ∈ record.approved ↔ lastDecision name ops = some true) ∧
    (name ∈ record.denied ↔ lastDecision name ops = some false)

theorem reflects_apply (op : ConsentOp) (record : ConsentRecord) (ops : List ConsentOp)
    (h : Reflects record ops) : Reflects (op.apply record) (ops ++ [op]) := by
  intro name
  obtain ⟨happ, hden⟩ := h name
  simp only [lastDecision, foldl_append, foldl_cons, foldl_nil]
  rw [← lastDecision]
  cases op with
  | approve n =>
    by_cases hn : n = name
    · subst hn
      simp only [ConsentOp.apply, ConsentRecord.approve, ↓reduceIte]
      split <;> simp_all
    · have hn' : name ≠ n := fun h => hn h.symm
      simp only [ConsentOp.apply, ConsentRecord.approve, hn, ↓reduceIte]
      split <;> simp_all
  | deny n =>
    by_cases hn : n = name
    · subst hn
      simp only [ConsentOp.apply, ConsentRecord.deny, ↓reduceIte]
      split <;> simp_all
    · have hn' : name ≠ n := fun h => hn h.symm
      simp only [ConsentOp.apply, ConsentRecord.deny, hn, ↓reduceIte]
      split <;> simp_all
  | setAutoApprove enabled => exact ⟨happ, hden⟩

/-- Every record, in the file or in memory, reflects the operations that led to it. -/
theorem records_reflect (history : List Event) (store : Option Nat) :
    Reflects ((records history).used store) ((standing history).used store) := by
  have hempty : Reflects {} [] := by simp [Reflects, lastDecision]
  obtain ⟨hfile, hmemory⟩ := Stores.run_rel hempty reflects_apply history
  cases store with
  | none => exact hfile
  | some i => exact hmemory i

/-! ## The gate -/

section Gate

variable {consent : ConsentRecord} {autoApprove : ExternalMcpAutoApprove}
  {outcome : ApplyDiscoveryOutcome} {servers : List DiscoveredMcpServer} {s : DiscoveredMcpServer}

theorem gate_lookup_of_ne {n : Str} (h : s.name ≠ n) :
    (outcome.gate consent autoApprove s).mergedServers.lookup n =
      outcome.mergedServers.lookup n := by
  unfold ApplyDiscoveryOutcome.gate
  split
  · exact AList.lookup_insert_ne (Ne.symm h)
  · rfl
  · rfl

theorem gate_lookup_self :
    (outcome.gate consent autoApprove s).mergedServers.lookup s.name =
      if resolveDecision s consent autoApprove = .approved then some s.config
      else outcome.mergedServers.lookup s.name := by
  unfold ApplyDiscoveryOutcome.gate
  split
  · next h => rw [if_pos h, AList.lookup_insert]
  · next h => rw [h]; rfl
  · next h => rw [h]; rfl

theorem foldl_gate_lookup_of_notMem {n : Str} (h : n ∉ servers.map (·.name)) :
    (servers.foldl (.gate consent autoApprove) outcome).mergedServers.lookup n =
      outcome.mergedServers.lookup n := by
  induction servers generalizing outcome with
  | nil => rfl
  | cons t servers ih =>
    simp only [map_cons, mem_cons, not_or] at h
    rw [foldl_cons, ih h.2, gate_lookup_of_ne (Ne.symm h.1)]

/-- The configuration of a discovered server is merged exactly if it is approved. -/
theorem foldl_gate_lookup (hnodup : (servers.map (·.name)).Nodup) (hs : s ∈ servers)
    (hnew : outcome.mergedServers.lookup s.name = none) :
    (servers.foldl (.gate consent autoApprove) outcome).mergedServers.lookup s.name =
      if resolveDecision s consent autoApprove = .approved then some s.config else none := by
  induction servers generalizing outcome with
  | nil => cases hs
  | cons t servers ih =>
    simp only [map_cons, nodup_cons] at hnodup
    rw [foldl_cons]
    rcases mem_cons.1 hs with rfl | hs
    · rw [foldl_gate_lookup_of_notMem hnodup.1, gate_lookup_self, hnew]
    · refine ih hnodup.2 hs ?_
      rw [gate_lookup_of_ne, hnew]
      rintro heq
      exact hnodup.1 (heq ▸ mem_map_of_mem hs)

theorem resolveDecision_external (hall : autoApprove ≠ .all) (hauto : consent.autoApprove = false)
    (hext : s.source ≠ .own) :
    resolveDecision s consent autoApprove = .approved ↔
      s.name ∉ consent.denied ∧ s.name ∈ consent.approved := by
  have htrust : s.source.trustedByDefault = false := by
    cases hsource : s.source <;> simp_all [ExternalMcpSource.trustedByDefault]
  have hdecide : consent.decide s = .approved ↔ s.name ∉ consent.denied ∧
      s.name ∈ consent.approved := by
    simp only [ConsentRecord.decide, htrust, hauto, Bool.false_eq_true, ↓reduceIte]
    by_cases hden : s.name ∈ consent.denied
    · simp [hden]
    · by_cases happ : s.name ∈ consent.approved
      · simp [hden, happ]
      · simp [hden, happ]
  rw [← hdecide]
  unfold resolveDecision
  split
  · next h => simp [htrust, h]
  · exact absurd rfl hall
  · rfl

end Gate

theorem names_nodup (inputs : ApplyDiscoveryInputs) :
    ((discover inputs).servers.map (·.name)).Nodup := by
  refine ((finalize_servers_perm _).map _).nodup_iff.2 (pairwise_map.2 ?_)
  exact (admitted_pairwise _).imp fun hab hname => hab (.inl hname)

/-- **Consent follows the name.** With neither form of automatic approval, a pass merges an
external server that it has discovered exactly if the last decision about its name, among those
that the record used by the pass reflects, was to approve. -/
theorem merged_external_iff (history : List Event) (inputs : ApplyDiscoveryInputs)
    (s : DiscoveredMcpServer) (hall : inputs.settings.autoApprove ≠ .all)
    (hauto : ((records history).used inputs.consentStore).autoApprove = false)
    (hext : s.source ≠ .own) :
    Merges history inputs s ↔
      inputs.settings.enabled = true ∧ s ∈ (discover inputs).servers ∧
        lastDecision s.name ((standing history).used inputs.consentStore) = some true := by
  obtain ⟨happ, hden⟩ := records_reflect history inputs.consentStore s.name
  have happroved := resolveDecision_external hall hauto hext
  rw [happ, hden] at happroved
  unfold Merges outcomeAfter applyDiscovery
  cases inputs.settings.enabled with
  | false => simp
  | true =>
    simp only [↓reduceIte, true_and]
    refine and_congr_right fun hs => ?_
    rw [foldl_gate_lookup (names_nodup inputs) hs (by simp), ite_eq_left_iff]
    simp only [reduceCtorEq, imp_false, not_not, happroved]
    refine ⟨And.right, fun h => ⟨by simp [h], h⟩⟩

/-! ## A definition that nobody approved -/

/-- The pass holds the server back for a decision, or merges it. -/
def Shows (history : List Event) (inputs : ApplyDiscoveryInputs) (s : DiscoveredMcpServer) : Prop :=
  s ∈ (outcomeAfter history inputs).pending ∨ Merges history inputs s

/-- A server with the fingerprint of `s` was shown before its name was approved, and the name has
not been denied since. -/
def ApprovedByFingerprint (history : List Event) (s : DiscoveredMcpServer) : Prop :=
  ∃ before store persisted after,
    history = before ++ Event.mutate store (.approve s.name) persisted :: after ∧
      (∃ front inputs back t, before = front ++ Event.pass inputs :: back ∧ Shows front inputs t ∧
        t.name = s.name ∧ t.fingerprint = s.fingerprint) ∧
      ∀ store persisted, .mutate store (.deny s.name) persisted ∉ after

def docsServer (command fingerprint : Str) : DiscoveredMcpServer :=
  ⟨"docs".toList, .stdio command [], .claudeProject, "/repo/.mcp.json".toList, fingerprint⟩

def projectPass (server : DiscoveredMcpServer) : ApplyDiscoveryInputs where
  settings := ⟨true, .trusted, [.own, .claudeProject], true, []⟩
  scan source := if source = .claudeProject then [.server server] else []
  reservedNames := []
  selfReference := []
  consentStore := none

/-- `docs` is discovered and approved. -/
def docsApproved : List Event :=
  [.pass (projectPass (docsServer "docs-mcp".toList "aa".toList)), .load 0,
    .mutate 0 (.approve "docs".toList) .written]

/-- Another checkout redefines `docs`: the approval of the first definition merges the second. -/
theorem redefined_server_merged :
    Merges docsApproved (projectPass (docsServer "sh".toList "bb".toList))
        (docsServer "sh".toList "bb".toList) ∧
      ¬ ApprovedByFingerprint docsApproved (docsServer "sh".toList "bb".toList) := by
  refine ⟨⟨by decide +kernel, by decide +kernel⟩, ?_⟩
  rintro ⟨before, store, persisted, after, hhist, ⟨front, inputs, back, t, rfl, hshow, -, hfp⟩, -⟩
  obtain ⟨rfl, hinputs⟩ : front = [] ∧
      inputs = projectPass (docsServer "docs-mcp".toList "aa".toList) := by
    cases front with
    | nil =>
      simp only [docsApproved, nil_append, cons_append, List.cons.injEq,
        Event.pass.injEq] at hhist
      exact ⟨rfl, hhist.1.symm⟩
    | cons e front =>
      cases front with
      | nil => simp [docsApproved] at hhist
      | cons e' front =>
        cases front with
        | nil | cons e'' front => simp [docsApproved] at hhist
  subst hinputs
  have ht : t ∈ (discover (projectPass (docsServer "docs-mcp".toList "aa".toList))).servers := by
    rcases hshow with hpending | hmerged
    · have hall : ∀ u ∈ (outcomeAfter []
          (projectPass (docsServer "docs-mcp".toList "aa".toList))).pending,
          u ∈ (discover (projectPass (docsServer "docs-mcp".toList "aa".toList))).servers := by
        decide +kernel
      exact hall t hpending
    · exact hmerged.1
  have hall : ∀ u ∈ (discover (projectPass (docsServer "docs-mcp".toList "aa".toList))).servers,
      u.fingerprint = "aa".toList := by
    decide +kernel
  rw [hall t ht] at hfp
  revert hfp
  decide

theorem docs_merged_by_name :
    Merges docsApproved (projectPass (docsServer "sh".toList "bb".toList))
      (docsServer "sh".toList "bb".toList) :=
  (merged_external_iff docsApproved (projectPass (docsServer "sh".toList "bb".toList))
    (docsServer "sh".toList "bb".toList) (by decide) (by decide +kernel) (by decide)).2
    ⟨rfl, by decide +kernel, by decide +kernel⟩

end Codex.McpDiscovery
