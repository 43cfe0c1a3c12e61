import Codex.Base.Admission
import Codex.Permissions.Path
import Mathlib.Data.List.AList
import Mathlib.Data.List.Sort

/-!
# Discovery of external MCP servers

`discover.rs` of the MCP discovery crate: `finalize` turns the items that the
sources emit into a report. It goes through them in the order of priority and
drops a server for one of five reasons, each recorded as a shadow. The maps of
the loop are kept as the source keeps them; in particular an entry that is
dropped does not enter `name_winner`.

The fingerprint of a server is a field that the sources have filled in, and of
its configuration only the transport is read.
-/

namespace Codex.McpDiscovery

open Codex.Text Codex.Permissions

/-! ## Types -/

/-- Where a server was found. -/
inductive ExternalMcpSource where
  | own
  | claudeProject
  | copilotCli
  | copilotPlugin
  | vsCode
  | agencyBuiltin
  deriving DecidableEq

namespace ExternalMcpSource

def label : ExternalMcpSource → Str
  | own => "own".toList
  | claudeProject => "claude".toList
  | copilotCli => "copilot-cli".toList
  | copilotPlugin => "copilot-plugin".toList
  | vsCode => "vscode".toList
  | agencyBuiltin => "agency".toList

def priority : ExternalMcpSource → Nat
  | own => 60
  | claudeProject => 50
  | copilotCli => 40
  | copilotPlugin => 30
  | vsCode => 20
  | agencyBuiltin => 10

def trustedByDefault : ExternalMcpSource → Bool
  | own => true
  | _ => false

end ExternalMcpSource

/-- `McpServerTransportConfig`: the parts that name the command or the address. -/
inductive McpServerConfig where
  | stdio (command : Str) (args : List Str)
  | streamableHttp (url : Str)
  deriving DecidableEq

structure DiscoveredMcpServer where
  name : Str
  config : McpServerConfig
  source : ExternalMcpSource
  originPath : Str
  fingerprint : Str
  deriving DecidableEq

inductive ShadowReason where
  | nameCollision (winnerSource : Str)
  | contentDuplicate (winnerName : Str)
  | selfReference
  | explicitlyDisabled (source : Str)
  deriving DecidableEq

structure McpDiscoveryShadow where
  name : Str
  source : ExternalMcpSource
  originPath : Str
  reason : ShadowReason
  deriving DecidableEq

/-- What a source emits: a server, or an entry that switches a name off. -/
inductive SourceItem where
  | server (server : DiscoveredMcpServer)
  | disabled (name : Str) (source : ExternalMcpSource) (originPath : Str)
  deriving DecidableEq

structure DiscoveryReport where
  servers : List DiscoveredMcpServer
  shadows : List McpDiscoveryShadow

structure ReservedName where
  name : Str
  owner : Str

/-- `ReservedNames::find`. -/
def findReserved (reserved : List ReservedName) (name : Str) : Option ReservedName :=
  reserved.find? fun entry => entry.name = name

/-! ## Self references -/

/-- `Path::file_name`: the last component, if it is a name. -/
def fileName (path : Path) : Option Str :=
  match path.components.getLast? with
  | some (.normal name) => some name
  | _ => none

def stripSuffix (s suffix : Str) : Option Str :=
  if suffix <:+ s then some (s.take (s.length - suffix.length)) else none

def normalizeExe (command : Str) : Str :=
  let lowered := toAsciiLowercase ((fileName (Path.parse command)).getD command)
  ((stripSuffix lowered ".exe".toList).or
    ((stripSuffix lowered ".cmd".toList).or (stripSuffix lowered ".bat".toList))).getD lowered

def isSelfReference (config : McpServerConfig) (additionalSelfNames : List Str) : Bool :=
  match config with
  | .stdio command args =>
    let normalized := normalizeExe command
    if normalized = "codex".toList ∨ normalized = "codex-mcp".toList ∨
        normalized = "codex-mcp-server".toList then true
    else
      args.any fun arg =>
        match fileName (Path.parse arg) with
        | some file =>
          additionalSelfNames.any fun needle => toAsciiLowercase file = toAsciiLowercase needle
        | none => false
  | .streamableHttp url =>
    let urlLower := toAsciiLowercase url
    "127.0.0.1".toList <:+: urlLower ∨ "localhost".toList <:+: urlLower

/-! ## The loop -/

/-- The variables of `finalize`. -/
structure Finalizing where
  acceptedByName : AList fun _ : Str => DiscoveredMcpServer := ∅
  nameWinner : AList fun _ : Str => ExternalMcpSource := ∅
  disabledNames : AList fun _ : Str => ExternalMcpSource × Str := ∅
  fingerprintOwner : AList fun _ : Str => Str := ∅
  shadows : List McpDiscoveryShadow := []

section

variable (reserved : List ReservedName) (extraNames : List Str) (dedupeByContent : Bool)

def Finalizing.shadow (st : Finalizing) (server : DiscoveredMcpServer) (reason : ShadowReason) :
    Finalizing :=
  { st with shadows := st.shadows ++ [⟨server.name, server.source, server.originPath, reason⟩] }

def Finalizing.accept (st : Finalizing) (server : DiscoveredMcpServer) : Finalizing :=
  { st with
    fingerprintOwner :=
      if dedupeByContent then st.fingerprintOwner.insert server.fingerprint server.name
      else st.fingerprintOwner
    nameWinner := st.nameWinner.insert server.name server.source
    acceptedByName := st.acceptedByName.insert server.name server }

/-- The reason to drop a server, in the order in which the loop asks. -/
def Finalizing.suppressed (st : Finalizing) (server : DiscoveredMcpServer) : Option ShadowReason :=
  match findReserved reserved server.name with
  | some entry => some (.nameCollision entry.owner)
  | none =>
    match st.disabledNames.lookup server.name with
    | some (source, _) => some (.explicitlyDisabled source.label)
    | none =>
      if isSelfReference server.config extraNames then some .selfReference
      else
        match st.nameWinner.lookup server.name with
        | some existing => some (.nameCollision existing.label)
        | none =>
          if dedupeByContent then
            (st.fingerprintOwner.lookup server.fingerprint).map .contentDuplicate
          else none

def Finalizing.step (st : Finalizing) : SourceItem → Finalizing
  | .disabled name source originPath =>
    if name ∈ st.disabledNames then st
    else { st with disabledNames := st.disabledNames.insert name (source, originPath) }
  | .server server =>
    match st.suppressed reserved extraNames dedupeByContent server with
    | some reason => st.shadow server reason
    | none => st.accept dedupeByContent server

def SourceItem.priorityOf : SourceItem → Nat
  | .server found => found.source.priority
  | .disabled _ source _ => source.priority

/-- `sort_by_key(Reverse(priority_of))`, which is stable. -/
def sortItems (items : List SourceItem) : List SourceItem :=
  items.insertionSort fun a b => b.priorityOf ≤ a.priorityOf

def shadowKindKey : ShadowReason → Str
  | .nameCollision winnerSource => "name:".toList ++ winnerSource
  | .contentDuplicate winnerName => "content:".toList ++ winnerName
  | .selfReference => "self".toList
  | .explicitlyDisabled source => "disabled:".toList ++ source

/-- Servers by descending priority, then by name. -/
def serverLe (a b : DiscoveredMcpServer) : Prop :=
  b.source.priority < a.source.priority ∨
    (a.source.priority = b.source.priority ∧ a.name ≤ b.name)

instance : DecidableRel serverLe := fun _ _ => inferInstanceAs (Decidable (_ ∨ _))

def shadowKey (shadow : McpDiscoveryShadow) : Str × Str :=
  (shadow.name, shadowKindKey shadow.reason)

/-- Shadows by name, then by kind. -/
def shadowLe (a b : McpDiscoveryShadow) : Prop :=
  a.name < b.name ∨ (a.name = b.name ∧ shadowKindKey a.reason ≤ shadowKindKey b.reason)

instance : DecidableRel shadowLe := fun _ _ => inferInstanceAs (Decidable (_ ∨ _))

/-- After the loop: `retain` leaves the first shadow of each name and kind, and both lists are
sorted. -/
def Finalizing.report (st : Finalizing) : DiscoveryReport where
  servers := (st.acceptedByName.entries.map Sigma.snd).insertionSort serverLe
  shadows := (admitted (fun a b => shadowKey a = shadowKey b) st.shadows).insertionSort shadowLe

def finalize (items : List SourceItem) : DiscoveryReport :=
  ((sortItems items).foldl (Finalizing.step reserved extraNames dedupeByContent) {}).report

end

end Codex.McpDiscovery
