import Codex.Base.LayerOrigins
import Codex.NetworkProxy.Policy
import Codex.Rollout.Item

/-!
# Config layers

`merge_toml_values` (`config/src/merge.rs`), which normalises key aliases and the
keys of network domains on the way, and the two folds over the layers of a config
stack: `effective_config` merges them, `origins` records for every scalar of a
layer which layer it is from (`config/src/state.rs`, `config/src/fingerprint.rs`).
-/

namespace Codex.Config

open Codex.Text

/-- Strings, numbers, booleans and dates are carried along. -/
abbrev TomlValue := Tree Str Rollout.Carried

/-! ## Key aliases -/

structure ConfigKeyAlias where
  tablePath : List Str
  legacyKey : Str
  canonicalKey : Str

def memoriesKey : Str := "memories".toList
def legacyMemoriesKey : Str := "no_memories_if_mcp_or_web_search".toList
def canonicalMemoriesKey : Str := "disable_on_external_context".toList

def configKeyAliases : List ConfigKeyAlias :=
  [⟨[memoriesKey], legacyMemoriesKey, canonicalMemoriesKey⟩]

section Entries

variable {β : Type}

/-- `entry(key).or_insert(value)`. -/
def orInsert (key : Str) (value : β) (entries : List (Str × β)) : List (Str × β) :=
  match Entries.get? key entries with
  | some _ => entries
  | none => Entries.insert key value entries

def applyAlias (path : List Str) (entries : List (Str × β)) (keyAlias : ConfigKeyAlias) :
    List (Str × β) :=
  if path = keyAlias.tablePath then
    match Entries.get? keyAlias.legacyKey entries with
    | some value => orInsert keyAlias.canonicalKey value (Entries.remove keyAlias.legacyKey entries)
    | none => entries
  else entries

def normalizeKeyAliases (path : List Str) (entries : List (Str × β)) : List (Str × β) :=
  configKeyAliases.foldl (applyAlias path) entries

def isPermissionNetworkDomainsPath : List Str → Bool
  | [permissions, _, network, domains] =>
    permissions = "permissions".toList && network = "network".toList &&
      domains = "domains".toList
  | _ => false

def normalizeNetworkDomainKeys (entries : List (Str × β)) : List (Str × β) :=
  entries.foldl (fun table entry => Entries.insert (NetworkProxy.normalizeHost entry.1) entry.2 table)
    []

/-- What a table of the path is turned into before it is merged. -/
def normalizeEntries (path : List Str) (entries : List (Str × β)) : List (Str × β) :=
  let entries := normalizeKeyAliases path entries
  if isPermissionNetworkDomainsPath path then normalizeNetworkDomainKeys entries else entries

end Entries

mutual

def normalizedWithKeyAliases (path : List Str) : TomlValue → TomlValue
  | .table entries => .table (normalizeKeyAliases path (normalizedEntries path entries))
  | .array items => .array (normalizedItems path items)
  | .scalar text => .scalar text

def normalizedItems (path : List Str) : List TomlValue → List TomlValue
  | [] => []
  | item :: rest => normalizedWithKeyAliases path item :: normalizedItems path rest

def normalizedEntries (path : List Str) : List (Str × TomlValue) → List (Str × TomlValue)
  | [] => []
  | (key, value) :: rest =>
    (key, normalizedWithKeyAliases (path ++ [key]) value) :: normalizedEntries path rest

end

/-! ## Merging -/

/-- One round of the loop over an overlay, whose entries come with the merge of their value. -/
def mergeEntry (path : List Str) (base : List (Str × TomlValue))
    (entry : Str × TomlValue × (TomlValue → List Str → TomlValue)) : List (Str × TomlValue) :=
  match Entries.get? entry.1 base with
  | some existing => Entries.insert entry.1 (entry.2.2 existing (path ++ [entry.1])) base
  | none => Entries.insert entry.1 (normalizedWithKeyAliases (path ++ [entry.1]) entry.2.1) base

mutual

/-- `merge_toml_values_at_path`, for the overlay: the base becomes the merge. -/
def mergeAtPath : TomlValue → TomlValue → List Str → TomlValue
  | .table overlay => fun base path =>
    match base with
    | .table base =>
      .table ((normalizeEntries path (mergers overlay)).foldl (mergeEntry path)
        (normalizeEntries path base))
    | _ => normalizedWithKeyAliases path (.table overlay)
  | overlay => fun _ path => normalizedWithKeyAliases path overlay

/-- The entries of the overlay, each with the merge of its value. -/
def mergers : List (Str × TomlValue) → List (Str × TomlValue × (TomlValue → List Str → TomlValue))
  | [] => []
  | (key, value) :: rest => (key, value, mergeAtPath value) :: mergers rest

end

def mergeTomlValues (base overlay : TomlValue) : TomlValue := mergeAtPath overlay base []

/-! ## Layers -/

structure ConfigLayerMetadata where
  name : Rollout.Carried
  version : Rollout.Carried
  deriving DecidableEq

/-- A layer. Its config is a TOML document: a table, with each key once in every table. -/
structure ConfigLayerEntry where
  metadata : ConfigLayerMetadata
  config : List (Str × TomlValue)
  disabledReason : Option Str := none
  distinctKeys : (Tree.table config).distinctKeys = true

/-- `get_layers`, lowest precedence first and without the disabled ones. -/
def enabledLayers (layers : List ConfigLayerEntry) : List ConfigLayerEntry :=
  layers.filter fun layer => layer.disabledReason.isNone

def effectiveConfig (layers : List ConfigLayerEntry) : TomlValue :=
  (enabledLayers layers).foldl (fun merged layer => mergeTomlValues merged (.table layer.config))
    (.table [])

/-! ## Origins -/

/-- A step of a path, as it is written. -/
def renderStep : Step Str → Str
  | .key k => k
  | .index i => (toString i).toList

def joinPath (path : List Str) : Str := ['.'].intercalate path

mutual

def recordOrigins (origin : ConfigLayerMetadata) (path : List Str) (value : TomlValue)
    (origins : List (Str × ConfigLayerMetadata)) : List (Str × ConfigLayerMetadata) :=
  match value with
  | .table entries => recordEntries origin path entries origins
  | .array items => recordItems origin path 0 items origins
  | .scalar _ => if path = [] then origins else Entries.insert (joinPath path) origin origins

def recordItems (origin : ConfigLayerMetadata) (path : List Str) (i : ℕ) (items : List TomlValue)
    (origins : List (Str × ConfigLayerMetadata)) : List (Str × ConfigLayerMetadata) :=
  match items with
  | [] => origins
  | item :: rest =>
    recordItems origin path (i + 1) rest
      (recordOrigins origin (path ++ [renderStep (.index i)]) item origins)

def recordEntries (origin : ConfigLayerMetadata) (path : List Str)
    (entries : List (Str × TomlValue)) (origins : List (Str × ConfigLayerMetadata)) :
    List (Str × ConfigLayerMetadata) :=
  match entries with
  | [] => origins
  | (key, value) :: rest =>
    recordEntries origin path rest (recordOrigins origin (path ++ [key]) value origins)

end

def origins (layers : List ConfigLayerEntry) : List (Str × ConfigLayerMetadata) :=
  (enabledLayers layers).foldl (fun origins layer =>
    recordOrigins layer.metadata [] (normalizedWithKeyAliases [] (.table layer.config)) origins) []

end Codex.Config
