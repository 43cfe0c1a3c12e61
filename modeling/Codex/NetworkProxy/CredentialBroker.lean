import Codex.NetworkProxy.CredentialProviders

/-!
# The credential broker

`network-proxy/src/credential_broker.rs`. Environments of child processes get dummy values in
the place of credentials, and the proxy puts the credentials into the requests that carry a
dummy value to a host of its credential. A registration draws candidates in rounds; while
none is free, it has no result.
-/

namespace Codex.NetworkProxy

open Codex.Text

def credentialBrokerActiveEnvKey : Str := "CODEX_NETWORK_PROXY_CREDENTIAL_BROKER_ACTIVE".toList

def brokeredCredentialsEnvKey : Str := "CODEX_NETWORK_PROXY_BROKERED_CREDENTIALS".toList

structure CredentialRecord where
  envVar : Str
  provider : CredentialProvider
  hostBinding : CredentialHostBinding
  realValue : Str
  dummyValue : Str
  deriving DecidableEq

def CredentialRecord.matchesHost (record : CredentialRecord) (host : Str) : Bool :=
  record.hostBinding.matchesHost host

structure CredentialBrokerState where
  enabled : Bool
  credentials : List CredentialRecord := []
  deriving DecidableEq

namespace CredentialBrokerState

def isDummyValue (state : CredentialBrokerState) (value : Str) : Bool :=
  state.credentials.any fun record => record.dummyValue = value

/-- The loop of `register`, with what the generator draws in each of its rounds. -/
def drawDummyValue (state : CredentialBrokerState) (provider : CredentialProvider)
    (realValue : Str) : List Draws → Option Str
  | [] => none
  | draws :: rounds =>
    let candidate := provider.dummyValue realValue draws
    if candidate ≠ realValue ∧ state.isDummyValue candidate = false then some candidate
    else drawDummyValue state provider realValue rounds

def register (state : CredentialBrokerState) (envVar : Str) (provider : CredentialProvider)
    (hostBinding : CredentialHostBinding) (realValue : Str) (rounds : List Draws) :
    Option (CredentialBrokerState × Str) :=
  let existing := state.credentials.find? fun record =>
    record.envVar = envVar ∧ record.provider = provider ∧ record.hostBinding = hostBinding ∧
      record.realValue = realValue
  match existing with
  | some existing => some (state, existing.dummyValue)
  | none =>
    (state.drawDummyValue provider realValue rounds).map fun dummyValue =>
      ({ state with
          credentials := state.credentials ++
            [⟨envVar, provider, hostBinding, realValue, dummyValue⟩] }, dummyValue)

end CredentialBrokerState

section

variable {η : Type} (http : HeaderCodec η) (toJson : List (Str × Str) → Option Str)

def brokerableCredentialValue (env : Env) (state : CredentialBrokerState) (envVar : Str)
    (provider : CredentialProvider) : Option Str :=
  match env envVar with
  | none => none
  | some value =>
    let realValue := trim value
    if !realValue.isEmpty && !state.isDummyValue realValue &&
        (provider.requestHeaderValue http realValue).isSome then some realValue
    else none

def virtualizeEnvVar (env : Env) (state : CredentialBrokerState) (envVar : Str)
    (provider : CredentialProvider) (hostBinding : CredentialHostBinding) (rounds : List Draws) :
    Option (Env × CredentialBrokerState) :=
  match brokerableCredentialValue http env state envVar provider with
  | none => some (env, state)
  | some realValue =>
    (state.register envVar provider hostBinding realValue rounds).map fun (state, dummyValue) =>
      (env.insert envVar dummyValue, state)

/-- The loop over the variables of a source, if the environment binds it to a host. -/
def virtualizeSource (rng : Str → List Draws) (provider : CredentialProvider)
    (child : Env × CredentialBrokerState) (source : CredentialSource) :
    Option (Env × CredentialBrokerState) :=
  match source.hostBinding child.1 with
  | none => some child
  | some hostBinding =>
    source.envVars.foldlM (fun child envVar =>
      virtualizeEnvVar http child.1 child.2 envVar provider hostBinding (rng envVar)) child

def brokeredCredentials (state : CredentialBrokerState) (env : Env) : List (Str × Str) :=
  credentialBrokerEnvKeys.filterMap fun key =>
    match env key with
    | none => none
    | some value => if state.isDummyValue value then some (key, value) else none

def updateBrokeredCredentialsMarker (state : CredentialBrokerState) (env : Env) : Env :=
  match toJson (brokeredCredentials state env) with
  | some marker => env.insert brokeredCredentialsEnvKey marker
  | none => env.remove brokeredCredentialsEnvKey

/-- `virtualize_child_env`; `rng` is what the generator draws for each variable. -/
def virtualizeChildEnv (state : CredentialBrokerState) (env : Env) (rng : Str → List Draws) :
    Option (Env × CredentialBrokerState) :=
  if !state.enabled then
    some ((env.remove credentialBrokerActiveEnvKey).remove brokeredCredentialsEnvKey, state)
  else
    let child := CredentialProvider.all.foldlM (fun child provider =>
      provider.sources.foldlM (virtualizeSource http rng provider) child)
      (env.insert credentialBrokerActiveEnvKey "1".toList, state)
    child.map fun (env, state) => (updateBrokeredCredentialsMarker toJson state env, state)

/-- A sequence of calls, each on an environment of its own. -/
def virtualizeAll (state : CredentialBrokerState) (calls : List (Env × (Str → List Draws))) :
    Option CredentialBrokerState :=
  calls.foldlM (fun state call => (virtualizeChildEnv http toJson state call.1 call.2).map (·.2))
    state

/-! ## Requests -/

def selectCredential (headers : HeaderMap η) (matching : List CredentialRecord) :
    Option CredentialRecord :=
  let dummyMatches := matching.filter fun record =>
    (record.provider.requestHeader headers).any fun value =>
      (http.toStr value).any fun value => decide (record.dummyValue <:+: value)
  match dummyMatches with
  | [record] => some record
  | _ => none

def injectRequestHeaders (state : CredentialBrokerState) (host : Str) (headers : HeaderMap η) :
    HeaderMap η :=
  let normalizedHost := normalizeHost host
  if !state.enabled then headers
  else
    match selectCredential http headers
        (state.credentials.filter fun record => record.matchesHost normalizedHost) with
    | none => headers
    | some record =>
      match record.provider.requestHeaderValue http record.realValue with
      | none => headers
      | some value => record.provider.insertRequestHeader headers value

end

end Codex.NetworkProxy
