import Codex.Base.Machine
import Codex.NetworkProxy.DummyValues
import Codex.Text.Json

/-!
# Credentials stay with their hosts

Whatever environments a broker has processed, its dummy values are new and differ, an
environment it returns holds no credential that it would still replace, and a request gets
the credential of its dummy value only for a host of that credential.
-/

namespace Codex.NetworkProxy

open Function List Codex.Text

/-- What `HeaderValue::from_str` promises: only visible ASCII is accepted. -/
def HeaderCodec.VisibleAscii {η : Type} (http : HeaderCodec η) : Prop :=
  ∀ value header, http.fromStr value = some header → ∀ c ∈ value, 32 ≤ c.toNat ∧ c.toNat ≤ 127

/-- The variables that hold credentials. -/
def credentialEnvVars : List Str :=
  (CredentialProvider.all.flatMap CredentialProvider.sources).flatMap CredentialSource.envVars

section

variable {η : Type} {http : HeaderCodec η} {provider : CredentialProvider} {realValue : Str}

/-! ## Dummy values as values of variables -/

theorem valuePrefix_head (provider : CredentialProvider) (value : Str) :
    ∃ c ∈ (provider.valuePrefix value).head?, c = 'g' ∨ c = 's' := by
  cases provider with
  | github =>
    show ∃ c ∈ (githubTokenPrefix value).head?, c = 'g' ∨ c = 's'
    unfold githubTokenPrefix
    cases hfind : githubTokenPrefixes.find? fun before => before.isPrefixOf value with
    | none => exact ⟨'g', rfl, Or.inl rfl⟩
    | some before =>
      have hall : githubTokenPrefixes.all (fun before => before.head? = some 'g') = true := by
        decide +kernel
      have hhead := all_eq_true.1 hall before (mem_of_find?_eq_some hfind)
      exact ⟨'g', of_decide_eq_true hhead, Or.inl rfl⟩
  | openai =>
    show ∃ c ∈ (openaiApiKeyPrefix value).head?, c = 'g' ∨ c = 's'
    unfold openaiApiKeyPrefix
    split
    · exact ⟨'s', rfl, Or.inr rfl⟩
    · next suffix hsuffix =>
      split
      · rw [stripPrefix_eq_some.1 hsuffix]
        exact ⟨'s', rfl, Or.inr rfl⟩
      · exact ⟨'s', rfl, Or.inr rfl⟩

theorem dummyValue_head (provider : CredentialProvider) (realValue : Str) (draws : Draws) :
    ∃ c ∈ (provider.dummyValue realValue draws).head?, c = 'g' ∨ c = 's' := by
  obtain ⟨c, hc, hcases⟩ := valuePrefix_head provider realValue
  refine ⟨c, ?_, hcases⟩
  rw [CredentialProvider.dummyValue, shapedDummyValue, head?_append, Option.mem_def.1 hc]
  rfl

theorem isWhitespace_of_alphanumeric {c : Char} (h : isAlphanumericByte c.toNat = true) :
    isWhitespace c = false := by
  simp only [isAlphanumericByte, Bool.or_eq_true, Bool.and_eq_true, decide_eq_true_eq] at h
  simp only [isWhitespace, Bool.or_eq_false_iff, Bool.and_eq_false_iff, decide_eq_false_iff_not,
    beq_eq_false_iff_ne]
  omega

theorem asBytes_of_ascii {s : Str} (h : ∀ c ∈ s, c.toNat ≤ 127) : asBytes s = s.map Char.toNat := by
  induction s with
  | nil => rfl
  | cons c s ih =>
    have hc : c.toNat < 0x80 := Nat.lt_succ_of_le (h c mem_cons_self)
    rw [asBytes_cons, ih fun d hd => h d (mem_cons_of_mem c hd), utf8Bytes, if_pos hc]
    rfl

/-- A dummy value of a trimmed credential of ASCII is trimmed. -/
theorem trim_dummyValue (hascii : ∀ c ∈ realValue, c.toNat ≤ 127)
    (hend : ∀ c, realValue.getLast? = some c → isWhitespace c = false) (draws : Draws) :
    trim (provider.dummyValue realValue draws) = provider.dummyValue realValue draws := by
  refine trim_of_ends ?_ ?_
  · obtain ⟨d, hd, hcases⟩ := dummyValue_head provider realValue draws
    intro c hc
    have hsame : c = d := Option.some_inj.1 (hc.symm.trans hd)
    rw [hsame]
    rcases hcases with rfl | rfl <;> decide
  · generalize hbefore : provider.valuePrefix realValue = before
    rw [CredentialProvider.dummyValue, hbefore, shapedDummyValue]
    have hlong : (asBytes realValue).length ≤ targetLen realValue before provider.minimumLen ∧
        (asBytes before).length + 16 ≤ targetLen realValue before provider.minimumLen := by
      unfold targetLen
      omega
    have hbytes := asBytes_of_ascii hascii
    intro c hc
    rw [Option.mem_def, getLast?_append, getLast?_map, getLast?_range',
      if_neg (by omega), Option.map_some, Option.some_or, Option.some.injEq] at hc
    rw [← hc]
    generalize hindex : (asBytes before).length +
      (targetLen realValue before provider.minimumLen - (asBytes before).length) - 1 = index
    cases hdrawn : ((asBytes realValue)[index]?).all isAlphanumericByte with
    | true =>
      rw [dummyChar_of_drawn hdrawn]
      exact isWhitespace_of_alphanumeric (drawnChar_alphanumeric _)
    | false =>
      obtain ⟨byte, hbyte, heq⟩ := dummyChar_of_copied hdrawn draws
      have hlt := (List.getElem?_eq_some_iff.1 hbyte).1
      have hlast : index = realValue.length - 1 := by
        rw [hbytes, length_map] at hlong hlt
        omega
      rw [hbytes, getElem?_map, hlast, ← getLast?_eq_getElem?] at hbyte
      obtain ⟨d, hd, rfl⟩ := Option.map_eq_some_iff.1 hbyte
      rw [heq, Char.ofNat_toNat]
      exact hend d hd

/-! ## Registrations -/

/-- What holds of a registered credential. -/
structure CredentialRecord.Valid (http : HeaderCodec η) (record : CredentialRecord) : Prop where
  ne_real : record.dummyValue ≠ record.realValue
  trimmed : trim record.dummyValue = record.dummyValue
  head : ∃ c ∈ record.dummyValue.head?, c = 'g' ∨ c = 's'
  accepted : (record.provider.requestHeaderValue http record.realValue).isSome = true

structure CredentialBrokerState.Valid (http : HeaderCodec η) (state : CredentialBrokerState) :
    Prop where
  enabled : state.enabled = true
  nodup : (state.credentials.map (·.dummyValue)).Nodup
  records : ∀ record ∈ state.credentials, record.Valid http

variable {state state' : CredentialBrokerState} {env : Env} {envVar value dummyValue : Str}
  {hostBinding : CredentialHostBinding} {rounds : List Draws}

theorem drawDummyValue_eq_some
    (h : state.drawDummyValue provider realValue rounds = some value) :
    ∃ draws, value = provider.dummyValue realValue draws ∧ value ≠ realValue ∧
      state.isDummyValue value = false := by
  induction rounds with
  | nil => cases h
  | cons draws rounds ih =>
    unfold CredentialBrokerState.drawDummyValue at h
    dsimp only at h
    split at h
    · next hfree =>
      cases h
      exact ⟨draws, rfl, hfree⟩
    · exact ih h

theorem isDummyValue_of_grows (hgrows : state.credentials <+: state'.credentials)
    (h : state.isDummyValue value = true) : state'.isDummyValue value = true := by
  obtain ⟨record, hmem, hvalue⟩ := any_eq_true.1 h
  exact any_eq_true.2 ⟨record, hgrows.subset hmem, hvalue⟩

/-- What a value to be replaced is. -/
theorem brokerable_eq_some
    (h : brokerableCredentialValue http env state envVar provider = some realValue) :
    ∃ value, env envVar = some value ∧ realValue = trim value ∧ realValue ≠ [] ∧
      state.isDummyValue realValue = false ∧
      (provider.requestHeaderValue http realValue).isSome = true := by
  unfold brokerableCredentialValue at h
  split at h
  · cases h
  · next value hvalue =>
    dsimp only at h
    split at h
    · next hcond =>
      cases h
      simp only [Bool.and_eq_true, Bool.not_eq_true'] at hcond
      exact ⟨value, hvalue, rfl, isEmpty_eq_false_iff.1 hcond.1.1, hcond.1.2, hcond.2⟩
    · cases h

/-- **A registration keeps the records valid and gives a dummy value of one of them.** -/
theorem register_valid (hhttp : http.VisibleAscii) (hvalid : state.Valid http)
    (hreal : brokerableCredentialValue http env state envVar provider = some realValue)
    (h : state.register envVar provider hostBinding realValue rounds = some (state', dummyValue)) :
    state'.Valid http ∧ state.credentials <+: state'.credentials ∧
      state'.isDummyValue dummyValue = true := by
  obtain ⟨value, -, htrim, -, -, haccepted⟩ := brokerable_eq_some hreal
  unfold CredentialBrokerState.register at h
  dsimp only at h
  split at h
  · next existing hexisting =>
    cases h
    refine ⟨hvalid, prefix_refl _, any_eq_true.2 ⟨existing, ?_, decide_eq_true rfl⟩⟩
    exact mem_of_find?_eq_some hexisting
  · obtain ⟨drawn, hdrawn, hresult⟩ := Option.map_eq_some_iff.1 h
    cases hresult
    obtain ⟨draws, hdraws, hne, hfree⟩ := drawDummyValue_eq_some hdrawn
    obtain ⟨header, hheader⟩ := Option.isSome_iff_exists.1 haccepted
    have hascii : ∀ c ∈ realValue, c.toNat ≤ 127 := fun c hc =>
      (hhttp _ header hheader c (mem_append_right _ hc)).2
    have hend : ∀ c, realValue.getLast? = some c → isWhitespace c = false := fun c hc =>
      getLast?_trim (htrim ▸ hc)
    refine ⟨⟨hvalid.enabled, ?_, ?_⟩, prefix_append _ _, ?_⟩
    · rw [map_append, map_singleton, nodup_append]
      refine ⟨hvalid.nodup, nodup_singleton _, fun a ha b hb heq => ?_⟩
      rw [mem_singleton.1 hb] at heq
      rw [heq] at ha
      exact Bool.false_ne_true (hfree.symm.trans (isDummyValue_iff.2 ha))
    · intro record hrecord
      rcases mem_append.1 hrecord with hold | hnew
      · exact hvalid.records record hold
      · rw [mem_singleton.1 hnew]
        refine ⟨hne, ?_, ?_, haccepted⟩
        · show trim dummyValue = dummyValue
          rw [hdraws]
          exact trim_dummyValue hascii hend draws
        · show ∃ c ∈ dummyValue.head?, c = 'g' ∨ c = 's'
          rw [hdraws]
          exact dummyValue_head provider realValue draws
    · rw [isDummyValue_iff, map_append]
      exact mem_append_right _ (mem_singleton_self _)

/-! ## Environments -/

/-- The variable holds nothing that would be replaced. -/
def Settled (http : HeaderCodec η) (child : Env × CredentialBrokerState) (envVar : Str) : Prop :=
  ∀ provider, brokerableCredentialValue http child.1 child.2 envVar provider = none

/-- From one environment and state to later ones: records are added, and variables of credentials
get dummy values. -/
structure Advance (http : HeaderCodec η) (child child' : Env × CredentialBrokerState) : Prop where
  valid : child'.2.Valid http
  grows : child.2.credentials <+: child'.2.credentials
  env : ∀ key, child'.1 key = child.1 key ∨
    key ∈ credentialEnvVars ∧ ∃ dummy, child'.1 key = some dummy ∧ child'.2.isDummyValue dummy = true

variable {child child' child'' : Env × CredentialBrokerState}

theorem Advance.refl (h : child.2.Valid http) : Advance http child child :=
  ⟨h, prefix_refl _, fun _ => Or.inl rfl⟩

theorem Advance.trans (h : Advance http child child') (h' : Advance http child' child'') :
    Advance http child child'' := by
  refine ⟨h'.valid, h.grows.trans h'.grows, fun key => ?_⟩
  rcases h'.env key with hsame | hdummy
  · rcases h.env key with hfirst | ⟨hkey, dummy, hvalue, hdummy⟩
    · exact Or.inl (hsame.trans hfirst)
    · exact Or.inr ⟨hkey, dummy, hsame.trans hvalue, isDummyValue_of_grows h'.grows hdummy⟩
  · exact Or.inr hdummy

/-- A dummy value is not replaced. -/
theorem settled_of_dummy (hvalid : child.2.Valid http) (hvalue : child.1 envVar = some value)
    (hdummy : child.2.isDummyValue value = true) : Settled http child envVar := by
  intro provider
  obtain ⟨record, hmem, heq⟩ := any_eq_true.1 hdummy
  have htrim : trim value = value := by
    rw [← of_decide_eq_true heq]
    exact (hvalid.records record hmem).trimmed
  unfold brokerableCredentialValue
  rw [hvalue]
  dsimp only
  rw [htrim, hdummy, Bool.not_true, Bool.and_false, Bool.false_and, if_neg Bool.false_ne_true]

/-- What holds nothing to replace keeps so while dummy values are added. -/
theorem Settled.of_same (h : Settled http child envVar) (hsame : child'.1 envVar = child.1 envVar)
    (hgrows : child.2.credentials <+: child'.2.credentials) : Settled http child' envVar := by
  intro provider
  have hnone := h provider
  unfold brokerableCredentialValue at hnone ⊢
  rw [hsame]
  split
  · rfl
  · next value hvalue =>
    rw [hvalue] at hnone
    dsimp only at hnone ⊢
    split at hnone
    · cases hnone
    · next hcond =>
      refine if_neg fun hlater => hcond ?_
      simp only [Bool.and_eq_true, Bool.not_eq_true'] at hlater ⊢
      refine ⟨⟨hlater.1.1, Bool.eq_false_iff.2 fun hdummy => ?_⟩, hlater.2⟩
      exact Bool.false_ne_true
        (hlater.1.2.symm.trans (isDummyValue_of_grows hgrows hdummy))

theorem Settled.advance (h : Settled http child envVar) (hadvance : Advance http child child') :
    Settled http child' envVar := by
  rcases hadvance.env envVar with hsame | ⟨-, dummy, hvalue, hdummy⟩
  · exact h.of_same hsame hadvance.grows
  · exact settled_of_dummy hadvance.valid hvalue hdummy

/-- **A variable that was looked at is settled.** -/
theorem virtualizeEnvVar_advance (hhttp : http.VisibleAscii) (hvalid : child.2.Valid http)
    (henvVar : envVar ∈ credentialEnvVars)
    (h : virtualizeEnvVar http child.1 child.2 envVar provider hostBinding rounds = some child') :
    Advance http child child' ∧ Settled http child' envVar := by
  unfold virtualizeEnvVar at h
  split at h
  · next hnone =>
    cases h
    -- which provider asks makes no difference
    exact ⟨Advance.refl hvalid, fun _ => hnone⟩
  · next real hreal =>
    obtain ⟨⟨state', dummy⟩, hregister, hchild⟩ := Option.map_eq_some_iff.1 h
    obtain ⟨hvalid', hgrows, hdummy⟩ := register_valid hhttp hvalid hreal hregister
    cases hchild
    have hvalue : child.1.insert envVar dummy envVar = some dummy := update_self _ _ _
    refine ⟨⟨hvalid', hgrows, fun key => ?_⟩, settled_of_dummy hvalid' hvalue hdummy⟩
    by_cases hkey : key = envVar
    · rw [hkey]
      exact Or.inr ⟨henvVar, dummy, hvalue, hdummy⟩
    · exact Or.inl (update_of_ne hkey _ _)

variable {source : CredentialSource}

theorem mem_credentialEnvVars (hprovider : provider ∈ CredentialProvider.all)
    (hsource : source ∈ provider.sources) (henvVar : envVar ∈ source.envVars) :
    envVar ∈ credentialEnvVars :=
  mem_flatMap.2 ⟨source, mem_flatMap.2 ⟨provider, hprovider, hsource⟩, henvVar⟩

/-- The hosts of a source depend on one variable. -/
theorem hostBinding_congr {env env' : Env} (hsource : source ∈ provider.sources)
    (hhost : env' ghHostEnvVar = env ghHostEnvVar) :
    source.hostBinding env' = source.hostBinding env := by
  cases provider with
  | github =>
    rcases mem_cons.1 hsource with rfl | hsource
    · rfl
    · cases mem_singleton.1 hsource
      show githubEnterpriseBinding env' = githubEnterpriseBinding env
      unfold githubEnterpriseBinding githubHostHint
      rw [hhost]
  | openai =>
    cases mem_singleton.1 hsource
    rfl

/-- Variables that hold no credentials keep their values. -/
theorem Advance.env_eq (h : Advance http child child') {key : Str} (hkey : key ∉ credentialEnvVars) :
    child'.1 key = child.1 key :=
  (h.env key).resolve_right fun hdummy => hkey hdummy.1

theorem ghHostEnvVar_notMem : ghHostEnvVar ∉ credentialEnvVars := by decide +kernel

/-- The variables of a source are settled where its hosts are known. -/
def SourceSettled (http : HeaderCodec η) (source : CredentialSource)
    (child : Env × CredentialBrokerState) : Prop :=
  source.hostBinding child.1 ≠ none → ∀ envVar ∈ source.envVars, Settled http child envVar

theorem virtualizeSource_advance {rng : Str → List Draws} (hhttp : http.VisibleAscii)
    (hprovider : provider ∈ CredentialProvider.all) (hsource : source ∈ provider.sources)
    (hvalid : child.2.Valid http)
    (h : virtualizeSource http rng provider child source = some child') :
    Advance http child child' ∧ SourceSettled http source child' := by
  unfold virtualizeSource at h
  split at h
  · next hnone =>
    cases h
    exact ⟨Advance.refl hvalid, fun hbinding => absurd hnone hbinding⟩
  · next binding hbinding =>
    obtain ⟨hadvance, hall⟩ := Machine.run_advances (fun child => child.2.Valid http)
      (Advance http) (fun envVar child => Settled http child envVar)
      (fun _ => Advance.refl) (fun _ _ _ => Advance.trans) (fun _ _ => Advance.valid)
      (fun _ _ _ _ hadvance hdone => hdone.advance hadvance)
      (fun envVar henvVar _ _ hgood hstep => virtualizeEnvVar_advance hhttp hgood
        (mem_credentialEnvVars hprovider hsource henvVar) hstep) hvalid h
    exact ⟨hadvance, fun _ => hall⟩

theorem SourceSettled.advance (hsource : source ∈ provider.sources)
    (h : SourceSettled http source child) (hadvance : Advance http child child') :
    SourceSettled http source child' := by
  intro hbinding envVar henvVar
  rw [hostBinding_congr hsource (hadvance.env_eq ghHostEnvVar_notMem)] at hbinding
  exact (h hbinding envVar henvVar).advance hadvance

/-- Every variable of an active source of any provider is settled. -/
def AllSettled (http : HeaderCodec η) (child : Env × CredentialBrokerState) : Prop :=
  ∀ provider ∈ CredentialProvider.all, ∀ source ∈ provider.sources, SourceSettled http source child

theorem virtualizeProviders_advance {rng : Str → List Draws} (hhttp : http.VisibleAscii)
    (hvalid : child.2.Valid http)
    (h : CredentialProvider.all.foldlM (fun child provider =>
      provider.sources.foldlM (virtualizeSource http rng provider) child) child = some child') :
    Advance http child child' ∧ AllSettled http child' := by
  refine Machine.run_advances (fun child => child.2.Valid http) (Advance http)
    (fun provider child => ∀ source ∈ provider.sources, SourceSettled http source child)
    (fun _ => Advance.refl) (fun _ _ _ => Advance.trans) (fun _ _ => Advance.valid) ?_ ?_ hvalid h
  · intro provider _ _ _ hadvance hdone source hsource
    exact (hdone source hsource).advance hsource hadvance
  · intro provider hprovider _ _ hgood hrun
    exact Machine.run_advances (fun child => child.2.Valid http) (Advance http)
      (fun source child => SourceSettled http source child)
      (fun _ => Advance.refl) (fun _ _ _ => Advance.trans) (fun _ _ => Advance.valid)
      (fun source hsource _ _ hadvance hdone => hdone.advance hsource hadvance)
      (fun source hsource _ _ hgood hstep =>
        virtualizeSource_advance hhttp hprovider hsource hgood hstep) hgood hrun

/-- Where everything is settled, nothing is done. -/
theorem virtualizeProviders_settled (rng : Str → List Draws) (h : AllSettled http child) :
    CredentialProvider.all.foldlM (fun child provider =>
      provider.sources.foldlM (virtualizeSource http rng provider) child) child = some child := by
  refine Machine.run_of_fixed fun provider hprovider => ?_
  refine Machine.run_of_fixed fun source hsource => ?_
  unfold virtualizeSource
  split
  · rfl
  · next binding hbinding =>
    refine Machine.run_of_fixed fun envVar henvVar => ?_
    have hne : source.hostBinding child.1 ≠ none := by
      rw [hbinding]
      exact Option.some_ne_none _
    unfold virtualizeEnvVar
    rw [h provider hprovider source hsource hne envVar henvVar provider]

/-- Other variables do not matter, and neither do more dummy values. -/
theorem AllSettled.of_same (h : AllSettled http child)
    (hsame : ∀ key ∈ ghHostEnvVar :: credentialEnvVars, child'.1 key = child.1 key)
    (hgrows : child.2.credentials <+: child'.2.credentials) : AllSettled http child' := by
  intro provider hprovider source hsource hbinding envVar henvVar
  rw [hostBinding_congr hsource (hsame _ mem_cons_self)] at hbinding
  have hkey := mem_credentialEnvVars hprovider hsource henvVar
  exact (h provider hprovider source hsource hbinding envVar henvVar).of_same
    (hsame envVar (mem_cons_of_mem _ hkey)) hgrows

/-! ## Calls -/

variable {toJson : List (Str × Str) → Option Str} {rng : Str → List Draws} {env' : Env}

theorem updateMarker_of_ne {key : Str} (hkey : key ≠ brokeredCredentialsEnvKey) :
    updateBrokeredCredentialsMarker toJson state env key = env key := by
  unfold updateBrokeredCredentialsMarker
  cases toJson (brokeredCredentials state env) with
  | none | some marker => exact update_of_ne hkey _ _

/-- The marker is written from the other variables. -/
theorem updateMarker_updateMarker :
    updateBrokeredCredentialsMarker toJson state (updateBrokeredCredentialsMarker toJson state env) =
      updateBrokeredCredentialsMarker toJson state env := by
  have hmarker : brokeredCredentialsEnvKey ∉ credentialBrokerEnvKeys := by decide +kernel
  have hsame : brokeredCredentials state (updateBrokeredCredentialsMarker toJson state env) =
      brokeredCredentials state env := by
    refine filterMap_congr fun key hkey => ?_
    rw [updateMarker_of_ne fun heq => hmarker (heq ▸ hkey)]
  conv_lhs => rw [updateBrokeredCredentialsMarker, hsame]
  unfold updateBrokeredCredentialsMarker
  split
  · exact update_idem _ _ _
  · exact update_idem _ _ _

/-- **A call**: the records grow, and the environment is settled. -/
theorem virtualizeChildEnv_eq_some (hhttp : http.VisibleAscii) (hvalid : state.Valid http)
    (h : virtualizeChildEnv http toJson state env rng = some (env', state')) :
    state'.Valid http ∧ state.credentials <+: state'.credentials ∧
      AllSettled http (env', state') ∧
      env' credentialBrokerActiveEnvKey = some "1".toList ∧
      updateBrokeredCredentialsMarker toJson state' env' = env' := by
  unfold virtualizeChildEnv at h
  rw [hvalid.enabled, Bool.not_true, if_neg Bool.false_ne_true] at h
  obtain ⟨⟨env₁, state₁⟩, hrun, hresult⟩ := Option.map_eq_some_iff.1 h
  cases hresult
  obtain ⟨hadvance, hall⟩ := virtualizeProviders_advance hhttp hvalid hrun
  refine ⟨hadvance.valid, hadvance.grows, hall.of_same ?_ (prefix_refl _), ?_,
    updateMarker_updateMarker⟩
  · have hmarker : brokeredCredentialsEnvKey ∉ ghHostEnvVar :: credentialEnvVars := by decide +kernel
    exact fun key hkey => updateMarker_of_ne fun heq => hmarker (heq ▸ hkey)
  · have hactive : credentialBrokerActiveEnvKey ∉ credentialEnvVars := by decide +kernel
    have hset : env.insert credentialBrokerActiveEnvKey "1".toList credentialBrokerActiveEnvKey =
        some "1".toList := update_self _ _ _
    rw [updateMarker_of_ne (by decide +kernel)]
    exact (hadvance.env_eq hactive).trans hset

/-- A settled environment only gets its marker written again. -/
theorem virtualizeChildEnv_settled (toJson : List (Str × Str) → Option Str)
    (hvalid : state.Valid http) (hall : AllSettled http (env, state))
    (hactive : env credentialBrokerActiveEnvKey = some "1".toList) (rng : Str → List Draws) :
    virtualizeChildEnv http toJson state env rng =
      some (updateBrokeredCredentialsMarker toJson state env, state) := by
  have hinsert : env.insert credentialBrokerActiveEnvKey "1".toList = env := by
    unfold Env.insert
    rw [← hactive]
    exact update_eq_self _ _
  unfold virtualizeChildEnv
  rw [hvalid.enabled, Bool.not_true, if_neg Bool.false_ne_true, hinsert,
    virtualizeProviders_settled rng hall]
  rfl

/-- A later state of the same broker. -/
structure LaterState (http : HeaderCodec η) (state later : CredentialBrokerState) : Prop where
  valid : later.Valid http
  grows : state.credentials <+: later.credentials

theorem virtualizeAll_later {calls : List (Env × (Str → List Draws))} (hhttp : http.VisibleAscii)
    (hvalid : state.Valid http) (h : virtualizeAll http toJson state calls = some state') :
    LaterState http state state' := by
  have hfirst : LaterState http state state := ⟨hvalid, prefix_refl _⟩
  refine Machine.run_invariant ?_ hfirst h
  intro now call next hnow hcall
  obtain ⟨⟨env', next'⟩, hchild, rfl⟩ := Option.map_eq_some_iff.1 hcall
  obtain ⟨hnext, hgrows, -⟩ := virtualizeChildEnv_eq_some hhttp hnow.valid hchild
  exact ⟨hnext, hnow.grows.trans hgrows⟩

/-! ## Requests -/

/-- What begins with a letter that the front does not have is in the rest. -/
theorem infix_of_head_notMem {front t rest : Str} {c : Char} (hc : c ∈ t.head?) (hnot : c ∉ front)
    (h : t <:+: front ++ rest) : t <:+: rest := by
  induction front with
  | nil => exact h
  | cons d front ih =>
    rw [mem_cons, not_or] at hnot
    rcases infix_cons_iff.1 h with hfront | hinside
    · cases t with
      | nil => cases hc
      | cons e t =>
        rw [cons_prefix_cons] at hfront
        exact absurd (Option.some_inj.1 (Option.mem_def.1 hc) ▸ hfront.1) hnot.1
    · exact ih hnot.2 hinside

variable {headers : HeaderMap η} {record : CredentialRecord}

section Bearer

variable (hvalid : state.Valid http)
  (hdistinct : ∀ r ∈ state.credentials, ∀ r' ∈ state.credentials,
    r.dummyValue <:+: r'.dummyValue → r.dummyValue = r'.dummyValue)
  (hrecord : record ∈ state.credentials)

include hvalid hdistinct hrecord

/-- A request with a dummy value shows the dummy value of no other credential. -/
theorem shown_iff {r : CredentialRecord} (hr : r ∈ state.credentials) :
    r.dummyValue <:+: "Bearer ".toList ++ record.dummyValue ↔ r = record := by
  constructor
  · intro hshown
    obtain ⟨c, hc, hcases⟩ := (hvalid.records r hr).head
    have hnot : c ∉ "Bearer ".toList := by
      rcases hcases with rfl | rfl <;> decide
    have hsame := hdistinct r hr record hrecord (infix_of_head_notMem hc hnot hshown)
    exact inj_on_of_nodup_map hvalid.nodup hr hrecord hsame
  · rintro rfl
    exact (suffix_append _ _).isInfix

variable (hheader : (headers.get authorization).bind http.toStr =
  some ("Bearer ".toList ++ record.dummyValue))

include hheader

theorem selectCredential_bearer (host : Str) :
    selectCredential http headers (state.credentials.filter fun r => r.matchesHost host) =
      if record.matchesHost host then some record else none := by
  obtain ⟨value, hvalue, hstr⟩ := Option.bind_eq_some_iff.1 hheader
  have hmatches : ((state.credentials.filter fun r => r.matchesHost host).filter fun r =>
      (r.provider.requestHeader headers).any fun value =>
        (http.toStr value).any fun value => decide (r.dummyValue <:+: value)) =
      (state.credentials.filter fun r => r.matchesHost host).filter (· = record) := by
    refine filter_congr fun r hr => ?_
    have hmem := (mem_filter.1 hr).1
    rw [CredentialProvider.requestHeader, hvalue, Option.any_some, hstr, Option.any_some]
    exact decide_eq_decide.2 (shown_iff hvalid hdistinct hrecord hmem)
  have hnodup : (state.credentials.filter fun r => r.matchesHost host).Nodup :=
    List.Nodup.filter _ (List.Nodup.of_map _ hvalid.nodup)
  unfold selectCredential
  dsimp only
  rw [hmatches, filter_eq]
  split_ifs with hhost
  · rw [count_eq_one_of_mem hnodup (mem_filter.2 ⟨hrecord, hhost⟩)]
    rfl
  · have hnot : record ∉ state.credentials.filter fun r => r.matchesHost host :=
      fun hmem => hhost (mem_filter.1 hmem).2
    rw [count_eq_zero_of_not_mem hnot]
    rfl

/-- **A request with a dummy value gets its credential exactly for the hosts of it.** -/
theorem injectRequestHeaders_bearer (host : Str) :
    (record.matchesHost (normalizeHost host) = true → ∃ value,
      http.fromStr ("Bearer ".toList ++ record.realValue) = some value ∧
      injectRequestHeaders http state host headers = headers.insert authorization value) ∧
    (record.matchesHost (normalizeHost host) = false →
      injectRequestHeaders http state host headers = headers) := by
  have hselect := selectCredential_bearer hvalid hdistinct hrecord hheader (normalizeHost host)
  obtain ⟨value, hvalue⟩ := Option.isSome_iff_exists.1 (hvalid.records record hrecord).accepted
  unfold injectRequestHeaders
  dsimp only
  rw [hvalid.enabled, Bool.not_true, if_neg Bool.false_ne_true, hselect]
  constructor
  · intro hhost
    refine ⟨value, hvalue, ?_⟩
    rw [hhost, if_pos rfl]
    dsimp only
    rw [hvalue]
    rfl
  · intro hhost
    rw [hhost, if_neg Bool.false_ne_true]

end Bearer

/-! ## Every history of registrations -/

/-- **Isolation.** After any calls, dummy values are distinct and differ from their credentials; an
environment that was processed holds nothing to replace, then and later, and stays as it is; and a
request with a dummy value gets the credential of its record exactly for the hosts of it. -/
theorem credentialBroker_isolates (http : HeaderCodec η) (toJson : List (Str × Str) → Option Str)
    (hhttp : http.VisibleAscii) {calls : List (Env × (Str → List Draws))}
    {state : CredentialBrokerState} (h : virtualizeAll http toJson ⟨true, []⟩ calls = some state) :
    ((state.credentials.map (·.dummyValue)).Nodup ∧
      ∀ record ∈ state.credentials, record.dummyValue ≠ record.realValue) ∧
    (∀ env rng env' state', virtualizeChildEnv http toJson state env rng = some (env', state') →
      (∀ rng', virtualizeChildEnv http toJson state' env' rng' = some (env', state')) ∧
      ∀ more later, virtualizeAll http toJson state' more = some later →
        (∀ provider ∈ CredentialProvider.all, ∀ source ∈ provider.sources,
          source.hostBinding env' ≠ none → ∀ envVar ∈ source.envVars,
            brokerableCredentialValue http env' later envVar provider = none) ∧
        ∀ rng', virtualizeChildEnv http toJson later env' rng' =
          some (updateBrokeredCredentialsMarker toJson later env', later)) ∧
    ((∀ r ∈ state.credentials, ∀ r' ∈ state.credentials,
        r.dummyValue <:+: r'.dummyValue → r.dummyValue = r'.dummyValue) →
      ∀ record ∈ state.credentials, ∀ host (headers : HeaderMap η),
        (headers.get authorization).bind http.toStr =
          some ("Bearer ".toList ++ record.dummyValue) →
        (record.matchesHost (normalizeHost host) = true → ∃ value,
          http.fromStr ("Bearer ".toList ++ record.realValue) = some value ∧
          injectRequestHeaders http state host headers = headers.insert authorization value) ∧
        (record.matchesHost (normalizeHost host) = false →
          injectRequestHeaders http state host headers = headers)) := by
  have hinit : (CredentialBrokerState.mk true []).Valid http := ⟨rfl, nodup_nil, nofun⟩
  have hvalid := (virtualizeAll_later hhttp hinit h).valid
  refine ⟨⟨hvalid.nodup, fun record hrecord => (hvalid.records record hrecord).ne_real⟩, ?_, ?_⟩
  · intro env rng env' state' hchild
    obtain ⟨hvalid', -, hall, hactive, hmarker⟩ := virtualizeChildEnv_eq_some hhttp hvalid hchild
    refine ⟨fun rng' => ?_, fun more later hmore => ?_⟩
    · have hagain := virtualizeChildEnv_settled toJson hvalid' hall hactive rng'
      rwa [hmarker] at hagain
    · have hlater := virtualizeAll_later hhttp hvalid' hmore
      have hall' : AllSettled http (env', later) := hall.of_same (fun _ _ => rfl) hlater.grows
      refine ⟨fun provider hprovider source hsource hbinding envVar henvVar => ?_, fun rng' => ?_⟩
      · exact hall' provider hprovider source hsource hbinding envVar henvVar provider
      · exact virtualizeChildEnv_settled toJson hlater.valid hall' hactive rng'
  · intro hdistinct record hrecord host headers hheader
    exact injectRequestHeaders_bearer hvalid hdistinct hrecord hheader host

theorem visibleAsciiCodec_visibleAscii : visibleAsciiCodec.VisibleAscii := by
  intro value header h c hc
  unfold visibleAsciiCodec at h
  dsimp only at h
  split at h
  · next hall =>
    have hbounds := all_eq_true.1 hall c hc
    rw [Bool.and_eq_true, decide_eq_true_eq, decide_eq_true_eq] at hbounds
    omega
  · cases h

/-- The JSON of pairs. -/
def jsonPairs (pairs : List (Str × Str)) : Option Str :=
  some ('[' :: List.intercalate [',']
    (pairs.map fun (key, value) => '[' :: jsonString key ++ ',' :: jsonString value ++ [']']) ++ [']'])

def githubTokenRecord : CredentialRecord :=
  ⟨"GH_TOKEN".toList, .github, .hostPattern githubCloudHosts githubCloudHostSuffixes,
    "ghp_".toList ++ List.replicate 36 'b', "ghp_".toList ++ List.replicate 36 'A'⟩

/-- A GitHub token goes to GitHub and to no other host. -/
theorem credentialBroker_isolates_github :
    (injectRequestHeaders visibleAsciiCodec ⟨true, [githubTokenRecord]⟩ "API.github.com".toList
      (fun _ => ["Bearer ".toList ++ githubTokenRecord.dummyValue])).get authorization =
        some ("Bearer ".toList ++ githubTokenRecord.realValue) ∧
    injectRequestHeaders visibleAsciiCodec ⟨true, [githubTokenRecord]⟩ "example.com".toList
      (fun _ => ["Bearer ".toList ++ githubTokenRecord.dummyValue]) =
        fun _ => ["Bearer ".toList ++ githubTokenRecord.dummyValue] := by
  have hrun : virtualizeAll visibleAsciiCodec jsonPairs ⟨true, []⟩
      [(Env.insert (fun _ => none) "GH_TOKEN".toList githubTokenRecord.realValue,
        fun _ => [fun _ => 0])] = some ⟨true, [githubTokenRecord]⟩ := by decide +kernel
  obtain ⟨-, -, hrequests⟩ := credentialBroker_isolates visibleAsciiCodec jsonPairs
    visibleAsciiCodec_visibleAscii hrun
  have hdistinct : ∀ r ∈ [githubTokenRecord], ∀ r' ∈ [githubTokenRecord],
      r.dummyValue <:+: r'.dummyValue → r.dummyValue = r'.dummyValue := by
    intro r hr r' hr' _
    rw [mem_singleton.1 hr, mem_singleton.1 hr']
  have hrecord := fun host => hrequests hdistinct githubTokenRecord (mem_singleton_self _) host
    (fun _ => ["Bearer ".toList ++ githubTokenRecord.dummyValue]) rfl
  obtain ⟨value, hvalue, hinject⟩ := (hrecord "API.github.com".toList).1 (by decide +kernel)
  have hsame : value = "Bearer ".toList ++ githubTokenRecord.realValue :=
    Option.some_inj.1 (hvalue.symm.trans (by decide +kernel))
  refine ⟨?_, (hrecord "example.com".toList).2 (by decide +kernel)⟩
  rw [hinject, hsame]
  rfl

end

end Codex.NetworkProxy
