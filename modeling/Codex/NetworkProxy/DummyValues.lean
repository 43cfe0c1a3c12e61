import Codex.NetworkProxy.CredentialBroker
import Mathlib.Data.Fintype.Card
import Mathlib.Data.Fintype.Prod
import Mathlib.Data.List.Nodup

/-!
# Dummy values that can be drawn

A dummy value copies what is no letter and no digit from its credential, so how many
candidates there are depends on the credential. Whether `register` can always find a free one
is decided by the indices at which it draws.
-/

namespace Codex.NetworkProxy

open List Codex.Text

/-- The indices of a dummy value at which the generator is asked. -/
def drawnIndices (realValue before : Str) (minimumLen : ℕ) : List ℕ :=
  (List.range' (asBytes before).length
    (targetLen realValue before minimumLen - (asBytes before).length)).filter fun index =>
      ((asBytes realValue)[index]?).all isAlphanumericByte

/-- A credential that could be a dummy value for itself. -/
def HasDummyShape (realValue before : Str) (minimumLen : ℕ) : Prop :=
  before <+: realValue ∧ targetLen realValue before minimumLen = (asBytes realValue).length ∧
    ∀ byte ∈ (asBytes realValue).drop (asBytes before).length, byte < 0x80

variable {realValue before : Str} {minimumLen index : ℕ} {draws draws' : Draws}

/-! ## The alphabet -/

/-- The letters and digits as code points. -/
theorem dummyAlphanumeric_codes : dummyAlphanumeric.map Char.toNat =
    List.range' 0x41 26 ++ List.range' 0x61 26 ++ List.range' 0x30 10 := by
  have hchars : dummyAlphanumeric = _ := String.toList_ofList
  rw [hchars]
  rfl

theorem mem_codes {byte : ℕ} :
    byte ∈ dummyAlphanumeric.map Char.toNat ↔ isAlphanumericByte byte = true := by
  rw [dummyAlphanumeric_codes, mem_append, mem_append, mem_range'_1,
    mem_range'_1, mem_range'_1]
  simp only [isAlphanumericByte, Bool.or_eq_true, Bool.and_eq_true, decide_eq_true_eq]
  omega

theorem length_dummyAlphanumeric : dummyAlphanumeric.length = 62 := by
  rw [← length_map Char.toNat, dummyAlphanumeric_codes]
  rfl

theorem drawnChar_eq (draw : Fin 62) :
    drawnChar draw = dummyAlphanumeric.get (draw.cast length_dummyAlphanumeric.symm) := (rfl)

theorem drawnChar_injective : Function.Injective drawnChar := by
  intro draw draw' h
  have hnodup : (dummyAlphanumeric.map Char.toNat).Nodup := by
    rw [dummyAlphanumeric_codes]
    decide +kernel
  rw [drawnChar_eq, drawnChar_eq] at h
  exact Fin.cast_injective _ (nodup_iff_injective_get.1 (List.Nodup.of_map _ hnodup) h)

theorem drawnChar_alphanumeric (draw : Fin 62) :
    isAlphanumericByte (drawnChar draw).toNat = true := by
  rw [← mem_codes, drawnChar_eq]
  exact mem_map_of_mem (get_mem _ _)

theorem exists_drawnChar {byte : ℕ} (h : isAlphanumericByte byte = true) :
    ∃ draw, drawnChar draw = Char.ofNat byte := by
  obtain ⟨c, hc, hbyte⟩ := mem_map.1 (mem_codes.2 h)
  obtain ⟨draw, hdraw⟩ := mem_iff_get.1 hc
  refine ⟨draw.cast length_dummyAlphanumeric, ?_⟩
  rw [drawnChar_eq, ← hbyte, Char.ofNat_toNat, ← hdraw, Fin.cast_cast, Fin.cast_eq_self]

/-! ## Candidates -/

theorem dummyChar_of_drawn (h : ((asBytes realValue)[index]?).all isAlphanumericByte = true)
    (draws : Draws) : dummyChar realValue draws index = drawnChar (draws index) := by
  unfold dummyChar
  cases hbyte : (asBytes realValue)[index]? with
  | none => rfl
  | some byte =>
    rw [hbyte, Option.all_some] at h
    dsimp only
    rw [h, Bool.not_true, if_neg Bool.false_ne_true]

theorem dummyChar_of_copied (h : ((asBytes realValue)[index]?).all isAlphanumericByte = false)
    (draws : Draws) :
    ∃ byte, (asBytes realValue)[index]? = some byte ∧
      dummyChar realValue draws index = Char.ofNat byte := by
  cases hbyte : (asBytes realValue)[index]? with
  | none =>
    rw [hbyte] at h
    cases h
  | some byte =>
    rw [hbyte, Option.all_some] at h
    refine ⟨byte, rfl, ?_⟩
    unfold dummyChar
    rw [hbyte]
    dsimp only
    rw [h, Bool.not_false, if_pos rfl]

/-- Two candidates are the same exactly when the same was drawn. -/
theorem shapedDummyValue_eq_iff :
    shapedDummyValue realValue before minimumLen draws =
        shapedDummyValue realValue before minimumLen draws' ↔
      ∀ index ∈ drawnIndices realValue before minimumLen, draws index = draws' index := by
  rw [shapedDummyValue, shapedDummyValue, append_cancel_left_eq, map_inj_left]
  constructor
  · intro h index hindex
    obtain ⟨hrange, hdrawn⟩ := mem_filter.1 hindex
    have heq := h index hrange
    rw [dummyChar_of_drawn hdrawn, dummyChar_of_drawn hdrawn] at heq
    exact drawnChar_injective heq
  · intro h index hrange
    cases hdrawn : ((asBytes realValue)[index]?).all isAlphanumericByte with
    | true =>
      rw [dummyChar_of_drawn hdrawn, dummyChar_of_drawn hdrawn,
        h index (mem_filter.2 ⟨hrange, hdrawn⟩)]
    | false =>
      obtain ⟨byte, hbyte, heq⟩ := dummyChar_of_copied hdrawn draws
      obtain ⟨byte', hbyte', heq'⟩ := dummyChar_of_copied hdrawn draws'
      rw [hbyte] at hbyte'
      cases hbyte'
      rw [heq, heq']

/-! ## Credentials of their own dummy's shape -/

theorem asBytes_of_lt {s : Str} (h : ∀ byte ∈ asBytes s, byte < 0x80) :
    asBytes s = s.map Char.toNat := by
  induction s with
  | nil => rfl
  | cons c s ih =>
    rw [asBytes_cons] at h ⊢
    rw [ih fun byte hbyte => h byte (mem_append_right _ hbyte)]
    rcases utf8Bytes_cases c with ⟨-, hbytes⟩ | ⟨lead, sequence, bytes, hbytes, hlead, -⟩
    · rw [hbytes]
      rfl
    · have hlt := h lead (mem_append_left _ (hbytes ▸ mem_cons_self))
      have hcases := utf8Lead_cases (congrArg Prod.snd hlead)
      omega

theorem length_le_asBytes (s : Str) : s.length ≤ (asBytes s).length := by
  induction s with
  | nil => exact Nat.le_refl 0
  | cons c s ih =>
    have hpos := length_pos_of_ne_nil (utf8Bytes_ne_nil c)
    rw [asBytes_cons, length_append, length_cons]
    omega

/-- A text of as many bytes as characters is ASCII. -/
theorem asBytes_lt_of_length {s : Str} (h : (asBytes s).length ≤ s.length) :
    ∀ byte ∈ asBytes s, byte < 0x80 := by
  induction s with
  | nil => exact nofun
  | cons c s ih =>
    have hle := length_le_asBytes s
    rw [asBytes_cons, length_append, length_cons] at h
    rw [asBytes_cons]
    rcases utf8Bytes_cases c with ⟨hone, hbytes⟩ | ⟨lead, sequence, bytes, hbytes, -, htail⟩
    · rw [hbytes, length_singleton] at h
      rw [hbytes]
      exact forall_mem_cons.2 ⟨hone, ih (by omega)⟩
    · have hpos : 0 < bytes.length := by cases htail <;> exact Nat.succ_pos _
      rw [hbytes, length_cons] at h
      omega

/-- **The credentials that can be drawn for themselves.** -/
theorem exists_shapedDummyValue_eq_iff :
    (∃ draws, shapedDummyValue realValue before minimumLen draws = realValue) ↔
      HasDummyShape realValue before minimumLen := by
  have hlong : (asBytes realValue).length ≤ targetLen realValue before minimumLen := by
    unfold targetLen
    omega
  constructor
  · rintro ⟨draws, hdraws⟩
    have hsplit := congrArg asBytes hdraws
    rw [shapedDummyValue, asBytes_append] at hsplit
    generalize hrest : (List.range' (asBytes before).length
      (targetLen realValue before minimumLen - (asBytes before).length)).map
        (dummyChar realValue draws) = rest at hsplit
    have hlen : rest.length =
        targetLen realValue before minimumLen - (asBytes before).length := by
      rw [← hrest, length_map, length_range']
    have hle := length_le_asBytes rest
    have hsum := congrArg List.length hsplit
    rw [length_append] at hsum
    refine ⟨⟨rest, ?_⟩, by omega, ?_⟩
    · rw [← hrest]
      exact hdraws
    · rw [← hsplit, drop_left]
      exact asBytes_lt_of_length (by omega)
  · rintro ⟨⟨rest, hrest⟩, hlen, hascii⟩
    have hbytes : asBytes realValue = asBytes before ++ asBytes rest := by
      rw [← hrest, asBytes_append]
    rw [hbytes, drop_left] at hascii
    rw [asBytes_of_lt hascii] at hbytes
    have hdraw : ∀ index : ℕ, ∃ draw : Fin 62, ∀ byte : ℕ, (asBytes realValue)[index]? = some byte →
        isAlphanumericByte byte = true → drawnChar draw = Char.ofNat byte := by
      intro index
      by_cases hbyte : ∃ byte, (asBytes realValue)[index]? = some byte ∧
          isAlphanumericByte byte = true
      · obtain ⟨byte, hbyte, hdrawn⟩ := hbyte
        obtain ⟨draw, hdraw⟩ := exists_drawnChar hdrawn
        refine ⟨draw, fun byte' hbyte' _ => ?_⟩
        rw [hbyte] at hbyte'
        cases hbyte'
        exact hdraw
      · exact ⟨0, fun byte hsome hdrawn => absurd ⟨byte, hsome, hdrawn⟩ hbyte⟩
    choose draws hdraws using hdraw
    refine ⟨draws, ?_⟩
    have hcount : targetLen realValue before minimumLen - (asBytes before).length = rest.length := by
      rw [hlen, hbytes, length_append, length_map]
      omega
    have hrestored : (List.range' (asBytes before).length rest.length).map
        (dummyChar realValue draws) = rest := by
      refine ext_getElem (by rw [length_map, length_range']) fun j hj hj' => ?_
      have hbyte : (asBytes realValue)[(asBytes before).length + j]? = some rest[j].toNat := by
        rw [hbytes, getElem?_append_right (Nat.le_add_right _ _), Nat.add_sub_cancel_left,
          getElem?_map, getElem?_eq_getElem hj']
        rfl
      rw [getElem_map, getElem_range', Nat.one_mul]
      cases hdrawn : isAlphanumericByte rest[j].toNat with
      | true =>
        rw [dummyChar_of_drawn (by rw [hbyte]; exact hdrawn), hdraws _ _ hbyte hdrawn,
          Char.ofNat_toNat]
      | false =>
        obtain ⟨byte, hbyte', heq⟩ :=
          dummyChar_of_copied (by rw [hbyte]; exact hdrawn) draws
        rw [hbyte] at hbyte'
        cases hbyte'
        rw [heq, Char.ofNat_toNat]
    rw [shapedDummyValue, hcount, hrestored, hrest]

/-! ## Free candidates -/

/-- What the loop of `register` needs: however few values are taken, a candidate is free. -/
def AlwaysFree (realValue before : Str) (minimumLen : ℕ) : Prop :=
  ∀ taken : Finset Str, taken.card < 62 → ∃ draws,
    shapedDummyValue realValue before minimumLen draws ≠ realValue ∧
      shapedDummyValue realValue before minimumLen draws ∉ taken

/-- More values can be drawn than are taken. -/
theorem exists_draws_notMem {α : Type} [Fintype α] {f : α → Draws} (taken : Finset Str)
    (hinj : Function.Injective fun a => shapedDummyValue realValue before minimumLen (f a))
    (hcard : taken.card < Fintype.card α) :
    ∃ draws, shapedDummyValue realValue before minimumLen draws ∉ taken := by
  have hlt : taken.card < (Finset.univ.image fun a =>
      shapedDummyValue realValue before minimumLen (f a)).card := by
    rw [Finset.card_image_of_injective _ hinj, Finset.card_univ]
    exact hcard
  obtain ⟨value, hvalue, hnot⟩ := Finset.exists_mem_notMem_of_card_lt_card hlt
  obtain ⟨a, -, rfl⟩ := Finset.mem_image.1 hvalue
  exact ⟨f a, hnot⟩

/-- Two drawn indices leave more candidates than can be taken. -/
theorem alwaysFree_of_two (h : 2 ≤ (drawnIndices realValue before minimumLen).length) :
    AlwaysFree realValue before minimumLen := by
  intro taken hcard
  have hnodup : (drawnIndices realValue before minimumLen).Nodup :=
    List.Nodup.filter _ nodup_range'
  obtain ⟨p, q, rest, hindices⟩ : ∃ p q rest,
      drawnIndices realValue before minimumLen = p :: q :: rest := by
    cases hindices : drawnIndices realValue before minimumLen with
    | nil =>
      rw [hindices] at h
      exact absurd h (by decide)
    | cons p indices =>
      cases indices with
      | nil =>
        rw [hindices] at h
        exact absurd h (by decide : ¬2 ≤ 1)
      | cons q rest => exact ⟨p, q, rest, rfl⟩
  rw [hindices] at hnodup
  have hne : q ≠ p := fun heq => (nodup_cons.1 hnodup).1 (heq ▸ mem_cons_self)
  have hinj : Function.Injective fun pair : Fin 62 × Fin 62 =>
      shapedDummyValue realValue before minimumLen fun index =>
        if index = p then pair.1 else pair.2 := by
    intro pair pair' heq
    have hdraws := shapedDummyValue_eq_iff.1 heq
    rw [hindices] at hdraws
    have hp := hdraws p mem_cons_self
    have hq := hdraws q (mem_cons_of_mem p mem_cons_self)
    rw [if_pos rfl, if_pos rfl] at hp
    rw [if_neg hne, if_neg hne] at hq
    exact Prod.ext hp hq
  obtain ⟨draws, hdraws⟩ := exists_draws_notMem (insert realValue taken) hinj (by
    have hle := Finset.card_insert_le realValue taken
    rw [Fintype.card_prod, Fintype.card_fin]
    omega)
  rw [Finset.mem_insert, not_or] at hdraws
  exact ⟨draws, hdraws⟩

/-- With one drawn index, 62 values can be drawn. -/
theorem shapedDummyValue_of_one {p : ℕ}
    (hindices : drawnIndices realValue before minimumLen = [p]) :
    (Function.Injective fun draw : Fin 62 =>
      shapedDummyValue realValue before minimumLen fun _ => draw) ∧
    ∀ draws, shapedDummyValue realValue before minimumLen draws =
      shapedDummyValue realValue before minimumLen fun _ => draws p := by
  refine ⟨fun draw draw' heq => ?_, fun draws => shapedDummyValue_eq_iff.2 ?_⟩
  · have hdraws := shapedDummyValue_eq_iff.1 heq
    rw [hindices] at hdraws
    exact hdraws p mem_cons_self
  · rw [hindices]
    exact forall_mem_singleton.2 rfl

theorem alwaysFree_of_one {p : ℕ} (hindices : drawnIndices realValue before minimumLen = [p]) :
    AlwaysFree realValue before minimumLen ↔ ¬HasDummyShape realValue before minimumLen := by
  obtain ⟨hinj, hall⟩ := shapedDummyValue_of_one hindices
  constructor
  · intro hfree hshape
    -- all candidates but the credential itself are taken
    obtain ⟨draws, hdraws⟩ := exists_shapedDummyValue_eq_iff.2 hshape
    obtain ⟨draws', hne, hnot⟩ := hfree ((Finset.univ.image fun draw : Fin 62 =>
      shapedDummyValue realValue before minimumLen fun _ => draw).erase realValue) (by
        rw [Finset.card_erase_of_mem (Finset.mem_image.2
            ⟨draws p, Finset.mem_univ _, (hall draws).symm.trans hdraws⟩),
          Finset.card_image_of_injective _ hinj, Finset.card_univ, Fintype.card_fin]
        decide)
    refine hnot (Finset.mem_erase.2 ⟨hne, Finset.mem_image.2 ⟨draws' p, Finset.mem_univ _, ?_⟩⟩)
    exact (hall draws').symm
  · intro hshape taken hcard
    obtain ⟨draws, hnot⟩ := exists_draws_notMem taken hinj (by rwa [Fintype.card_fin])
    exact ⟨draws, fun heq => hshape (exists_shapedDummyValue_eq_iff.1 ⟨draws, heq⟩), hnot⟩

/-- Where nothing is drawn there is one candidate. -/
theorem not_alwaysFree_of_nil (hindices : drawnIndices realValue before minimumLen = []) :
    ¬AlwaysFree realValue before minimumLen := by
  intro hfree
  obtain ⟨draws, -, hnot⟩ :=
    hfree {shapedDummyValue realValue before minimumLen fun _ => 0}
      (by rw [Finset.card_singleton]; decide)
  refine hnot (Finset.mem_singleton.2 (shapedDummyValue_eq_iff.2 ?_))
  rw [hindices]
  exact nofun

theorem alwaysFree_iff : AlwaysFree realValue before minimumLen ↔
    2 ≤ (drawnIndices realValue before minimumLen).length ∨
      (drawnIndices realValue before minimumLen).length = 1 ∧
        ¬HasDummyShape realValue before minimumLen := by
  match hindices : drawnIndices realValue before minimumLen with
  | [] =>
    refine iff_of_false (not_alwaysFree_of_nil hindices) ?_
    rintro (h | ⟨h, -⟩) <;> cases h
  | [p] =>
    rw [alwaysFree_of_one hindices]
    exact ⟨fun h => Or.inr ⟨rfl, h⟩, fun h => h.elim (fun h => absurd h (by decide : ¬2 ≤ 1)) (·.2)⟩
  | p :: q :: rest =>
    have hlen : 2 ≤ (p :: q :: rest).length := Nat.le_add_left 2 rest.length
    exact iff_of_true (alwaysFree_of_two (hindices ▸ hlen)) (Or.inl hlen)

/-! ## The loop of `register` -/

variable {state : CredentialBrokerState} {provider : CredentialProvider}

theorem isDummyValue_iff {value : Str} :
    state.isDummyValue value = true ↔ value ∈ state.credentials.map (·.dummyValue) := by
  rw [CredentialBrokerState.isDummyValue, any_eq_true, mem_map]
  simp only [decide_eq_true_eq]

/-- The loop stops in some round exactly when a free candidate can be drawn. -/
theorem exists_drawDummyValue_iff :
    (∃ rounds, (state.drawDummyValue provider realValue rounds).isSome = true) ↔
      ∃ draws, provider.dummyValue realValue draws ≠ realValue ∧
        state.isDummyValue (provider.dummyValue realValue draws) = false := by
  constructor
  · rintro ⟨rounds, hsome⟩
    induction rounds with
    | nil => cases hsome
    | cons draws rounds ih =>
      unfold CredentialBrokerState.drawDummyValue at hsome
      dsimp only at hsome
      split at hsome
      · next hfree => exact ⟨draws, hfree⟩
      · exact ih hsome
  · rintro ⟨draws, hfree⟩
    refine ⟨[draws], ?_⟩
    unfold CredentialBrokerState.drawDummyValue
    dsimp only
    rw [if_pos hfree]
    rfl

/-- **A dummy value can be drawn whatever fewer than 62 are taken exactly when two indices are
drawn, or one is and the credential is no candidate itself.** -/
theorem exists_drawDummyValue_iff_drawnIndices (provider : CredentialProvider) (realValue : Str) :
    (∀ state : CredentialBrokerState, (state.credentials.map (·.dummyValue)).toFinset.card < 62 →
      ∃ rounds, (state.drawDummyValue provider realValue rounds).isSome = true) ↔
    2 ≤ (drawnIndices realValue (provider.valuePrefix realValue) provider.minimumLen).length ∨
      (drawnIndices realValue (provider.valuePrefix realValue) provider.minimumLen).length = 1 ∧
        ¬HasDummyShape realValue (provider.valuePrefix realValue) provider.minimumLen := by
  rw [← alwaysFree_iff]
  constructor
  · intro hstops taken hcard
    have hdummies : ((taken.toList.map fun value =>
        (⟨[], provider, .exactHost [], [], value⟩ : CredentialRecord)).map (·.dummyValue)) =
          taken.toList := by
      rw [map_map]
      exact map_id _
    obtain ⟨draws, hne, hfree⟩ := exists_drawDummyValue_iff.1 (hstops ⟨true, taken.toList.map
      fun value => ⟨[], provider, .exactHost [], [], value⟩⟩ (by
        rw [hdummies, Finset.toList_toFinset]
        exact hcard))
    refine ⟨draws, hne, fun hmem => ?_⟩
    rw [← Finset.mem_toList, ← hdummies] at hmem
    exact Bool.false_ne_true (hfree.symm.trans (isDummyValue_iff.2 hmem))
  · intro hfree state hcard
    obtain ⟨draws, hne, hnot⟩ := hfree _ hcard
    refine exists_drawDummyValue_iff.2 ⟨draws, hne, Bool.eq_false_iff.2 fun hdummy => hnot ?_⟩
    rw [mem_toFinset]
    exact isDummyValue_iff.1 hdummy

/-- For a token of dashes there is no other candidate than itself. -/
theorem register_dashes :
    (CredentialProvider.github.requestHeaderValue visibleAsciiCodec
      ("ghp_".toList ++ List.replicate 36 '-')).isSome = true ∧
    ∀ rounds, (CredentialBrokerState.mk true []).register "GH_TOKEN".toList .github
      (.hostPattern githubCloudHosts githubCloudHostSuffixes)
      ("ghp_".toList ++ List.replicate 36 '-') rounds = none := by
  refine ⟨by decide +kernel, fun rounds => ?_⟩
  have hsame : ∀ draws, CredentialProvider.github.dummyValue
      ("ghp_".toList ++ List.replicate 36 '-') draws = "ghp_".toList ++ List.replicate 36 '-' := by
    intro draws
    have hzero : CredentialProvider.github.dummyValue ("ghp_".toList ++ List.replicate 36 '-')
        (fun _ => 0) = "ghp_".toList ++ List.replicate 36 '-' := by decide +kernel
    refine Eq.trans (shapedDummyValue_eq_iff.2 ?_) hzero
    have hnil : drawnIndices ("ghp_".toList ++ List.replicate 36 '-')
        (CredentialProvider.github.valuePrefix ("ghp_".toList ++ List.replicate 36 '-'))
        CredentialProvider.github.minimumLen = [] := by decide +kernel
    rw [hnil]
    exact nofun
  have hspin : (CredentialBrokerState.mk true []).drawDummyValue .github
      ("ghp_".toList ++ List.replicate 36 '-') rounds = none := by
    induction rounds with
    | nil => rfl
    | cons draws rounds ih =>
      unfold CredentialBrokerState.drawDummyValue
      dsimp only
      rw [if_neg fun h => h.1 (hsame draws)]
      exact ih
  unfold CredentialBrokerState.register
  dsimp only [find?_nil]
  rw [hspin]
  rfl

end Codex.NetworkProxy
