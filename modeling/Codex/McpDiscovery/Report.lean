import Codex.McpDiscovery.Discover

/-!
# What the discovery report contains

`candidates` are the definitions that are not reserved, not disabled by an
earlier entry and not self references. The loop of `finalize` admits them first
come, first served, and clashes are equal names and, with content dedup, equal
fingerprints (`run_spec`). A definition that is dropped as a duplicate by
content does not claim its name, so a later definition of that name can still be
accepted: `finalize_contract_iff` says for which items this does not happen.
-/

namespace Codex.McpDiscovery

open Codex.Text Codex.Permissions
open scoped List

variable {reserved : List ReservedName} {extraNames : List Str} {dedupeByContent : Bool}
  {items before rest : List SourceItem} {s t : DiscoveredMcpServer}

/-! ## Candidates -/

/-- The entry switches `name` off. -/
def SourceItem.Disables (item : SourceItem) (name : Str) : Prop :=
  match item with
  | .server _ => False
  | .disabled n _ _ => n = name

instance (item : SourceItem) (name : Str) : Decidable (item.Disables name) :=
  match item with
  | .server _ => inferInstanceAs (Decidable False)
  | .disabled n _ _ => inferInstanceAs (Decidable (n = name))

def Eligible (reserved : List ReservedName) (extraNames : List Str) (before : List SourceItem)
    (s : DiscoveredMcpServer) : Prop :=
  findReserved reserved s.name = none ∧ (∀ item ∈ before, ¬ item.Disables s.name) ∧
    isSelfReference s.config extraNames = false

instance : Decidable (Eligible reserved extraNames before s) :=
  inferInstanceAs (Decidable (_ ∧ _ ∧ _))

def candidatesAfter (reserved : List ReservedName) (extraNames : List Str) :
    List SourceItem → List SourceItem → List DiscoveredMcpServer
  | _, [] => []
  | before, .disabled n source path :: rest =>
    candidatesAfter reserved extraNames (before ++ [SourceItem.disabled n source path]) rest
  | before, .server s :: rest =>
    (if Eligible reserved extraNames before s then [s] else []) ++
      candidatesAfter reserved extraNames (before ++ [SourceItem.server s]) rest

/-- The definitions that compete for a place in the report, highest priority first. -/
def candidates (reserved : List ReservedName) (extraNames : List Str) (items : List SourceItem) :
    List DiscoveredMcpServer :=
  candidatesAfter reserved extraNames [] (sortItems items)

def serversOf (items : List SourceItem) : List DiscoveredMcpServer :=
  items.filterMap fun
    | .server s => some s
    | .disabled .. => none

theorem candidatesAfter_append (before front back : List SourceItem) :
    candidatesAfter reserved extraNames before (front ++ back) =
      candidatesAfter reserved extraNames before front ++
        candidatesAfter reserved extraNames (before ++ front) back := by
  induction front generalizing before with
  | nil => simp [candidatesAfter]
  | cons item front ih =>
    cases item with
    | disabled n source path => simp [candidatesAfter, ih]
    | server s => simp [candidatesAfter, ih, List.append_assoc]

theorem mem_candidatesAfter_nil {l : List SourceItem} :
    s ∈ candidatesAfter reserved extraNames [] l ↔
      ∃ pre post, l = pre ++ SourceItem.server s :: post ∧ Eligible reserved extraNames pre s := by
  induction l using List.reverseRecOn with
  | nil => simp [candidatesAfter]
  | append_singleton l item ih =>
    rw [candidatesAfter_append, List.mem_append, ih, List.nil_append]
    constructor
    · rintro (⟨pre, post, rfl, h⟩ | h)
      · exact ⟨pre, post ++ [item], by simp, h⟩
      · cases item with
        | disabled n source path => simp [candidatesAfter] at h
        | server t =>
          simp only [candidatesAfter, List.append_nil] at h
          split at h
          · next he => exact ⟨l, [], by rw [List.mem_singleton.1 h], List.mem_singleton.1 h ▸ he⟩
          · simp at h
    · rintro ⟨pre, post, heq, h⟩
      rcases List.eq_nil_or_concat post with rfl | ⟨post, last, rfl⟩
      · obtain ⟨rfl, hitem⟩ := List.append_inj' heq rfl
        obtain rfl : item = .server s := by simpa using hitem
        right
        simp [candidatesAfter, h]
      · have heq' : l ++ [item] = (pre ++ SourceItem.server s :: post) ++ [last] := by simpa using heq
        obtain ⟨rfl, -⟩ := List.append_inj' heq' rfl
        exact .inl ⟨pre, post, rfl, h⟩

/-! ## The loop admits candidates in order -/

/-- Equal names, or with content dedup equal fingerprints. -/
def SameName (a b : DiscoveredMcpServer) : Prop := a.name = b.name

def SameContent (dedupeByContent : Bool) (a b : DiscoveredMcpServer) : Prop :=
  dedupeByContent = true ∧ a.fingerprint = b.fingerprint

instance : DecidableRel SameName := fun a b => inferInstanceAs (Decidable (a.name = b.name))

instance : DecidableRel (SameContent dedupeByContent) := fun a b =>
  inferInstanceAs (Decidable (dedupeByContent = true ∧ a.fingerprint = b.fingerprint))

theorem sameName_equivalence : Equivalence SameName :=
  ⟨fun _ => rfl, fun h => h.symm, fun h h' => h.trans h'⟩

theorem SameContent.trans (a b c : DiscoveredMcpServer) (h : SameContent dedupeByContent a b)
    (h' : SameContent dedupeByContent b c) : SameContent dedupeByContent a c :=
  ⟨h.1, h.2.trans h'.2⟩

/-- The servers that the loop has accepted after `items`. -/
def accepted (reserved : List ReservedName) (extraNames : List Str) (dedupeByContent : Bool)
    (items : List SourceItem) : List DiscoveredMcpServer :=
  admitted (fun a b => SameName a b ∨ SameContent dedupeByContent a b)
    (candidatesAfter reserved extraNames [] items)

/-- The maps of the loop after `items`, and a shadow for each server that was not accepted. -/
structure Finalizing.Spec (reserved : List ReservedName) (extraNames : List Str)
    (dedupeByContent : Bool) (items : List SourceItem) (st : Finalizing) : Prop where
  disabled : ∀ n, n ∈ st.disabledNames ↔ ∃ item ∈ items, item.Disables n
  winner : ∀ n, n ∈ st.nameWinner ↔
    ∃ s ∈ accepted reserved extraNames dedupeByContent items, s.name = n
  owner : ∀ f, f ∈ st.fingerprintOwner ↔
    dedupeByContent = true ∧ ∃ s ∈ accepted reserved extraNames dedupeByContent items,
      s.fingerprint = f
  names : ∀ n, n ∈ st.acceptedByName ↔ n ∈ st.nameWinner
  values : (st.acceptedByName.entries.map Sigma.snd).Perm
    (accepted reserved extraNames dedupeByContent items)
  shadowed : ∃ dropped : List DiscoveredMcpServer,
    dropped.map (·.name) = st.shadows.map (·.name) ∧
      (serversOf items).Perm (accepted reserved extraNames dedupeByContent items ++ dropped)

theorem spec_initial : Finalizing.Spec reserved extraNames dedupeByContent [] {} where
  disabled := by simp
  winner := by simp [accepted, candidatesAfter]
  owner := by simp [accepted, candidatesAfter]
  names := by simp
  values := by simp [accepted, candidatesAfter]
  shadowed := ⟨[], by simp [serversOf, accepted, candidatesAfter]⟩

/-- The loop drops a server if and only if it is no candidate or clashes with an accepted one. -/
theorem suppressed_eq_none {st : Finalizing}
    (h : st.Spec reserved extraNames dedupeByContent before) :
    st.suppressed reserved extraNames dedupeByContent s = none ↔
      Eligible reserved extraNames before s ∧
        ∀ k ∈ accepted reserved extraNames dedupeByContent before,
          ¬ (SameName k s ∨ SameContent dedupeByContent k s) := by
  have hdis := h.disabled s.name
  have hwin := h.winner s.name
  have hown := h.owner s.fingerprint
  rw [← AList.lookup_isSome] at hdis hwin hown
  unfold Finalizing.suppressed Eligible SameName SameContent
  cases hr : findReserved reserved s.name with
  | some entry => simp
  | none =>
    cases hd : st.disabledNames.lookup s.name with
    | some by_ =>
      obtain ⟨item, hmem, hitem⟩ := hdis.1 (by rw [hd]; rfl)
      refine iff_of_false (by simp) fun hall => hall.1.2.1 item hmem hitem
    | none =>
      have hnodis : ∀ item ∈ before, ¬ item.Disables s.name := by
        intro item hmem hitem
        have := hdis.2 ⟨item, hmem, hitem⟩
        rw [hd] at this
        simp at this
      cases hs : isSelfReference s.config extraNames with
      | true => simp
      | false =>
        cases hw : st.nameWinner.lookup s.name with
        | some source =>
          obtain ⟨k, hk, hname⟩ := hwin.1 (by rw [hw]; rfl)
          exact iff_of_false (by simp) fun hall => hall.2 k hk (.inl hname)
        | none =>
          have hfree : ∀ k ∈ accepted reserved extraNames dedupeByContent before,
              k.name ≠ s.name := by
            intro k hk hname
            have := hwin.2 ⟨k, hk, hname⟩
            rw [hw] at this
            simp at this
          simp only [Bool.false_eq_true, ↓reduceIte, true_and]
          split
          · next hded =>
            simp only [Option.map_eq_none_iff]
            rw [← Option.not_isSome_iff_eq_none, hown]
            constructor
            · intro hno
              refine ⟨⟨hnodis, trivial⟩, ?_⟩
              rintro k hk (hname | ⟨-, hfp⟩)
              · exact hfree k hk hname
              · exact hno ⟨hded, k, hk, hfp⟩
            · rintro ⟨-, hall⟩ ⟨-, k, hk, hfp⟩
              exact hall k hk (.inr ⟨hded, hfp⟩)
          · next hded =>
            refine iff_of_true rfl ⟨⟨hnodis, trivial⟩, ?_⟩
            rintro k hk (hname | ⟨hd', -⟩)
            · exact hfree k hk hname
            · exact hded hd'

section Step

variable {st : Finalizing} {n path : Str} {source : ExternalMcpSource} {reason : ShadowReason}

theorem accepted_disabled :
    accepted reserved extraNames dedupeByContent (before ++ [SourceItem.disabled n source path]) =
      accepted reserved extraNames dedupeByContent before := by
  simp [accepted, candidatesAfter_append, candidatesAfter]

theorem accepted_dropped
    (h : ¬ (Eligible reserved extraNames before s ∧
      ∀ k ∈ accepted reserved extraNames dedupeByContent before,
        ¬ (SameName k s ∨ SameContent dedupeByContent k s))) :
    accepted reserved extraNames dedupeByContent (before ++ [SourceItem.server s]) =
      accepted reserved extraNames dedupeByContent before := by
  by_cases he : Eligible reserved extraNames before s
  · simp only [he, true_and] at h
    push Not at h
    obtain ⟨k, hk, hks⟩ := h
    simp only [accepted, candidatesAfter_append, candidatesAfter, List.nil_append, if_pos he,
      List.append_nil] at hk ⊢
    rw [admitted_concat, if_pos ⟨k, hk, hks⟩]
  · simp [accepted, candidatesAfter_append, candidatesAfter, he]

theorem accepted_server (he : Eligible reserved extraNames before s)
    (hfree : ∀ k ∈ accepted reserved extraNames dedupeByContent before,
      ¬ (SameName k s ∨ SameContent dedupeByContent k s)) :
    accepted reserved extraNames dedupeByContent (before ++ [SourceItem.server s]) =
      accepted reserved extraNames dedupeByContent before ++ [s] := by
  simp only [accepted, candidatesAfter_append, candidatesAfter, List.nil_append, if_pos he,
    List.append_nil] at hfree ⊢
  rw [admitted_concat, if_neg]
  rintro ⟨k, hk, hks⟩
  exact hfree k hk hks

theorem serversOf_server : serversOf (before ++ [SourceItem.server s]) = serversOf before ++ [s] := by
  simp [serversOf]

theorem serversOf_disabled :
    serversOf (before ++ [SourceItem.disabled n source path]) = serversOf before := by
  simp [serversOf]

theorem disables_server {m : Str} :
    (∃ item ∈ before ++ [SourceItem.server s], item.Disables m) ↔ ∃ item ∈ before, item.Disables m := by
  simp [SourceItem.Disables, or_and_right, exists_or]

theorem disables_disabled {m : Str} :
    (∃ item ∈ before ++ [SourceItem.disabled n source path], item.Disables m) ↔
      n = m ∨ ∃ item ∈ before, item.Disables m := by
  simp only [List.mem_append, List.mem_singleton, or_and_right, exists_or, exists_eq_left,
    SourceItem.Disables]
  exact or_comm

theorem Finalizing.Spec.disable (h : st.Spec reserved extraNames dedupeByContent before) :
    (st.step reserved extraNames dedupeByContent (.disabled n source path)).Spec reserved extraNames
      dedupeByContent (before ++ [SourceItem.disabled n source path]) := by
  obtain ⟨hd, hw, ho, hn, hv, hs⟩ := h
  simp only [Finalizing.step]
  split
  · next hmem =>
    refine ⟨fun m => ?_, ?_, ?_, hn, ?_, ?_⟩
    · rw [disables_disabled, hd]
      refine ⟨.inr, fun hm => hm.elim (fun hnm => ?_) id⟩
      exact hnm ▸ (hd n).1 hmem
    · rwa [accepted_disabled]
    · rwa [accepted_disabled]
    · rwa [accepted_disabled]
    · rwa [accepted_disabled, serversOf_disabled]
  · refine ⟨fun m => ?_, ?_, ?_, hn, ?_, ?_⟩
    · rw [disables_disabled, AList.mem_insert, hd, eq_comm]
    · rwa [accepted_disabled]
    · rwa [accepted_disabled]
    · rwa [accepted_disabled]
    · rwa [accepted_disabled, serversOf_disabled]

theorem Finalizing.Spec.drop (h : st.Spec reserved extraNames dedupeByContent before)
    (hacc : accepted reserved extraNames dedupeByContent (before ++ [SourceItem.server s]) =
      accepted reserved extraNames dedupeByContent before) :
    (st.shadow s reason).Spec reserved extraNames dedupeByContent (before ++ [SourceItem.server s]) := by
  obtain ⟨hd, hw, ho, hn, hv, dropped, hnames, hperm⟩ := h
  refine ⟨fun m => (hd m).trans disables_server.symm, hacc ▸ hw, hacc ▸ ho, hn, hacc ▸ hv,
    dropped ++ [s], ?_, ?_⟩
  · simp [Finalizing.shadow, hnames]
  · rw [hacc, serversOf_server, ← List.append_assoc]
    exact hperm.append_right [s]

theorem Finalizing.Spec.accept (h : st.Spec reserved extraNames dedupeByContent before)
    (he : Eligible reserved extraNames before s)
    (hfree : ∀ k ∈ accepted reserved extraNames dedupeByContent before,
      ¬ (SameName k s ∨ SameContent dedupeByContent k s)) :
    (st.accept dedupeByContent s).Spec reserved extraNames dedupeByContent
      (before ++ [SourceItem.server s]) := by
  obtain ⟨hd, hw, ho, hn, hv, dropped, hnames, hperm⟩ := h
  have hacc := accepted_server he hfree
  have hnew : s.name ∉ st.acceptedByName := by
    rw [hn, hw]
    rintro ⟨k, hk, hname⟩
    exact hfree k hk (.inl hname)
  refine ⟨fun m => (hd m).trans disables_server.symm, fun m => ?_, fun f => ?_, fun m => ?_, ?_,
    dropped, hnames, ?_⟩
  · simp [Finalizing.accept, AList.mem_insert, hw, hacc, or_and_right, exists_or, or_comm, eq_comm]
  · simp only [Finalizing.accept, hacc, List.mem_append, List.mem_singleton, or_and_right,
      exists_or, exists_eq_left]
    split
    · next hded => rw [AList.mem_insert, ho, eq_comm]; simp [hded, or_comm]
    · next hded => rw [ho]; simp [hded]
  · simp [Finalizing.accept, AList.mem_insert, hn]
  · rw [hacc]
    simp only [Finalizing.accept, AList.entries_insert_of_notMem hnew, List.map_cons]
    exact (hv.cons s).trans (List.perm_append_singleton s _).symm
  · rw [hacc, serversOf_server]
    have hswap : (accepted reserved extraNames dedupeByContent before ++ [s] ++ dropped).Perm
        (accepted reserved extraNames dedupeByContent before ++ dropped ++ [s]) := by
      rw [List.append_assoc, List.append_assoc]
      exact List.Perm.append_left _ List.perm_append_comm
    exact (hperm.append_right [s]).trans hswap.symm

/-- One item: a disabling entry, a dropped server, or a candidate that gets its place. -/
theorem Finalizing.Spec.step (h : st.Spec reserved extraNames dedupeByContent before)
    (item : SourceItem) :
    (st.step reserved extraNames dedupeByContent item).Spec reserved extraNames dedupeByContent
      (before ++ [item]) := by
  cases item with
  | disabled n source path => exact h.disable
  | server s =>
    have hsup := suppressed_eq_none (s := s) h
    simp only [Finalizing.step]
    split
    · next reason hreason =>
      rw [hreason] at hsup
      exact h.drop (accepted_dropped (hsup.not.1 (by simp)))
    · next hnone =>
      obtain ⟨he, hfree⟩ := hsup.1 hnone
      exact h.accept he hfree

end Step

/-- **The whole loop.** -/
theorem run_spec (items : List SourceItem) :
    (items.foldl (Finalizing.step reserved extraNames dedupeByContent) {}).Spec reserved extraNames
      dedupeByContent items := by
  induction items using List.reverseRecOn with
  | nil => exact spec_initial
  | append_singleton items item ih =>
    rw [List.foldl_append]
    exact ih.step item

theorem finalize_servers_perm (items : List SourceItem) :
    (finalize reserved extraNames dedupeByContent items).servers.Perm
      (accepted reserved extraNames dedupeByContent (sortItems items)) :=
  (List.perm_insertionSort _ _).trans (run_spec _).values

theorem mem_finalize_servers :
    s ∈ (finalize reserved extraNames dedupeByContent items).servers ↔
      s ∈ accepted reserved extraNames dedupeByContent (sortItems items) :=
  (finalize_servers_perm items).mem_iff

/-! ## The contract of `finalize` -/

/-- In the order of priority `s` is the first definition of its name that is not a self
reference, and no disabling entry of that name comes before it. -/
def FirstDefinition (extraNames : List Str) (sorted : List SourceItem) (s : DiscoveredMcpServer) :
    Prop :=
  ∃ pre post, sorted = pre ++ SourceItem.server s :: post ∧
    isSelfReference s.config extraNames = false ∧
    (∀ t, .server t ∈ pre → t.name = s.name → isSelfReference t.config extraNames = true) ∧
    ∀ item ∈ pre, ¬ item.Disables s.name

structure Contract (reserved : List ReservedName) (extraNames : List Str) (dedupeByContent : Bool)
    (items : List SourceItem) (report : DiscoveryReport) : Prop where
  /-- Each name is accepted at most once. -/
  names_nodup : (report.servers.map (·.name)).Nodup
  not_reserved : ∀ s ∈ report.servers, findReserved reserved s.name = none
  fingerprints_nodup : dedupeByContent = true → (report.servers.map (·.fingerprint)).Nodup
  /-- A server item beyond those accepted has a shadow with its name. -/
  shadowed : ∀ s, report.servers.count s < (serversOf items).count s →
    ∃ shadow ∈ report.shadows, shadow.name = s.name
  first : ∀ s ∈ report.servers, FirstDefinition extraNames (sortItems items) s

theorem mem_firsts_of_firstDefinition {l : List SourceItem}
    (hres : findReserved reserved s.name = none) (h : FirstDefinition extraNames l s) :
    s ∈ admitted SameName (candidatesAfter reserved extraNames [] l) := by
  obtain ⟨pre, post, rfl, hself, hearlier, hdis⟩ := h
  have hsplit : pre ++ SourceItem.server s :: post = (pre ++ [SourceItem.server s]) ++ post := by simp
  rw [hsplit, candidatesAfter_append]
  apply admitted_append_mono
  rw [candidatesAfter_append]
  simp only [candidatesAfter, List.nil_append, List.append_nil]
  rw [if_pos ⟨hres, hdis, hself⟩, mem_admitted_concat]
  refine .inr ⟨rfl, fun k hk hname => ?_⟩
  obtain ⟨before, after, rfl, -, -, hk⟩ := mem_candidatesAfter_nil.1 (admitted_subset _ hk)
  rw [hearlier k (by simp) hname] at hk
  cases hk

theorem firstDefinition_of_mem_firsts {l : List SourceItem}
    (h : s ∈ admitted SameName (candidatesAfter reserved extraNames [] l)) :
    FirstDefinition extraNames l s := by
  induction l using List.reverseRecOn with
  | nil => simp [candidatesAfter] at h
  | append_singleton l item ih =>
    have hkeep : FirstDefinition extraNames l s → FirstDefinition extraNames (l ++ [item]) s := by
      rintro ⟨pre, post, rfl, hrest⟩
      exact ⟨pre, post ++ [item], by simp, hrest⟩
    rw [candidatesAfter_append, List.nil_append] at h
    cases item with
    | disabled n source path =>
      simp only [candidatesAfter, List.append_nil] at h
      exact hkeep (ih h)
    | server t =>
      simp only [candidatesAfter, List.append_nil] at h
      split at h
      · next he =>
        rcases mem_admitted_concat.1 h with h | ⟨rfl, hfree⟩
        · exact hkeep (ih h)
        · refine ⟨l, [], rfl, he.2.2, fun t ht hname => ?_, he.2.1⟩
          by_contra hself
          obtain ⟨pre, post, rfl⟩ := List.append_of_mem ht
          have hcand : t ∈ candidatesAfter reserved extraNames [] (pre ++ .server t :: post) := by
            refine mem_candidatesAfter_nil.2 ⟨pre, post, rfl, hname ▸ he.1, ?_, by simpa using hself⟩
            exact fun item hitem => hname ▸ he.2.1 item (List.mem_append_left _ hitem)
          rcases mem_or_exists_clash (r := SameName) hcand with hk | ⟨k, hk, hkt⟩
          · exact hfree t hk hname
          · exact hfree k hk (hkt.trans hname)
      · exact hkeep (ih (by simpa using h))

/-- The shadows that stay after `retain` carry all the names. -/
theorem mem_report_shadows_names {st : Finalizing} {shadow : McpDiscoveryShadow}
    (h : shadow ∈ st.shadows) : ∃ kept ∈ st.report.shadows, kept.name = shadow.name := by
  rcases mem_or_exists_clash (r := fun a b => shadowKey a = shadowKey b) h with hk | ⟨k, hk, heq⟩
  · exact ⟨shadow, (List.perm_insertionSort _ _).mem_iff.2 hk, rfl⟩
  · exact ⟨k, (List.perm_insertionSort _ _).mem_iff.2 hk, congrArg Prod.fst heq⟩

theorem exists_shadow (s : DiscoveredMcpServer)
    (h : (finalize reserved extraNames dedupeByContent items).servers.count s <
      (serversOf items).count s) :
    ∃ shadow ∈ (finalize reserved extraNames dedupeByContent items).shadows,
      shadow.name = s.name := by
  have hspec : Finalizing.Spec reserved extraNames dedupeByContent (sortItems items) _ := run_spec _
  obtain ⟨dropped, hnames, hperm⟩ := hspec.shadowed
  have hitems : (serversOf items).Perm (serversOf (sortItems items)) :=
    ((List.perm_insertionSort _ items).filterMap _).symm
  have hcount := (hitems.trans hperm).count_eq s
  rw [(finalize_servers_perm items).count_eq, hcount, List.count_append] at h
  have hmem : s ∈ dropped := List.count_pos_iff.1 (by omega)
  have hname : s.name ∈ dropped.map (·.name) := List.mem_map_of_mem hmem
  rw [hnames] at hname
  obtain ⟨shadow, hshadow, heq⟩ := List.mem_map.1 hname
  obtain ⟨kept, hkept, hkeq⟩ := mem_report_shadows_names hshadow
  exact ⟨kept, hkept, hkeq.trans heq⟩

/-- What the report owes apart from the order of priority holds for all items. -/
theorem finalize_contract_of_first
    (h : ∀ s ∈ (finalize reserved extraNames dedupeByContent items).servers,
      FirstDefinition extraNames (sortItems items) s) :
    Contract reserved extraNames dedupeByContent items
      (finalize reserved extraNames dedupeByContent items) := by
  have hperm : (finalize reserved extraNames dedupeByContent items).servers.Perm
      (accepted reserved extraNames dedupeByContent (sortItems items)) :=
    finalize_servers_perm items
  have hpair : (accepted reserved extraNames dedupeByContent (sortItems items)).Pairwise
      fun a b => ¬ (SameName a b ∨ SameContent dedupeByContent a b) := admitted_pairwise _
  refine ⟨?_, ?_, ?_, exists_shadow, h⟩
  · rw [(hperm.map _).nodup_iff]
    exact List.pairwise_map.2 (hpair.imp fun hab hname => hab (.inl hname))
  · intro s hs
    obtain ⟨pre, post, -, he⟩ :=
      mem_candidatesAfter_nil.1 (admitted_subset _ (mem_finalize_servers.1 hs))
    exact he.1
  · intro hded
    rw [(hperm.map _).nodup_iff]
    exact List.pairwise_map.2 (hpair.imp fun hab hfp => hab (.inr ⟨hded, hfp⟩))

/-- With content dedup: whenever the first definition `a` of a name has the fingerprint of the
first definition `c` of another name before it, every later candidate `b` of `a`'s name has the
fingerprint of some first definition before it. -/
def NoneOvertaken (reserved : List ReservedName) (extraNames : List Str) (dedupeByContent : Bool)
    (items : List SourceItem) : Prop :=
  dedupeByContent = true → ∀ pre b post, candidates reserved extraNames items = pre ++ b :: post →
    ∀ c a, [c, a] <+ admitted SameName pre → c.fingerprint = a.fingerprint → a.name = b.name →
      ∃ d ∈ admitted SameName pre, d.fingerprint = b.fingerprint

theorem noneOvertaken_iff :
    NoneOvertaken reserved extraNames dedupeByContent items ↔
      accepted reserved extraNames dedupeByContent (sortItems items) ⊆
        admitted SameName (candidates reserved extraNames items) := by
  rw [accepted, ← candidates, admitted_or_subset_iff sameName_equivalence SameContent.trans]
  constructor
  · rintro h pre b post heq c a hsub ⟨hded, hfp⟩ hname
    obtain ⟨d, hd, hdb⟩ := h hded pre b post heq c a hsub hfp hname
    exact ⟨d, hd, hded, hdb⟩
  · intro h hded pre b post heq c a hsub hfp hname
    obtain ⟨d, hd, -, hdb⟩ := h pre b post heq c a hsub ⟨hded, hfp⟩ hname
    exact ⟨d, hd, hdb⟩

/-- **The report meets its contract exactly when no first definition is overtaken.** -/
theorem finalize_contract_iff (reserved : List ReservedName) (extraNames : List Str)
    (dedupeByContent : Bool) (items : List SourceItem) :
    Contract reserved extraNames dedupeByContent items
        (finalize reserved extraNames dedupeByContent items) ↔
      NoneOvertaken reserved extraNames dedupeByContent items := by
  rw [noneOvertaken_iff]
  constructor
  · intro h s hs
    have hmem := mem_finalize_servers.2 hs
    exact mem_firsts_of_firstDefinition (h.not_reserved s hmem) (h.first s hmem)
  · intro h
    refine finalize_contract_of_first fun s hs => ?_
    exact firstDefinition_of_mem_firsts (h (mem_finalize_servers.1 hs))

/-- Three sources: the second defines `docs` with the address that `wiki` has in the first, so it
is dropped, and the third gets the name. -/
def overtakingItems : List SourceItem :=
  [.server ⟨"wiki".toList, .streamableHttp "https://a.example/mcp".toList, .claudeProject,
      "/repo/.mcp.json".toList, "aa".toList⟩,
    .server ⟨"docs".toList, .streamableHttp "https://a.example/mcp".toList, .copilotCli,
      "/home/u/.copilot/mcp-config.json".toList, "aa".toList⟩,
    .server ⟨"docs".toList, .streamableHttp "https://b.example/mcp".toList, .vsCode,
      "/repo/.vscode/mcp.json".toList, "bb".toList⟩]

theorem finalize_overtaken :
    ¬ Contract [] [] true overtakingItems (finalize [] [] true overtakingItems) := by
  intro h
  have hmem : ⟨"docs".toList, .streamableHttp "https://b.example/mcp".toList, .vsCode,
      "/repo/.vscode/mcp.json".toList, "bb".toList⟩ ∈
        (finalize [] [] true overtakingItems).servers := by
    decide +kernel
  have hfirst := mem_firsts_of_firstDefinition (h.not_reserved _ hmem) (h.first _ hmem)
  revert hfirst
  decide +kernel

end Codex.McpDiscovery
