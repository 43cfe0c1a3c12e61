import Codex.ExecPolicy.NetworkRule
import Mathlib.Data.List.Induction

/-!
# The compiled domains

The last rule that allows or denies a host decides it, and each of the two lists
is ordered by these last rules. `compileRule_eq_self` says when one more rule
changes nothing: when the host was already the last one on its list.
-/

namespace Codex.ExecPolicy

open List Codex.Text

/-- The decision of the last rule for the host that allows or denies it. -/
def lastDecision (rules : List NetworkRule) (host : Str) : Option Decision :=
  (rules.filter fun r => r.host = host ∧ r.decision ≠ .prompt).getLast?.map (·.decision)

/-- The allowed or the denied hosts of a compiled policy. -/
def side : Decision → List Str × List Str → List Str
  | .allow, acc => acc.1
  | .forbidden, acc => acc.2
  | .prompt, _ => []

variable {rules : List NetworkRule} {d : Decision} {host : Str}

theorem side_compileRule (hd : d ≠ .prompt) (acc : List Str × List Str) (r : NetworkRule) :
    side d (compileRule acc r) =
      if r.decision = .prompt then side d acc
      else if r.decision = d then upsertDomain (side d acc) r.host
      else (side d acc).filter (· ≠ r.host) := by
  unfold compileRule
  cases hr : r.decision <;> cases d <;> first | exact absurd rfl hd | rfl

theorem compiledNetworkDomains_concat (rules : List NetworkRule) (r : NetworkRule) :
    compiledNetworkDomains (rules ++ [r]) = compileRule (compiledNetworkDomains rules) r := by
  rw [compiledNetworkDomains, foldl_append]
  rfl

theorem lastDecision_concat (rules : List NetworkRule) (r : NetworkRule) (host : Str) :
    lastDecision (rules ++ [r]) host =
      if r.host = host ∧ r.decision ≠ .prompt then some r.decision else lastDecision rules host := by
  unfold lastDecision
  rw [filter_append]
  split
  · next h => simp [h]
  · next h => simp [h]

/-- **A host is on the list of its last decision.** -/
theorem mem_side (hd : d ≠ .prompt) :
    host ∈ side d (compiledNetworkDomains rules) ↔ lastDecision rules host = some d := by
  induction rules using List.reverseRecOn with
  | nil => cases d <;> simp [compiledNetworkDomains, side, lastDecision]
  | append_singleton rules r ih =>
    rw [compiledNetworkDomains_concat, side_compileRule hd, lastDecision_concat]
    by_cases hp : r.decision = .prompt
    · simp [hp, ih]
    · by_cases hh : r.host = host
      · by_cases hrd : r.decision = d
        · simp [hd, hh, hrd, upsertDomain]
        · simp [hp, hh, hrd]
      · by_cases hrd : r.decision = d
        · simp [hd, hh, hrd, upsertDomain, ih, Ne.symm hh]
        · simp [hp, hh, hrd, ih, Ne.symm hh]

/-- The host's last decision is `d`, made by the rule `r` after which no rule decides it. -/
structure DecidedAt (rules : List NetworkRule) (host : Str) (d : Decision)
    (pre : List NetworkRule) (r : NetworkRule) (post : List NetworkRule) : Prop where
  split : rules = pre ++ r :: post
  host_eq : r.host = host
  decision_eq : r.decision = d
  undecided : ∀ r' ∈ post, r'.host = host → r'.decision = .prompt

theorem lastDecision_eq_some (h : lastDecision rules host = some d) :
    ∃ pre r post, DecidedAt rules host d pre r post := by
  induction rules using List.reverseRecOn with
  | nil => simp [lastDecision] at h
  | append_singleton rules r ih =>
    rw [lastDecision_concat] at h
    split at h
    · next hr => exact ⟨rules, r, [], ⟨rfl, hr.1, by simpa using h, by simp⟩⟩
    · next hr =>
      obtain ⟨pre, r₀, post, hs, hh, hd, hu⟩ := ih h
      refine ⟨pre, r₀, post ++ [r], ⟨by simp [hs], hh, hd, fun r' hr' hhost => ?_⟩⟩
      rcases mem_append.1 hr' with hr' | hr'
      · exact hu r' hr' hhost
      · rw [mem_singleton.1 hr'] at hhost ⊢
        by_contra hp
        exact hr ⟨hhost, hp⟩

theorem DecidedAt.lastDecision {pre post : List NetworkRule} {r : NetworkRule}
    (h : DecidedAt rules host d pre r post) (hd : d ≠ .prompt) :
    lastDecision rules host = some d := by
  obtain ⟨rfl, hh, hdec, hu⟩ := h
  have hr : ¬ (r.decision = .prompt) := by rwa [hdec]
  have hpost : post.filter (fun r => r.host = host ∧ r.decision ≠ .prompt) = [] := by
    rw [filter_eq_nil_iff]
    intro r' hr'
    simpa using hu r' hr'
  unfold ExecPolicy.lastDecision
  rw [filter_append, filter_cons, hpost]
  simp [hh, hdec, hd]

/-- The list of a decision around a host: before it stand hosts that were decided before it and
not since, after it hosts that were decided after it. -/
theorem side_around (hd : d ≠ .prompt) {pre post : List NetworkRule} {r : NetworkRule}
    (h : DecidedAt rules host d pre r post) :
    ∃ before after, side d (compiledNetworkDomains rules) = before ++ host :: after ∧
      host ∉ before ∧ host ∉ after ∧
      (∀ g ∈ after, ∃ r' ∈ post, r'.host = g ∧ r'.decision = d) ∧
      (∀ g ∈ before, ∀ r' ∈ post, r'.host = g → r'.decision = .prompt) := by
  obtain ⟨rfl, hh, hdec, hu⟩ := h
  induction post using List.reverseRecOn with
  | nil =>
    have hr : r.decision ≠ .prompt := by rwa [hdec]
    refine ⟨(side d (compiledNetworkDomains pre)).filter (· ≠ host), [], ?_, by simp, by simp,
      by simp, by simp⟩
    rw [compiledNetworkDomains_concat, side_compileRule hd, if_neg hr, if_pos hdec, hh]
    rfl
  | append_singleton post x ih =>
    obtain ⟨before, after, heq, hb, ha, hafter, hbefore⟩ :=
      ih fun r' hr' => hu r' (mem_append_left _ hr')
    have hxu := hu x (by simp)
    have hsplit : pre ++ r :: (post ++ [x]) = (pre ++ r :: post) ++ [x] := by simp
    rw [hsplit, compiledNetworkDomains_concat, side_compileRule hd, heq]
    by_cases hp : x.decision = .prompt
    · rw [if_pos hp]
      refine ⟨before, after, rfl, hb, ha, fun g hg => ?_, fun g hg r' hr' => ?_⟩
      · obtain ⟨r', hr', hg'⟩ := hafter g hg
        exact ⟨r', by simp [hr'], hg'⟩
      · rcases mem_append.1 hr' with hr' | hr'
        · exact hbefore g hg r' hr'
        · rw [mem_singleton.1 hr']
          exact fun _ => hp
    · have hne : host ≠ x.host := fun e => hp (hxu e.symm)
      have hfilter : (before ++ host :: after).filter (· ≠ x.host) =
          before.filter (· ≠ x.host) ++ host :: after.filter (· ≠ x.host) := by
        simp [filter_append, hne]
      have hbefore' : ∀ g ∈ before.filter (· ≠ x.host), ∀ r' ∈ post ++ [x], r'.host = g →
          r'.decision = .prompt := by
        intro g hg r' hr' hg'
        obtain ⟨hg, hgx⟩ := mem_filter.1 hg
        rcases mem_append.1 hr' with hr' | hr'
        · exact hbefore g hg r' hr' hg'
        · rw [mem_singleton.1 hr'] at hg'
          simp [hg'] at hgx
      have hafter' : ∀ g ∈ after.filter (· ≠ x.host), ∃ r' ∈ post ++ [x], r'.host = g ∧
          r'.decision = d := by
        intro g hg
        obtain ⟨r', hr', hg'⟩ := hafter g (mem_filter.1 hg).1
        exact ⟨r', by simp [hr'], hg'⟩
      rw [if_neg hp]
      by_cases hxd : x.decision = d
      · rw [if_pos hxd, upsertDomain, hfilter]
        refine ⟨_, after.filter (· ≠ x.host) ++ [x.host], by simp, fun h => hb ?_, ?_, ?_,
          hbefore'⟩
        · exact (mem_filter.1 h).1
        · simp [ha, hne]
        · intro g hg
          rcases mem_append.1 hg with hg | hg
          · exact hafter' g hg
          · exact ⟨x, by simp, (mem_singleton.1 hg).symm, hxd⟩
      · rw [if_neg hxd, hfilter]
        exact ⟨_, _, rfl, fun h => hb (mem_filter.1 h).1,
          fun h => ha (mem_filter.1 h).1, hafter', hbefore'⟩

/-- The host is the most recently decided one of those whose last decision is `d`. -/
def Settled (rules : List NetworkRule) (host : Str) (d : Decision) : Prop :=
  ∃ pre r post, DecidedAt rules host d pre r post ∧
    ∀ r' ∈ post, r'.decision = d → lastDecision rules r'.host ≠ some d

/-- The other list. -/
def other : Decision → Decision
  | .allow => .forbidden
  | .forbidden => .allow
  | .prompt => .prompt

theorem compileRule_eq_iff (hd : d ≠ .prompt) (acc : List Str × List Str) {r : NetworkRule}
    (hr : r.decision = d) :
    compileRule acc r = acc ↔
      upsertDomain (side d acc) r.host = side d acc ∧
        (side (other d) acc).filter (· ≠ r.host) = side (other d) acc := by
  obtain ⟨a, b⟩ := acc
  cases d with
  | prompt => exact absurd rfl hd
  | allow => simp only [compileRule, hr, side, other, Prod.mk.injEq]
  | forbidden =>
    simp only [compileRule, hr, side, other, Prod.mk.injEq]
    exact and_comm

/-- **A rule changes nothing exactly when its host is settled.** -/
theorem compileRule_eq_self (hd : d ≠ .prompt) {r : NetworkRule} (hr : r.decision = d) :
    compileRule (compiledNetworkDomains rules) r = compiledNetworkDomains rules ↔
      Settled rules r.host d := by
  rw [compileRule_eq_iff hd _ hr]
  constructor
  · rintro ⟨hup, -⟩
    have hmem : r.host ∈ side d (compiledNetworkDomains rules) := by
      rw [← hup]
      simp [upsertDomain]
    obtain ⟨pre, r₀, post, hdec⟩ := lastDecision_eq_some ((mem_side hd).1 hmem)
    obtain ⟨before, after, heq, hb, ha, hafter, hbefore⟩ := side_around hd hdec
    -- the host stands at the end of the list
    have hnil : after = [] := by
      rcases eq_nil_or_concat' after with h | ⟨init, g, rfl⟩
      · exact h
      · rw [heq, upsertDomain, ← cons_append, ← List.append_assoc,
          append_singleton_inj] at hup
        exact absurd (mem_append_right _ (by rw [hup.2]; simp)) ha
    refine ⟨pre, r₀, post, hdec, fun r' hr' hd' hlast => ?_⟩
    have hmem' := (mem_side hd).2 hlast
    rw [heq, hnil] at hmem'
    rcases mem_append.1 hmem' with hg | hg
    · have hp := hbefore _ hg r' hr' rfl
      exact hd (hd'.symm.trans hp)
    · have hp := hdec.undecided r' hr' (mem_singleton.1 hg)
      exact hd (hd'.symm.trans hp)
  · rintro ⟨pre, r₀, post, hdec, hsettled⟩
    obtain ⟨before, after, heq, hb, ha, hafter, -⟩ := side_around hd hdec
    have hnil : after = [] := by
      rw [eq_nil_iff_forall_not_mem]
      intro g hg
      obtain ⟨r', hr', rfl, hd'⟩ := hafter g hg
      exact hsettled r' hr' hd' ((mem_side hd).1 (by rw [heq]; simp [hg]))
    subst hnil
    refine ⟨?_, ?_⟩
    · have hne : ∀ g ∈ before, ¬ g = r.host := fun g hg e => hb (e ▸ hg)
      rw [heq, upsertDomain]
      simpa [filter_append] using hne
    · have hother : other d ≠ .prompt := by cases d <;> simp_all [other]
      have hne : other d ≠ d := by cases d <;> simp_all [other]
      rw [filter_eq_self]
      intro g hg
      have hne' : g ≠ r.host := by
        rintro rfl
        have h1 := (mem_side hother).1 hg
        rw [hdec.lastDecision hd] at h1
        exact hne (Option.some.inj h1).symm
      simpa using hne'

/-! ## The order of the lists -/

/-- The position of the last rule for the host that allows or denies it. -/
def lastPosition (rules : List NetworkRule) (host : Str) : Option ℕ :=
  (rules.zipIdx.filter fun (r, _) => r.host = host ∧ r.decision ≠ .prompt).getLast?.map (·.2)

theorem lastPosition_concat (rules : List NetworkRule) (r : NetworkRule) (host : Str) :
    lastPosition (rules ++ [r]) host =
      if r.host = host ∧ r.decision ≠ .prompt then some rules.length
      else lastPosition rules host := by
  unfold lastPosition
  rw [zipIdx_append, filter_append]
  split
  · next h => simp [h]
  · next h => simp [h]

theorem lastPosition_lt {i : ℕ} (h : lastPosition rules host = some i) : i < rules.length := by
  obtain ⟨⟨r, j⟩, hlast, rfl⟩ := Option.map_eq_some_iff.1 h
  have hmem := (mem_filter.1 (mem_of_getLast? hlast)).1
  have hbound := snd_lt_of_mem_zipIdx hmem
  simpa using hbound

/-- The host was decided before the other one, as far as both were. -/
def DecidedBefore (rules : List NetworkRule) (g h : Str) : Prop :=
  ∀ i j, lastPosition rules g = some i → lastPosition rules h = some j → i < j

/-- **Each list names a host once and is ordered by the last rules of its hosts.** -/
theorem side_ordered (hd : d ≠ .prompt) :
    (side d (compiledNetworkDomains rules)).Nodup ∧
      (side d (compiledNetworkDomains rules)).Pairwise (DecidedBefore rules) := by
  induction rules using List.reverseRecOn with
  | nil => cases d <;> exact ⟨nodup_nil, List.Pairwise.nil⟩
  | append_singleton rules r ih =>
    obtain ⟨hnodup, hordered⟩ := ih
    rw [compiledNetworkDomains_concat, side_compileRule hd]
    have hsame : ∀ g, (r.decision ≠ .prompt → g ≠ r.host) →
        lastPosition (rules ++ [r]) g = lastPosition rules g := by
      intro g hg
      rw [lastPosition_concat, if_neg]
      rintro ⟨hhost, hdecision⟩
      exact hg hdecision hhost.symm
    have hkept : ((side d (compiledNetworkDomains rules)).filter (· ≠ r.host)).Pairwise
        (DecidedBefore (rules ++ [r])) := by
      refine (hordered.filter _).imp_of_mem fun {g h} hg hh hgh i j hi hj => ?_
      rw [hsame g fun _ => by simpa using (mem_filter.1 hg).2] at hi
      rw [hsame h fun _ => by simpa using (mem_filter.1 hh).2] at hj
      exact hgh i j hi hj
    by_cases hprompt : r.decision = .prompt
    · rw [if_pos hprompt]
      refine ⟨hnodup, hordered.imp fun {g h} hgh i j hi hj => ?_⟩
      rw [hsame g fun hne => absurd hprompt hne] at hi
      rw [hsame h fun hne => absurd hprompt hne] at hj
      exact hgh i j hi hj
    · rw [if_neg hprompt]
      by_cases hrd : r.decision = d
      · rw [if_pos hrd]
        unfold upsertDomain
        refine ⟨?_, pairwise_append.2 ⟨hkept, pairwise_singleton _ _, ?_⟩⟩
        · refine nodup_append.2 ⟨hnodup.filter _, pairwise_singleton _ _, ?_⟩
          intro g hg h hh heq
          rw [mem_singleton.1 hh] at heq
          exact absurd heq (by simpa using (mem_filter.1 hg).2)
        · intro g hg h hh i j hi hj
          obtain rfl := mem_singleton.1 hh
          rw [hsame g fun _ => by simpa using (mem_filter.1 hg).2] at hi
          rw [lastPosition_concat, if_pos ⟨rfl, hprompt⟩, Option.some_inj] at hj
          exact hj ▸ lastPosition_lt hi
      · rw [if_neg hrd]
        exact ⟨hnodup.filter _, hkept⟩

/-- **The compiled domains**: both lists name each host once, no host is on both, a host is on the
list of its last rule that does not prompt, and each list is in the order of these last rules. -/
theorem compiledNetworkDomains_last_rule_wins (rules : List NetworkRule) :
    (compiledNetworkDomains rules).1.Nodup ∧ (compiledNetworkDomains rules).2.Nodup ∧
    (compiledNetworkDomains rules).1.Disjoint (compiledNetworkDomains rules).2 ∧
    (∀ host, host ∈ (compiledNetworkDomains rules).1 ↔ lastDecision rules host = some .allow) ∧
    (∀ host, host ∈ (compiledNetworkDomains rules).2 ↔ lastDecision rules host = some .forbidden) ∧
    (compiledNetworkDomains rules).1.Pairwise (DecidedBefore rules) ∧
    (compiledNetworkDomains rules).2.Pairwise (DecidedBefore rules) := by
  have hallow : Decision.allow ≠ .prompt := by decide
  have hforbidden : Decision.forbidden ≠ .prompt := by decide
  have hside (d : Decision) (hd : d ≠ .prompt) :
      (side d (compiledNetworkDomains rules)).Nodup ∧
        (side d (compiledNetworkDomains rules)).Pairwise (DecidedBefore rules) := side_ordered hd
  obtain ⟨hnodup, hordered⟩ := hside .allow hallow
  obtain ⟨hnodup', hordered'⟩ := hside .forbidden hforbidden
  have hmem : ∀ host, host ∈ (compiledNetworkDomains rules).1 ↔
      lastDecision rules host = some .allow := fun host => mem_side hallow
  have hmem' : ∀ host, host ∈ (compiledNetworkDomains rules).2 ↔
      lastDecision rules host = some .forbidden := fun host => mem_side hforbidden
  refine ⟨hnodup, hnodup', ?_, hmem, hmem', hordered, hordered'⟩
  intro host hin hin'
  have heq := ((hmem host).1 hin).symm.trans ((hmem' host).1 hin')
  cases heq

end Codex.ExecPolicy
