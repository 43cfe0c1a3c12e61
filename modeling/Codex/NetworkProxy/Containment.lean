import Mathlib.Algebra.Order.BigOperators.Group.List
import Mathlib.Algebra.Order.Group.Nat
import Codex.NetworkProxy.Constraints
import Codex.NetworkProxy.PolicySpec

/-!
# Accepted allow lists against the managed allow list

An accepted config should match no host that the managed allow list does not
match. The check compares patterns as `parseForConstraints` reads them, and the
sets are compiled from another reading. `Covers` compares two globs of the
matcher's own reading; it is enough for containment, and for patterns without
wildcards in their domains it is also needed.
-/

namespace Codex.NetworkProxy

open List Codex.Text DomainPattern

/-! ## Covering -/

/-- `glob` is the managed glob, or the managed glob is `?*.domain` and `glob` ends in `.domain`
with something other than `*` in front. -/
def Covers (managedGlob glob : Str) : Prop :=
  managedGlob = glob ∨
    ∃ domain front, managedGlob = subdomainGlob domain ∧ glob = front ++ '.' :: domain ∧
      ∃ c ∈ front, c ≠ '*'

/-- Every glob of the config is covered by a glob of a managed pattern. -/
def Covered (managed configured : List Str) : Prop :=
  ∀ pattern ∈ configured, ∀ glob ∈ globsOf pattern,
    ∃ managedPattern ∈ managed, ∃ managedGlob ∈ globsOf managedPattern, Covers managedGlob glob

/-- Every host the first set matches, the second one matches. -/
def Contained (allowSet managedSet : GlobSet) : Prop :=
  ∀ host, allowSet.isMatch host = true → managedSet.isMatch host = true

/-- The domain of the pattern has no wildcard. -/
def Plain (pattern : Str) : Prop := Literal (domainOf pattern)

variable {domain managedGlob child parent : Str}

/-- What `?*.domain` matches. -/
theorem globMatches_subdomainGlob {host : Str} : globMatches (subdomainGlob domain) host = true ↔
      ∃ front rest, host = front ++ rest ∧ front ≠ [] ∧
        globMatches ('.' :: domain) rest = true :=
  globMatches_question_star

theorem Covers.globMatches {glob host : Str} (h : Covers managedGlob glob)
    (hm : globMatches glob host = true) : globMatches managedGlob host = true := by
  rcases h with rfl | ⟨domain, front, rfl, rfl, hfront⟩
  · exact hm
  · obtain ⟨a, b, rfl, ha, hb⟩ := globMatches_append.1 hm
    exact globMatches_subdomainGlob.2 ⟨a, b, rfl, ne_nil_of_globMatches hfront ha, hb⟩

/-! ## Literal hosts -/

theorem literal_dot (h : Literal domain) : Literal ('.' :: domain) := by
  intro c hc
  rcases mem_cons.1 hc with rfl | hc
  · decide
  · exact h c hc

/-- A literal lower case text that a glob of a plain pattern matches is covered by it. -/
theorem covers_of_globMatches {s : Str} (hdomain : Literal domain) (hlow : Lowered domain)
    (hs : Literal s) (hslow : Lowered s)
    (hglob : managedGlob = domain ∨ managedGlob = subdomainGlob domain)
    (hm : globMatches managedGlob s = true) : Covers managedGlob s := by
  rcases hglob with rfl | rfl
  · rw [globMatches_literal hdomain, hlow.eq, hslow.eq] at hm
    exact .inl hm.symm
  · obtain ⟨front, rest, rfl, hfront, hrest⟩ := globMatches_subdomainGlob.1 hm
    have hdotLow : Lowered ('.' :: domain) :=
      fun c hc => (mem_cons.1 hc).elim (fun h => h ▸ rfl) (hlow c)
    have hrestLow : Lowered rest := hslow.of_subset (subset_append_right _ _)
    rw [globMatches_literal (literal_dot hdomain), hrestLow.eq, hdotLow.eq] at hrest
    subst hrest
    obtain ⟨c, front, rfl⟩ := exists_cons_of_ne_nil hfront
    exact .inr ⟨domain, c :: front, rfl, rfl, c, by simp, (hs c (by simp)).1⟩

/-- A host below `domain` with a first label that is longer than any managed glob. -/
def probe (n : Nat) (domain : Str) : Str := List.replicate (n + 1) 'a' ++ '.' :: domain

theorem probe_subset (n : Nat) (domain : Str) : probe n domain ⊆ 'a' :: '.' :: domain := by
  intro c hc
  rcases mem_append.1 hc with hc | hc
  · simp [eq_of_mem_replicate hc]
  · exact mem_cons_of_mem _ hc

theorem globMatches_probe {n : Nat} (hdomain : Literal domain) :
    globMatches (subdomainGlob domain) (probe n domain) = true := by
  exact globMatches_subdomainGlob.2 ⟨List.replicate (n + 1) 'a', '.' :: domain, rfl, by simp,
    (globMatches_literal (literal_dot hdomain)).2 rfl⟩

/-- Of two suffixes of the probe, the one of a short managed glob starts inside the domain. -/
theorem covers_of_covers_probe {n : Nat} (hlen : managedGlob.length ≤ n)
    (h : Covers managedGlob (probe n domain)) : Covers managedGlob (subdomainGlob domain) := by
  rcases h with rfl | ⟨d, front, rfl, hprobe, -⟩
  · simp [probe] at hlen
    omega
  · have hd : '.' :: d <:+ probe n domain := ⟨front, hprobe.symm⟩
    have hdomain : '.' :: domain <:+ probe n domain := ⟨_, rfl⟩
    rcases suffix_or_suffix_of_suffix hd hdomain with ⟨t, ht⟩ | ⟨t, ht⟩
    · refine .inr ⟨d, '?' :: '*' :: t, rfl, ?_, '?', by simp, by decide⟩
      rw [subdomainGlob, ← ht]
      rfl
    · -- The label in front of the domain has no dot, so nothing is left of it.
      cases t with
      | nil =>
        rw [nil_append] at ht
        cases ht
        exact .inl rfl
      | cons c t =>
        have hc : c = '.' := by
          rw [cons_append] at ht
          exact (List.cons.inj ht).1
        rw [← ht, ← List.append_assoc, probe] at hprobe
        have hrun := (append_inj' hprobe rfl).1
        have hmem : c ∈ List.replicate (n + 1) 'a' := by rw [hrun]; simp
        exact absurd (hc.symm.trans (eq_of_mem_replicate hmem)) (by decide)

/-! ## Compiled sets -/

section

variable {buildsGlob : Str → Bool} {managed configured : List Str}
  {allowSet managedSet : GlobSet}

theorem contained_of_covered (hallow : compileAllowlistGlobset buildsGlob configured = .ok allowSet)
    (hmanaged : compileAllowlistGlobset buildsGlob managed = .ok managedSet)
    (h : Covered managed configured) : Contained allowSet managedSet := by
  intro host hmatch
  obtain ⟨glob, hglob, hm⟩ := isMatch_iff.1 hmatch
  obtain ⟨pattern, hpattern, hglob⟩ := (mem_of_compile hallow).1 hglob
  obtain ⟨m, hm', managedGlob, hmem, hcovers⟩ := h pattern hpattern glob hglob
  exact isMatch_iff.2
    ⟨managedGlob, (mem_of_compile hmanaged).2 ⟨m, hm', hmem⟩, hcovers.globMatches hm⟩

/-- The managed pattern that matches a literal host covers it. -/
theorem exists_covers_of_isMatch
    (hmanaged : compileAllowlistGlobset buildsGlob managed = .ok managedSet)
    (hplain : ∀ m ∈ managed, Plain m) {host : Str} (hhost : Literal host) (hlow : Lowered host)
    (h : managedSet.isMatch host = true) :
    ∃ m ∈ managed, ∃ managedGlob ∈ globsOf m, managedGlob ∈ managedSet ∧
      Covers managedGlob host := by
  obtain ⟨managedGlob, hmem, hm⟩ := isMatch_iff.1 h
  obtain ⟨m, hm', hglob⟩ := (mem_of_compile hmanaged).1 hmem
  exact ⟨m, hm', managedGlob, hglob, hmem,
    covers_of_globMatches (hplain m hm') (lowered_domainOf m) hhost hlow (mem_globsOf hglob) hm⟩

theorem covered_of_contained (hallow : compileAllowlistGlobset buildsGlob configured = .ok allowSet)
    (hmanaged : compileAllowlistGlobset buildsGlob managed = .ok managedSet)
    (hconfigured : ∀ c ∈ configured, Plain c) (hplain : ∀ m ∈ managed, Plain m)
    (h : Contained allowSet managedSet) : Covered managed configured := by
  intro pattern hpattern glob hglob
  have hlit : Literal (domainOf pattern) := hconfigured pattern hpattern
  have hlow : Lowered (domainOf pattern) := lowered_domainOf pattern
  have hmem : glob ∈ allowSet := (mem_of_compile hallow).2 ⟨pattern, hpattern, hglob⟩
  have hmatch : ∀ host, globMatches glob host = true → managedSet.isMatch host = true :=
    fun host hm => h host (isMatch_iff.2 ⟨glob, hmem, hm⟩)
  rcases mem_globsOf hglob with rfl | rfl
  · -- The domain itself is a host that the glob matches.
    have hself := hmatch _ ((globMatches_literal hlit).2 rfl)
    obtain ⟨m, hm, managedGlob, hmglob, -, hcovers⟩ :=
      exists_covers_of_isMatch hmanaged hplain hlit hlow hself
    exact ⟨m, hm, managedGlob, hmglob, hcovers⟩
  · -- A host with a first label longer than every managed glob.
    have hprobe := hmatch (probe (managedSet.map List.length).sum (domainOf pattern))
      (globMatches_probe hlit)
    have hsub := probe_subset (managedSet.map List.length).sum (domainOf pattern)
    have hprobeLit : Literal (probe (managedSet.map List.length).sum (domainOf pattern)) := by
      intro c hc
      rcases mem_cons.1 (hsub hc) with rfl | hc
      · decide
      · exact literal_dot hlit c hc
    have hprobeLow : Lowered (probe (managedSet.map List.length).sum (domainOf pattern)) := by
      intro c hc
      rcases mem_cons.1 (hsub hc) with rfl | hc
      · decide
      · rcases mem_cons.1 hc with rfl | hc
        · decide
        · exact hlow c hc
    obtain ⟨m, hm, managedGlob, hmglob, hmset, hcovers⟩ :=
      exists_covers_of_isMatch hmanaged hplain hprobeLit hprobeLow hprobe
    have hlen : managedGlob.length ≤ (managedSet.map List.length).sum :=
      le_sum_of_mem (mem_map_of_mem hmset)
    exact ⟨m, hm, managedGlob, hmglob, covers_of_covers_probe hlen hcovers⟩

end

/-! ## Patterns read alike -/

/-- The check and the matcher read the pattern alike, and its domain has no trailing dot. -/
structure ReadAlike (hostParse : Str → Option Str) (pattern : Str) : Prop where
  parse_eq : parseForConstraints hostParse pattern =
    parse (normalizePattern pattern)
  no_dot : trimEndDots (domainOf pattern) = domainOf pattern

/-- No wildcard in the domain, and no empty label in front. -/
structure Ordinary (pattern : Str) : Prop where
  plain : Plain pattern
  label : (domainOf pattern).head? ≠ some '.'

/-- `child` is `parent` with labels in front. -/
def Below (child parent : Str) : Prop := ∃ front, child = front ++ '.' :: parent

theorem below_or_eq_of_isSubdomainOrEqual (hchild : normalizeDomain child = child)
    (hparent : normalizeDomain parent = parent) (h : isSubdomainOrEqual child parent = true) :
    child = parent ∨ Below child parent := by
  simp only [isSubdomainOrEqual, hchild, hparent, Bool.or_eq_true, decide_eq_true_eq,
    isSuffixOf_iff_suffix] at h
  rcases h with h | ⟨front, h⟩
  · exact .inl h
  · exact .inr ⟨front, h.symm⟩

theorem below_of_isStrictSubdomain (hchild : normalizeDomain child = child)
    (hparent : normalizeDomain parent = parent) (h : isStrictSubdomain child parent = true) :
    Below child parent := by
  simp only [isStrictSubdomain, hchild, hparent, Bool.and_eq_true, decide_eq_true_eq,
    isSuffixOf_iff_suffix] at h
  obtain ⟨-, front, h⟩ := h
  exact ⟨front, h.symm⟩

theorem Below.covers_domain (h : Below child parent) (hlit : Literal child)
    (hlabel : child.head? ≠ some '.') : Covers (subdomainGlob parent) child := by
  obtain ⟨front, rfl⟩ := h
  cases front with
  | nil => exact absurd rfl hlabel
  | cons c front =>
    exact .inr ⟨parent, c :: front, rfl, rfl, c, by simp, (hlit c (by simp)).1⟩

theorem Below.covers_subdomains (h : Below child parent) :
    Covers (subdomainGlob parent) (subdomainGlob child) := by
  obtain ⟨front, rfl⟩ := h
  exact .inr ⟨parent, '?' :: '*' :: '.' :: front, rfl, rfl, '?', by simp, by decide⟩

variable {hostParse : Str → Option Str}

theorem ReadAlike.normalizeDomain {pattern : Str} (h : ReadAlike hostParse pattern) :
    normalizeDomain (domainOf pattern) = domainOf pattern := by
  rw [NetworkProxy.normalizeDomain, h.no_dot, (lowered_domainOf pattern).eq]

/-- What `allows` says about two patterns with normal domains. -/
theorem allows_cases {a b : DomainPattern} (ha : normalizeDomain a.domain = a.domain)
    (hb : normalizeDomain b.domain = b.domain) (h : a.allows b = true) :
    b = a ∨ a = .apexAndSubdomains b.domain ∨
      a ≠ .exact a.domain ∧ Below b.domain a.domain := by
  cases a with
  | exact d =>
    cases b with
    | exact e =>
      simp only [domain] at ha hb
      rw [allows, domainEq, ha, hb, decide_eq_true_eq] at h
      exact .inl (by rw [h])
    | subdomainsOnly e => cases h
    | apexAndSubdomains e => cases h
  | subdomainsOnly d =>
    cases b with
    | exact e | apexAndSubdomains e => exact .inr (.inr ⟨nofun, below_of_isStrictSubdomain hb ha h⟩)
    | subdomainsOnly e =>
      rcases below_or_eq_of_isSubdomainOrEqual hb ha h with heq | hbelow
      · exact .inl (congrArg _ heq)
      · exact .inr (.inr ⟨nofun, hbelow⟩)
  | apexAndSubdomains d =>
    have hsub : isSubdomainOrEqual b.domain d = true := by
      cases b with
      | exact e | subdomainsOnly e | apexAndSubdomains e => exact h
    rcases below_or_eq_of_isSubdomainOrEqual hb ha hsub with heq | hbelow
    · exact .inr (.inl (congrArg _ heq.symm))
    · exact .inr (.inr ⟨nofun, hbelow⟩)

theorem subdomainGlob_mem_globsOf {pattern : Str}
    (h : parse (normalizePattern pattern) ≠ .exact (domainOf pattern)) :
    subdomainGlob (domainOf pattern) ∈ globsOf pattern := by
  unfold globsOf expandDomainPattern
  unfold domainOf at h ⊢
  cases hp : parse (normalizePattern pattern) with
  | exact d => exact absurd (by rw [hp]; rfl) h
  | subdomainsOnly d | apexAndSubdomains d => simp [domain]

/-- What the check allows is covered, for patterns it reads as the matcher does. -/
theorem covers_of_allows {m c : Str} (hm : ReadAlike hostParse m) (hc : ReadAlike hostParse c)
    (hord : Ordinary c)
    (h : (parseForConstraints hostParse m).allows
      (parseForConstraints hostParse c) = true)
    {glob : Str} (hglob : glob ∈ globsOf c) :
    ∃ managedGlob ∈ globsOf m, Covers managedGlob glob := by
  rw [hm.parse_eq, hc.parse_eq] at h
  rcases allows_cases hm.normalizeDomain hc.normalizeDomain h with heq | hapex | ⟨hwild, hbelow⟩
  · exact ⟨glob, by rwa [globsOf, expandDomainPattern, ← heq], .inl rfl⟩
  · refine ⟨glob, ?_, .inl rfl⟩
    rw [globsOf, expandDomainPattern, hapex]
    rcases mem_globsOf hglob with rfl | rfl
    · simp [domainOf]
    · simp [domainOf]
  · refine ⟨_, subdomainGlob_mem_globsOf hwild, ?_⟩
    rcases mem_globsOf hglob with rfl | rfl
    · exact Below.covers_domain hbelow hord.plain hord.label
    · exact Below.covers_subdomains hbelow

/-! ## Accepted configs -/

variable {Hook Mitm MitmHooks : Type}

/-- Without expansion, an accepted entry is a managed entry up to case. -/
theorem covered_of_expansion_disabled {managed candidate denied : List Str}
    (h : validateAllowedDomains hostParse (some false) managed candidate denied = .ok ()) :
    Covered managed candidate := by
  simp only [validateAllowedDomains] at h
  split at h
  · next hsame =>
    rw [sameSet, Bool.and_eq_true, all_eq_true] at hsame
    intro pattern hpattern glob hglob
    have hmem := hsame.1 _ (mem_map_of_mem hpattern)
    rw [decide_eq_true_eq, mem_filter] at hmem
    obtain ⟨m, hm, heq⟩ := mem_map.1 hmem.1
    exact ⟨m, hm, glob, by rwa [globsOf_congr heq], .inl rfl⟩
  · cases h

/-- An accepted config of ordinary patterns is covered when the two readings agree. -/
theorem covered_of_readAlike {managed candidate denied : List Str}
    (hm : ∀ m ∈ managed, ReadAlike hostParse m)
    (hc : ∀ c ∈ candidate, ReadAlike hostParse c ∧ Ordinary c)
    (h : validateAllowedDomains hostParse none managed candidate denied = .ok ()) :
    Covered managed candidate := by
  simp only [validateAllowedDomains] at h
  split at h
  · next hinvalid =>
    intro c hmem glob hglob
    have hallowed := filter_eq_nil_iff.1 (List.isEmpty_iff.1 hinvalid) c hmem
    simp only [Bool.not_eq_true, Bool.not_eq_false', any_map, any_eq_true] at hallowed
    obtain ⟨m, hmanaged, hallows⟩ := hallowed
    exact ⟨m, hmanaged, covers_of_allows (hm m hmanaged) (hc c hmem).1 (hc c hmem).2 hallows hglob⟩
  · cases h

/-- **Containment of accepted allow lists.** An accepted config matches managed hosts only when its
globs are covered; they are when expansion of the list is disabled, and when ordinary patterns
are read alike. For patterns without wildcards in their domains the condition is exact, for whole
configs and for single patterns. -/
theorem accepted_contained_iff_covered (ext : Externals Hook Mitm MitmHooks)
    (config : NetworkProxyConfig Hook) (constraints : NetworkProxyConstraints)
    {managed : List Str} (hmanaged : constraints.allowedDomains = some managed) :
    (∀ allowSet managedSet : GlobSet,
      compileAllowlistGlobset ext.buildsGlob (config.allowedDomains.getD []) = .ok allowSet →
      compileAllowlistGlobset ext.buildsGlob managed = .ok managedSet →
        ((Covered managed (config.allowedDomains.getD []) ∨
            constraints.allowlistExpansionEnabled = some false ∨
            constraints.allowlistExpansionEnabled = none ∧
              (∀ m ∈ managed, ReadAlike ext.hostParse m) ∧
              ∀ c ∈ config.allowedDomains.getD [], ReadAlike ext.hostParse c ∧ Ordinary c) →
          validatePolicyAgainstConstraints ext config constraints = .ok () →
            Contained allowSet managedSet) ∧
        ((∀ pattern ∈ managed ++ config.allowedDomains.getD [], Plain pattern) →
          ((validatePolicyAgainstConstraints ext config constraints = .ok () →
              Contained allowSet managedSet) ↔
            (validatePolicyAgainstConstraints ext config constraints = .ok () →
              Covered managed (config.allowedDomains.getD []))))) ∧
    (∀ (m c : Str) (allowSet managedSet : GlobSet),
      compileAllowlistGlobset ext.buildsGlob [c] = .ok allowSet →
      compileAllowlistGlobset ext.buildsGlob [m] = .ok managedSet →
      (parseForConstraints ext.hostParse m).allows
        (parseForConstraints ext.hostParse c) = true →
        (Covered [m] [c] → Contained allowSet managedSet) ∧
        (Plain m → Plain c → (Contained allowSet managedSet ↔ Covered [m] [c]))) := by
  refine ⟨fun allowSet managedSet hallow hman => ⟨?_, ?_⟩,
    fun m c allowSet managedSet hallow hman _ => ⟨contained_of_covered hallow hman, ?_⟩⟩
  · intro hcases haccepted
    have hvalid := allowedDomains_validated haccepted hmanaged
    refine contained_of_covered hallow hman ?_
    rcases hcases with hcovered | hdisabled | ⟨hnone, hm, hc⟩
    · exact hcovered
    · rw [hdisabled] at hvalid
      exact covered_of_expansion_disabled hvalid
    · rw [hnone] at hvalid
      exact covered_of_readAlike hm hc hvalid
  · intro hplain
    have hconfigured : ∀ c ∈ config.allowedDomains.getD [], Plain c :=
      fun c hc => hplain c (mem_append_right _ hc)
    have hmplain : ∀ m ∈ managed, Plain m := fun m hm => hplain m (mem_append_left _ hm)
    exact ⟨fun h haccepted =>
        covered_of_contained hallow hman hconfigured hmplain (h haccepted),
      fun h haccepted => contained_of_covered hallow hman (h haccepted)⟩
  · intro hm hc
    exact ⟨covered_of_contained hallow hman (by simpa using hc) (by simpa using hm),
      contained_of_covered hallow hman⟩

/-! ## A port is enough -/

def allowing (patterns : List Str) : NetworkProxyConfig Unit :=
  { NetworkProxyConfig.defaults with
    domains := some ⟨patterns.map fun pattern => ⟨pattern, .allow⟩⟩ }

def managedAllowing (patterns : List Str) : NetworkProxyConstraints :=
  { NetworkProxyConstraints.defaults with allowedDomains := some patterns }

def exampleSubdomains : Str := "*.example.com".toList

def exampleApi : Str := "api.example.com".toList

theorem covered_exampleApi : Covered [exampleSubdomains] [exampleApi] := by
  intro pattern hpattern glob hglob
  rw [mem_singleton] at hpattern
  subst hpattern
  have hapi : globsOf exampleApi = [exampleApi] := by decide +kernel
  have hsub : globsOf exampleSubdomains = [subdomainGlob "example.com".toList] := by decide +kernel
  rw [hapi, mem_singleton] at hglob
  subst hglob
  refine ⟨exampleSubdomains, by simp, subdomainGlob "example.com".toList, by rw [hsub]; simp, ?_⟩
  exact .inr ⟨"example.com".toList, "api".toList, rfl, by decide, 'a', by decide, by decide⟩

theorem exampleApi_contained :
    Contained [exampleApi] [subdomainGlob "example.com".toList] :=
  ((accepted_contained_iff_covered plainExternals (allowing [exampleApi])
      (managedAllowing [exampleSubdomains]) rfl).1 _ _ (by decide +kernel) (by decide +kernel)).1
    (.inl covered_exampleApi) (by decide +kernel)

def evilWithPort : Str := "evil.com:80".toList

def goodWithPort : Str := "good.com:443".toList

/-- Both entries have a port, `url::Host::parse` refuses both, and both are read as the empty
domain: the config is accepted, and it matches a host that the managed list does not match. -/
theorem port_escapes_managed_allowlist :
    (∀ host : Str, (':' ∈ host ∨ '[' ∈ host ∨ ']' ∈ host) → asciiHostParse host = none) ∧
      (managedAllowing [goodWithPort]).allowedDomains = some [goodWithPort] ∧
      (managedAllowing [goodWithPort]).allowlistExpansionEnabled = none ∧
      validatePolicyAgainstConstraints plainExternals (allowing [evilWithPort])
        (managedAllowing [goodWithPort]) = .ok () ∧
      ∃ allowSet managedSet : GlobSet,
        compileAllowlistGlobset plainExternals.buildsGlob
          ((allowing [evilWithPort]).allowedDomains.getD []) = .ok allowSet ∧
        compileAllowlistGlobset plainExternals.buildsGlob [goodWithPort] = .ok managedSet ∧
        allowSet.isMatch "evil.com".toList = true ∧
        managedSet.isMatch "evil.com".toList = false := by
  refine ⟨?_, rfl, rfl, by decide +kernel, ["evil.com".toList], ["good.com".toList],
    by decide +kernel, by decide +kernel, by decide +kernel, by decide +kernel⟩
  intro host h
  unfold asciiHostParse
  refine if_pos (any_eq_true.2 ?_)
  rcases h with h | h | h
  · exact ⟨':', h, by decide⟩
  · exact ⟨'[', h, by decide⟩
  · exact ⟨']', h, by decide⟩

end Codex.NetworkProxy
