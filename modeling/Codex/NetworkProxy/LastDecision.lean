import Codex.NetworkProxy.HostBlocked

/-!
# The last decision about a host

The entries of a config are compared by their normal forms when a host is allowed or denied,
and compiled into globs when a request is checked. For a host whose normal form is in normal
form itself the two agree: what was decided last is what the proxy does.
-/

namespace Codex.NetworkProxy

open List Codex.Text

/-! ## Effective entries -/

theorem rank_injective {p q : NetworkDomainPermission} (h : p.rank = q.rank) : p = q := by
  cases p <;> cases q <;> first | rfl | cases h

/-- Of the entries of a pattern, one with the strongest permission is effective. -/
theorem mem_effective {entries : List NetworkDomainPermissionEntry} :
    (∀ entry, entry ∈ entries.foldl addEffective [] ↔
      entry ∈ entries ∧ ∀ e ∈ entries, e.pattern = entry.pattern →
        e.permission.rank ≤ entry.permission.rank) ∧
    ∀ e ∈ entries, ∃ entry ∈ entries.foldl addEffective [], entry.pattern = e.pattern := by
  induction entries using List.reverseRecOn with
  | nil => exact ⟨fun entry => ⟨nofun, fun h => absurd h.1 not_mem_nil⟩, nofun⟩
  | append_singleton entries new ih =>
    obtain ⟨hmem, hcover⟩ := ih
    rw [foldl_append, foldl_cons, foldl_nil]
    generalize entries.foldl addEffective [] = effective at hmem hcover ⊢
    unfold addEffective
    by_cases hany : effective.any (·.pattern = new.pattern) = true
    · rw [if_pos hany]
      obtain ⟨old, hold, hpattern⟩ := any_eq_true.1 hany
      have hpattern := of_decide_eq_true hpattern
      refine ⟨fun entry => ⟨fun hentry => ?_, fun hentry => ?_⟩, fun e he => ?_⟩
      · obtain ⟨e, he, rfl⟩ := mem_map.1 hentry
        obtain ⟨hin, hmax⟩ := (hmem e).1 he
        split
        · next hreplaced =>
          rw [Bool.and_eq_true, decide_eq_true_eq, decide_eq_true_eq] at hreplaced
          refine ⟨mem_append_right _ (mem_singleton_self new), fun e' he' heq => ?_⟩
          rcases mem_append.1 he' with hbefore | hlast
          · exact (hmax e' hbefore (heq.trans hreplaced.1.symm)).trans hreplaced.2.le
          · rw [mem_singleton.1 hlast]
        · next hkept =>
          rw [Bool.and_eq_true, decide_eq_true_eq, decide_eq_true_eq, not_and, Nat.not_lt] at hkept
          refine ⟨mem_append_left _ hin, fun e' he' heq => ?_⟩
          rcases mem_append.1 he' with hbefore | hlast
          · exact hmax e' hbefore heq
          · rw [mem_singleton.1 hlast] at heq ⊢
            exact hkept heq.symm
      · obtain ⟨hin, hmax⟩ := hentry
        rcases mem_append.1 hin with hbefore | hlast
        · refine mem_map.2 ⟨entry, (hmem entry).2 ⟨hbefore, fun e' he' =>
            hmax e' (mem_append_left _ he')⟩, if_neg fun hreplaced => ?_⟩
          rw [Bool.and_eq_true, decide_eq_true_eq, decide_eq_true_eq] at hreplaced
          have hle := hmax new (mem_append_right _ (mem_singleton_self new))
            hreplaced.1.symm
          omega
        · rw [mem_singleton.1 hlast] at hmax ⊢
          refine mem_map.2 ⟨old, hold, ?_⟩
          split
          · rfl
          · next hkept =>
            rw [Bool.and_eq_true, decide_eq_true_eq, decide_eq_true_eq, not_and, Nat.not_lt] at hkept
            have hle := hmax old (mem_append_left _ ((hmem old).1 hold).1) hpattern
            have hrank := rank_injective (Nat.le_antisymm hle (hkept hpattern))
            obtain ⟨pattern, permission⟩ := old
            obtain ⟨pattern', permission'⟩ := new
            cases hpattern
            cases hrank
            rfl
      · have hsame : ∀ e ∈ effective, (if e.pattern = new.pattern &&
            e.permission.rank < new.permission.rank then new else e).pattern = e.pattern := by
          intro e _
          split
          · next hreplaced =>
            rw [Bool.and_eq_true, decide_eq_true_eq] at hreplaced
            exact hreplaced.1.symm
          · rfl
        obtain ⟨entry, hentry, heq⟩ : ∃ entry ∈ effective, entry.pattern = e.pattern := by
          rcases mem_append.1 he with hbefore | hlast
          · exact hcover e hbefore
          · rw [mem_singleton.1 hlast]
            exact ⟨old, hold, hpattern⟩
        exact ⟨_, mem_map_of_mem hentry, (hsame entry hentry).trans heq⟩
    · rw [if_neg hany]
      have hfresh : ∀ e ∈ entries, e.pattern ≠ new.pattern := by
        intro e he heq
        obtain ⟨entry, hentry, hsame⟩ := hcover e he
        exact hany (any_eq_true.2 ⟨entry, hentry, decide_eq_true (hsame.trans heq)⟩)
      refine ⟨fun entry => ?_, fun e he => ?_⟩
      · rw [mem_append, mem_append, mem_singleton, hmem]
        constructor
        · rintro (⟨hin, hmax⟩ | rfl)
          · refine ⟨Or.inl hin, fun e' he' heq => ?_⟩
            rcases mem_append.1 he' with hbefore | hlast
            · exact hmax e' hbefore heq
            · rw [mem_singleton.1 hlast] at heq
              exact absurd heq.symm (hfresh entry hin)
          · refine ⟨Or.inr rfl, fun e' he' heq => ?_⟩
            rcases mem_append.1 he' with hbefore | hlast
            · exact absurd heq (hfresh e' hbefore)
            · rw [mem_singleton.1 hlast]
        · rintro ⟨hin | rfl, hmax⟩
          · exact Or.inl ⟨hin, fun e' he' => hmax e' (mem_append_left _ he')⟩
          · exact Or.inr rfl
      · rcases mem_append.1 he with hbefore | hlast
        · obtain ⟨entry, hentry, heq⟩ := hcover e hbefore
          exact ⟨entry, mem_append_left _ hentry, heq⟩
        · exact ⟨new, mem_append_right _ (mem_singleton_self new),
            by rw [mem_singleton.1 hlast]⟩

variable {domains : NetworkDomainPermissions}

theorem mem_domainEntriesOf {permission : NetworkDomainPermission} {pattern : Str} :
    pattern ∈ (domainEntriesOf (some domains) permission).getD [] ↔
      (⟨pattern, permission⟩ : NetworkDomainPermissionEntry) ∈ domains.entries ∧
        ∀ e ∈ domains.entries, e.pattern = pattern → e.permission.rank ≤ permission.rank := by
  have hlist : (domainEntriesOf (some domains) permission).getD [] =
      (domains.effectiveEntries.filter (·.permission = permission)).map (·.pattern) := by
    unfold domainEntriesOf
    rw [Option.map_some]
    cases (domains.effectiveEntries.filter (·.permission = permission)).map (·.pattern) <;> rfl
  rw [hlist, mem_map]
  constructor
  · rintro ⟨⟨pattern, permission⟩, hentry, rfl⟩
    obtain ⟨heffective, hpermission⟩ := mem_filter.1 hentry
    cases of_decide_eq_true hpermission
    exact (mem_effective.1 _).1 heffective
  · intro hentry
    exact ⟨_, mem_filter.2 ⟨(mem_effective.1 _).2 hentry, decide_eq_true rfl⟩, rfl⟩

theorem mem_entries {target : DomainListKind} {pattern : Str} :
    pattern ∈ target.entries (some domains) ↔
      (⟨pattern, target.permission⟩ : NetworkDomainPermissionEntry) ∈ domains.entries ∧
        ∀ e ∈ domains.entries, e.pattern = pattern → e.permission.rank ≤ target.permission.rank :=
  mem_domainEntriesOf

/-! ## Normal forms -/

variable {host pattern n : Str}

theorem trim_trim (s : Str) : trim (trim s) = trim s := by
  show trim (trimStart (trimEnd s)) = trim s
  rw [trim_trimStart, trim_trimEnd]

theorem trim_sublist (s : Str) : List.Sublist (trim s) s :=
  (dropWhile_suffix _).sublist.trans (List.rdropWhile_prefix _ _).sublist

theorem stripPort_sublist (s : Str) : List.Sublist (stripPort s) s := by
  unfold stripPort
  split
  · next inside hinside =>
    unfold bracketed at hinside
    split at hinside
    · obtain ⟨⟨before, after⟩, hsplit, rfl⟩ := Option.map_eq_some_iff.1 hinside
      rw [splitOnce_eq hsplit]
      exact (tail_sublist before).trans (sublist_append_left _ _)
    · cases hinside
  · split
    · exact takeWhile_sublist _
    · exact List.Sublist.refl s

/-- What is left of a host has no other characters than it, but for the mark of a scope. -/
theorem normalizeHost_bounds (host : Str) :
    (normalizeHost host).length ≤ (trim host).length ∧
      ∀ c ∈ normalizeHost host, c = '%' ∨ c ∈ toAsciiLowercase (trim host) := by
  have hdots : List.Sublist (trimEndDots (toAsciiLowercase (stripPort (trim host))))
      (toAsciiLowercase (trim host)) :=
    (List.rdropWhile_prefix _ _).sublist.trans ((stripPort_sublist _).map asciiLower)
  have hlen : (trimEndDots (toAsciiLowercase (stripPort (trim host)))).length ≤ (trim host).length :=
    hdots.length_le.trans (length_map asciiLower).le
  unfold normalizeHost normalizeDnsHostOrIpLiteral
  dsimp only
  generalize trimEndDots (toAsciiLowercase (stripPort (trim host))) = bare at hdots hlen ⊢
  cases hip : normalizeIpLiteral bare with
  | none => exact ⟨hlen, fun c hc => Or.inr (hdots.subset hc)⟩
  | some ip =>
    have hscoped : ∀ {mark address scope : Str}, bare = address ++ mark ++ scope → 1 ≤ mark.length →
        ip = address ++ '%' :: scope → ip.length ≤ (trim host).length ∧
          ∀ c ∈ ip, c = '%' ∨ c ∈ toAsciiLowercase (trim host) := by
      rintro mark address scope hbare hmark rfl
      rw [hbare] at hlen hdots
      refine ⟨?_, fun c hc => ?_⟩
      · rw [length_append, length_append] at hlen
        rw [length_append, length_cons]
        omega
      · rcases mem_append.1 hc with haddress | hrest
        · exact Or.inr (hdots.subset (mem_append_left _ (mem_append_left _ haddress)))
        · rcases mem_cons.1 hrest with hpercent | hscope
          · exact Or.inl hpercent
          · exact Or.inr (hdots.subset (mem_append_right _ hscope))
    rcases normalizeIpLiteral_cases hip with rfl | ⟨address, scope, -, hresult, hsplit | hsplit⟩
    · exact ⟨hlen, fun c hc => Or.inr (hdots.subset hc)⟩
    · exact hscoped hsplit (by decide) hresult
    · exact hscoped (hsplit.trans (append_cons address '%' scope)) (by decide) hresult

/-- A host in normal form has no white space around it. -/
theorem trim_of_normal (hnormal : normalizeHost n = n) : trim n = n := by
  have hlen := (normalizeHost_bounds n).1
  rw [hnormal] at hlen
  exact (trim_sublist n).eq_of_length_le hlen

/-- A leading star stays. -/
theorem star_mem_normalizeHost (h : (trim host).head? = some '*') : '*' ∈ normalizeHost host := by
  have hstrip : '*' ∈ stripPort (trim host) := by
    obtain ⟨rest, hrest⟩ : ∃ rest, trim host = '*' :: rest := head?_eq_some_iff.1 h
    have hbracketed : bracketed (trim host) = none := by
      rw [bracketed, h, if_neg (by decide)]
    rw [stripPort, hbracketed, hrest]
    dsimp only
    split
    · rw [takeWhile_cons_of_pos (by decide)]
      exact mem_cons_self
    · exact mem_cons_self
  have hbare : '*' ∈ trimEndDots (toAsciiLowercase (stripPort (trim host))) := by
    have hlower : '*' ∈ toAsciiLowercase (stripPort (trim host)) :=
      mem_map.2 ⟨'*', hstrip, by decide⟩
    have hsplit := @rdropWhile_append_rtakeWhile _ (· == '.')
      (toAsciiLowercase (stripPort (trim host)))
    rw [← hsplit] at hlower
    rcases mem_append.1 hlower with hfront | hdots
    · exact hfront
    · exact absurd (mem_rtakeWhile_imp hdots) (by decide)
  unfold normalizeHost normalizeDnsHostOrIpLiteral
  dsimp only
  generalize trimEndDots (toAsciiLowercase (stripPort (trim host))) = bare at hbare ⊢
  cases hip : normalizeIpLiteral bare with
  | none => exact hbare
  | some ip =>
    have hmark : '*' ∉ ['%', '2', '5'] := by decide
    rcases normalizeIpLiteral_cases hip with rfl | ⟨address, scope, -, rfl, rfl | rfl⟩
    · exact hbare
    · rcases mem_append.1 hbare with hfront | hscope
      · exact mem_append_left _ ((mem_append.1 hfront).resolve_right hmark)
      · exact mem_append_right _ (mem_cons_of_mem _ hscope)
    · exact hbare

theorem stripPrefix_of_noStar {before : Str} (hbefore : before.head? = some '*')
    (h : pattern.head? ≠ some '*') : stripPrefix pattern before = none := by
  rw [stripPrefix_eq_none]
  rintro ⟨rest, rfl⟩
  rw [head?_append, hbefore] at h
  exact h rfl

theorem normalizePattern_of_noStar (h : '*' ∉ normalizeHost pattern) :
    normalizePattern pattern = normalizeHost pattern := by
  have hhead : (trim pattern).head? ≠ some '*' := fun hstar => h (star_mem_normalizeHost hstar)
  have hone : trim pattern ≠ ['*'] := by
    intro heq
    rw [heq] at hhead
    exact hhead rfl
  unfold normalizePattern
  dsimp only
  rw [if_neg hone, stripPrefix_of_noStar rfl hhead, stripPrefix_of_noStar rfl hhead]
  dsimp only
  rw [normalizeHost, trim_trim]
  rfl

/-- A pattern whose normal form has no star is compiled into that, trimmed. -/
theorem globsOf_of_noStar (h : '*' ∉ normalizeHost pattern) :
    globsOf pattern = [trim (normalizeHost pattern)] := by
  rw [globsOf, normalizePattern_of_noStar h]
  have hhead : (trim (normalizeHost pattern)).head? ≠ some '*' := fun hstar =>
    h ((trim_sublist _).subset (mem_of_mem_head? hstar))
  unfold expandDomainPattern DomainPattern.parse
  dsimp only
  by_cases hempty : (trim (normalizeHost pattern)).isEmpty = true
  · rw [if_pos hempty, List.isEmpty_iff.1 hempty]
  · rw [if_neg hempty, stripPrefix_of_noStar rfl hhead, stripPrefix_of_noStar rfl hhead]

/-! ## Hosts without metacharacters -/

def globMetachars : List Char := ['*', '?', '[', ']', '{', '}', Char.ofNat 0x5C]

def NoMeta (s : Str) : Prop := ∀ c ∈ s, c ∉ globMetachars

instance (s : Str) : Decidable (NoMeta s) := List.decidableBAll (fun c => c ∉ globMetachars) s

/-- What `globset` documents: without metacharacters, a glob matches its own text, up to case. -/
def LiteralGlobs (glob : Str → Str → Bool) : Prop :=
  ∀ pattern text, NoMeta pattern →
    (glob pattern text = true ↔ toAsciiLowercase text = toAsciiLowercase pattern)

variable {glob : Str → Str → Bool}

theorem NoMeta.noStar (h : NoMeta n) : '*' ∉ n := fun hstar => h '*' hstar (by decide)

/-- Normalisation puts no metacharacter in. -/
theorem NoMeta.normalizeHost (h : NoMeta pattern) : NoMeta (normalizeHost pattern) := by
  intro c hc
  rcases (normalizeHost_bounds pattern).2 c hc with rfl | hlower
  · decide
  · obtain ⟨d, hd, rfl⟩ := mem_map.1 hlower
    have hd := h d ((trim_sublist pattern).subset hd)
    intro hmeta
    rcases asciiLower_cases d with ⟨hsame, -⟩ | ⟨hle, hge, hlower⟩
    · exact hd (hsame ▸ hmeta)
    · have hall : globMetachars.all (fun c => c.toNat < 97 || 122 < c.toNat) = true := by decide
      have hout := all_eq_true.1 hall _ hmeta
      rw [Bool.or_eq_true, decide_eq_true_eq, decide_eq_true_eq] at hout
      omega

/-- An entry with the normal form of a host matches the host. -/
theorem globsetMatches_of_entry (hglob : LiteralGlobs glob) {buildsGlob : Str → Bool}
    {globalWildcard : GlobalWildcard} {patterns : List Str} {set : GlobSet}
    (hset : compileGlobsetWithPolicy buildsGlob globalWildcard patterns = .ok set)
    (hmeta : NoMeta n) (hnormal : normalizeHost n = n) (hpattern : pattern ∈ patterns)
    (heq : normalizeHost pattern = n) : globsetMatches glob set n = true := by
  have hmem : n ∈ set := by
    refine (mem_of_compile_policy hset).2 ⟨pattern, hpattern, ?_⟩
    rw [globsOf_of_noStar (heq ▸ hmeta.noStar), heq, trim_of_normal hnormal]
    exact mem_singleton_self n
  exact any_eq_true.2 ⟨n, hmem, (hglob n n hmeta).2 rfl⟩

section

variable {Hook Mitm MitmHooks : Type} [DecidableEq Hook] {ext : Externals Hook Mitm MitmHooks}
  {brokerEnabled : Bool} {reloader : Reloader Hook Mitm MitmHooks}
  {state state' : ConfigState Hook Mitm MitmHooks} {target : DomainListKind}

/-! ## Updates -/

omit [DecidableEq Hook] in
theorem upsertDomain_eq (domains : Option NetworkDomainPermissions) (m : Str)
    (permission : NetworkDomainPermission) :
    upsertDomain domains m permission normalizeHost =
      some ⟨((domains.getD ⟨[]⟩).entries.filter fun entry =>
        normalizeHost entry.pattern ≠ normalizeHost m) ++ [⟨m, permission⟩]⟩ := by
  unfold upsertDomain
  dsimp only
  rw [isEmpty_eq_false_iff.2 (append_ne_nil_of_right_ne_nil _ (cons_ne_nil _ _)),
    if_neg Bool.false_ne_true]

variable {domains : Option NetworkDomainPermissions}

omit [DecidableEq Hook] in
/-- The entry an update writes is effective, and the others of the host are gone. -/
theorem upsert_entries (hnormal : normalizeHost n = n) :
    n ∈ target.entries (upsertDomain domains n target.permission normalizeHost) ∧
      ∀ pattern ∈ target.opposite.entries (upsertDomain domains n target.permission normalizeHost),
        normalizeHost pattern ≠ n := by
  have hold : ∀ e : NetworkDomainPermissionEntry, e ∈ (domains.getD ⟨[]⟩).entries.filter (fun entry =>
      normalizeHost entry.pattern ≠ normalizeHost n) → normalizeHost e.pattern ≠ n := by
    intro e he
    have hne := of_decide_eq_true (mem_filter.1 he).2
    rwa [hnormal] at hne
  rw [upsertDomain_eq, mem_entries]
  refine ⟨⟨mem_append_right _ (mem_singleton_self _), ?_⟩, ?_⟩
  · intro e he heq
    rcases mem_append.1 he with hretained | hnew
    · exact absurd ((congrArg normalizeHost heq).trans hnormal) (hold e hretained)
    · rw [mem_singleton.1 hnew]
  · intro pattern hpattern
    obtain ⟨hentry, -⟩ := mem_entries.1 hpattern
    rcases mem_append.1 hentry with hretained | hnew
    · exact hold ⟨pattern, target.opposite.permission⟩ hretained
    · have hpermission : target.opposite.permission = target.permission :=
        congrArg NetworkDomainPermissionEntry.permission (mem_singleton.1 hnew)
      cases target <;> cases hpermission

omit [DecidableEq Hook] in
/-- A denial stays when another host is updated. -/
theorem upsert_keeps_denied {m : Str} {permission : NetworkDomainPermission}
    (hpattern : pattern ∈ DomainListKind.deny.entries domains)
    (hne : normalizeHost pattern ≠ normalizeHost m) :
    pattern ∈ DomainListKind.deny.entries (upsertDomain domains m permission normalizeHost) := by
  have hentry : ⟨pattern, .deny⟩ ∈ (domains.getD ⟨[]⟩).entries := by
    cases domains with
    | none => cases hpattern
    | some domains => exact (mem_entries.1 hpattern).1
  rw [upsertDomain_eq, mem_entries]
  refine ⟨mem_append_left _ (mem_filter.2 ⟨hentry, decide_eq_true hne⟩),
    fun e _ _ => ?_⟩
  cases e.permission <;> decide

/-- A host that an entry denies. -/
def DeniedBy (state : ConfigState Hook Mitm MitmHooks) (n : Str) : Prop :=
  ∃ pattern ∈ DomainListKind.deny.entries state.config.domains, normalizeHost pattern = n

/-- **What an update that ends well has established.** -/
theorem updateAlone_ok (hquiet : reloader.maybeReload = .ok none) (hcompiled : Compiled ext state)
    (hnormal : normalizeHost (normalizeHost host) = normalizeHost host) {reply : Reply}
    (h : (updateAlone ext brokerEnabled reloader state host target).1 = .done (.ok reply)) :
    Compiled ext (updateAlone ext brokerEnabled reloader state host target).2 ∧
    (∃ pattern ∈ target.entries
        (updateAlone ext brokerEnabled reloader state host target).2.config.domains,
      normalizeHost pattern = normalizeHost host) ∧
    ∀ pattern ∈ target.opposite.entries
        (updateAlone ext brokerEnabled reloader state host target).2.config.domains,
      normalizeHost pattern ≠ normalizeHost host := by
  rcases updateAlone_cases ext brokerEnabled hquiet state host target with
    ⟨error, hupdate⟩ | ⟨hsettled, hupdate⟩ | ⟨newState, hbuild, hupdate⟩
  · rw [hupdate] at h
    cases h
  · rw [hupdate]
    unfold settled at hsettled
    rw [Bool.and_eq_true, Bool.not_eq_true', any_eq_true, any_eq_false] at hsettled
    obtain ⟨⟨pattern, hpattern, heq⟩, hopposite⟩ := hsettled
    refine ⟨hcompiled, ⟨pattern, hpattern, of_decide_eq_true heq⟩, fun other hother heq' => ?_⟩
    exact hopposite other hother (decide_eq_true heq')
  · rw [hupdate]
    have hconfig := (buildConfigState_eq_ok hbuild).1
    have hentries : normalizeHost host ∈ target.entries (upsertDomain state.config.domains
          (normalizeHost host) target.permission normalizeHost) ∧
        ∀ pattern ∈ target.opposite.entries (upsertDomain state.config.domains
          (normalizeHost host) target.permission normalizeHost),
          normalizeHost pattern ≠ normalizeHost host := upsert_entries hnormal
    have hdomains : (newState.keepBlocked state).config.domains = upsertDomain state.config.domains
        (normalizeHost host) target.permission normalizeHost := congrArg (·.domains) hconfig
    rw [hdomains]
    obtain ⟨hdeny, hallow⟩ := compiled_of_build hbuild
    exact ⟨⟨hdeny, hallow⟩, ⟨normalizeHost host, hentries.1, hnormal⟩, hentries.2⟩

/-- An update of another host keeps a denial. -/
theorem updateAlone_denied (host : Str) (target : DomainListKind)
    (hquiet : reloader.maybeReload = .ok none) (hcompiled : Compiled ext state)
    (hdenied : DeniedBy state n) (hne : normalizeHost (normalizeHost host) ≠ n) :
    Compiled ext (updateAlone ext brokerEnabled reloader state host target).2 ∧
      DeniedBy (updateAlone ext brokerEnabled reloader state host target).2 n := by
  rcases updateAlone_cases ext brokerEnabled hquiet state host target with
    ⟨error, hupdate⟩ | ⟨hsettled, hupdate⟩ | ⟨newState, hbuild, hupdate⟩
  · rw [hupdate]
    exact ⟨hcompiled, hdenied⟩
  · rw [hupdate]
    exact ⟨hcompiled, hdenied⟩
  · rw [hupdate]
    obtain ⟨hdeny, hallow⟩ := compiled_of_build hbuild
    obtain ⟨pattern, hpattern, heq⟩ := hdenied
    have hdomains : (newState.keepBlocked state).config.domains = upsertDomain state.config.domains
        (normalizeHost host) target.permission normalizeHost :=
      congrArg (·.domains) (buildConfigState_eq_ok hbuild).1
    refine ⟨⟨hdeny, hallow⟩, pattern, ?_, heq⟩
    rw [hdomains]
    exact upsert_keeps_denied hpattern fun hsame => hne (hsame.symm.trans heq)

theorem updateAll_denied (hquiet : reloader.maybeReload = .ok none)
    {updates : List (Str × DomainListKind)}
    (hother : ∀ update ∈ updates, normalizeHost (normalizeHost update.1) ≠ n)
    (hcompiled : Compiled ext state) (hdenied : DeniedBy state n) :
    Compiled ext (updateAll ext brokerEnabled reloader state updates) ∧
      DeniedBy (updateAll ext brokerEnabled reloader state updates) n := by
  induction updates generalizing state with
  | nil => exact ⟨hcompiled, hdenied⟩
  | cons update updates ih =>
    rw [forall_mem_cons] at hother
    obtain ⟨hcompiled', hdenied'⟩ :=
      updateAlone_denied update.1 update.2 hquiet hcompiled hdenied hother.1
    exact ih hother.2 hcompiled' hdenied'

theorem parse_of_ok {reply : Reply}
    (h : (updateAlone ext brokerEnabled reloader state host target).1 = .done (.ok reply)) :
    Host.parse host = some (normalizeHost host) := by
  unfold Host.parse
  dsimp only
  split
  · next hempty =>
    unfold updateAlone startUpdate Host.parse at h
    dsimp only at h
    rw [if_pos hempty] at h
    cases h
  · rfl

/-! ## Decisions -/

omit [DecidableEq Hook] in
/-- A host is denied when its set of denials matches it. -/
theorem hostBlocked_denied {checks : LocalChecks} (hparse : Host.parse host = some (normalizeHost host))
    (h : globsetMatches glob state.denySet (normalizeHost host) = true) (port : ℕ) :
    hostBlocked glob checks state host port = .blocked .denied := by
  unfold hostBlocked globsetMatchesHostOrUnscoped
  rw [hparse]
  dsimp only
  rw [h, Bool.true_or, if_pos rfl]

omit [DecidableEq Hook] in
/-- What a denied host is denied by. -/
theorem matches_of_hostBlocked {checks : LocalChecks} {port : ℕ}
    (hparse : Host.parse host = some (normalizeHost host))
    (h : hostBlocked glob checks state host port = .blocked .denied) :
    globsetMatches glob state.denySet (normalizeHost host) = true ∨
      ∃ ip, unscopedIpLiteral (normalizeHost host) = some ip ∧
        globsetMatches glob state.denySet ip = true := by
  unfold hostBlocked at h
  rw [hparse] at h
  dsimp only at h
  split at h
  · next hmatch =>
    unfold globsetMatchesHostOrUnscoped at hmatch
    rw [Bool.or_eq_true, Option.any_eq_true] at hmatch
    exact hmatch
  · split_ifs at h <;> cases h

/-- **The last decision about a host stands.** A host in normal form that was denied is denied on
every port until it is allowed again; a host that was allowed is matched by the allow set and denied
only by a wildcard, or by a denial of its address without the scope. -/
theorem last_decision_stands (hglob : LiteralGlobs glob) (checks : LocalChecks)
    (hquiet : reloader.maybeReload = .ok none) (hcompiled : Compiled ext state)
    (hmeta : NoMeta (normalizeHost host))
    (hnormal : normalizeHost (normalizeHost host) = normalizeHost host) :
    (∀ reply, (updateAlone ext brokerEnabled reloader state host .deny).1 = .done (.ok reply) →
      ∀ updates : List (Str × DomainListKind),
        (∀ update ∈ updates, normalizeHost (normalizeHost update.1) = normalizeHost update.1 ∧
          normalizeHost update.1 ≠ normalizeHost host) →
        ∀ port, hostBlocked glob checks (updateAll ext brokerEnabled reloader
          (updateAlone ext brokerEnabled reloader state host .deny).2 updates) host port =
            .blocked .denied) ∧
    ∀ reply, (updateAlone ext brokerEnabled reloader state host .allow).1 = .done (.ok reply) →
      globsetMatches glob (updateAlone ext brokerEnabled reloader state host .allow).2.allowSet
        (normalizeHost host) = true ∧
      ((∀ pattern ∈ DomainListKind.deny.entries
          (updateAlone ext brokerEnabled reloader state host .allow).2.config.domains,
          trim (normalizeHost pattern) = normalizeHost pattern) →
        ∀ port, hostBlocked glob checks
            (updateAlone ext brokerEnabled reloader state host .allow).2 host port =
              .blocked .denied →
          ∃ pattern ∈ DomainListKind.deny.entries
              (updateAlone ext brokerEnabled reloader state host .allow).2.config.domains,
            ¬NoMeta pattern ∧ globsetMatches glob (globsOf pattern) (normalizeHost host) = true ∨
            ∃ ip, unscopedIpLiteral (normalizeHost host) = some ip ∧
              globsetMatches glob (globsOf pattern) ip = true) := by
  refine ⟨fun reply hok updates hother port => ?_, fun reply hok => ?_⟩
  · obtain ⟨hcompiled', hdenied, -⟩ := updateAlone_ok hquiet hcompiled hnormal hok
    obtain ⟨hcompiled'', pattern, hpattern, heq⟩ :=
      updateAll_denied hquiet (fun update hupdate => by
        rw [(hother update hupdate).1]
        exact (hother update hupdate).2) hcompiled' hdenied
    exact hostBlocked_denied (parse_of_ok hok)
      (globsetMatches_of_entry hglob hcompiled''.deny hmeta hnormal hpattern heq) port
  · obtain ⟨hcompiled', ⟨allowed, hallowed, heq⟩, hopposite⟩ :=
      updateAlone_ok hquiet hcompiled hnormal hok
    refine ⟨globsetMatches_of_entry hglob hcompiled'.allow hmeta hnormal hallowed heq, ?_⟩
    intro htrim port hblocked
    -- whatever matches the host in the set of denials is a glob of an entry
    have hentry : ∀ text, globsetMatches glob
        (updateAlone ext brokerEnabled reloader state host .allow).2.denySet text = true →
        ∃ pattern ∈ DomainListKind.deny.entries
          (updateAlone ext brokerEnabled reloader state host .allow).2.config.domains,
          globsetMatches glob (globsOf pattern) text = true := by
      intro text hmatch
      obtain ⟨g, hg, htext⟩ := any_eq_true.1 hmatch
      obtain ⟨pattern, hpattern, hmem⟩ := (mem_of_compile_policy hcompiled'.deny).1 hg
      exact ⟨pattern, hpattern, any_eq_true.2 ⟨g, hmem, htext⟩⟩
    rcases matches_of_hostBlocked (parse_of_ok hok) hblocked with hmatch | ⟨ip, hip, hmatch⟩
    · obtain ⟨pattern, hpattern, hglobs⟩ := hentry _ hmatch
      refine ⟨pattern, hpattern, Or.inl ⟨fun hliteral => ?_, hglobs⟩⟩
      have hform := hliteral.normalizeHost
      rw [globsOf_of_noStar hform.noStar, htrim pattern hpattern, globsetMatches,
        any_cons, any_nil, Bool.or_false, hglob _ _ hform,
        (lowered_normalizeHost host).eq, (lowered_normalizeHost pattern).eq] at hglobs
      exact hopposite pattern hpattern hglobs.symm
    · obtain ⟨pattern, hpattern, hglobs⟩ := hentry ip hmatch
      exact ⟨pattern, hpattern, Or.inr ⟨ip, hip, hglobs⟩⟩

end

/-! ## Closed runs -/

theorem literalGlobs_globMatches : LiteralGlobs globMatches := by
  intro pattern text hmeta
  refine globMatches_literal fun c hc => ?_
  have hnot := hmeta c hc
  exact ⟨fun h => hnot (h ▸ by decide), fun h => hnot (h ▸ by decide)⟩

def noLocalChecks : LocalChecks := ⟨fun _ => false, fun _ _ => false⟩

/-- A config that denies one pattern. -/
def denying (pattern : Str) : NetworkProxyConfig Unit :=
  { NetworkProxyConfig.defaults with domains := some ⟨[⟨pattern, .deny⟩]⟩ }

/-- The state built from it. -/
def denyingState (pattern : Str) : ConfigState Unit Unit Unit :=
  ⟨denying pattern, [], globsOf pattern, none, (), .defaults, [], 0⟩

theorem denyingState_built :
    buildConfigState plainExternals (denying "fe80::1".toList) .defaults =
      .ok (denyingState "fe80::1".toList) := rfl

def quietReloader : Reloader Unit Unit Unit := ⟨.ok none, .error []⟩

/-- `last_decision_stands` for a host that is denied before another one is allowed. -/
theorem last_decision_stands_example :
    hostBlocked globMatches noLocalChecks (updateAll plainExternals false quietReloader
      (updateAlone plainExternals false quietReloader (denyingState "fe80::1".toList)
        "Example.com.:443".toList .deny).2 [("example.org".toList, .allow)])
      "Example.com.:443".toList 443 = .blocked .denied := by
  refine (last_decision_stands literalGlobs_globMatches noLocalChecks rfl
    (compiled_of_build denyingState_built) (by decide +kernel) (by decide +kernel)).1 .unit rfl _ ?_ 443
  exact forall_mem_singleton.2 ⟨by decide +kernel, by decide +kernel⟩

/-- An address that was denied without a scope stays denied with one when that is allowed. -/
theorem allowed_scope_denied :
    (updateAlone plainExternals false quietReloader (denyingState "fe80::1".toList)
      "fe80::1%eth0".toList .allow).1 = .done (.ok .unit) ∧
    hostBlocked globMatches noLocalChecks (updateAlone plainExternals false quietReloader
      (denyingState "fe80::1".toList) "fe80::1%eth0".toList .allow).2 "fe80::1%eth0".toList 443 =
        .blocked .denied ∧
    NoMeta "fe80::1%eth0".toList ∧
    ∀ pattern ∈ DomainListKind.deny.entries (updateAlone plainExternals false quietReloader
      (denyingState "fe80::1".toList) "fe80::1%eth0".toList .allow).2.config.domains,
      NoMeta pattern :=
  ⟨rfl, by decide +kernel, by decide +kernel, by decide +kernel⟩

end Codex.NetworkProxy
