import Codex.Base.Except
import Codex.NetworkProxy.Policy

/-!
# What a pattern compiles to

`globsOf pattern` are the globs of one pattern as the matcher reads it, and a
compiled set matches what one of its patterns' globs matches. The globs are in
lower case, and the case of a pattern plays no role.
-/

namespace Codex.NetworkProxy

open List Codex.Text

/-- The globs a pattern contributes to a compiled set. -/
def globsOf (pattern : Str) : List Str := expandDomainPattern (normalizePattern pattern)

/-! ## Compiled sets -/

section

variable {buildsGlob : Str → Bool}

variable {set : GlobSet} {glob : Str} {globalWildcard : GlobalWildcard} {patterns : List Str}

theorem mem_addGlobs {candidates : List Str} {result : GlobSet}
    (h : addGlobs buildsGlob set candidates = .ok result) :
    glob ∈ result ↔ glob ∈ set ∨ glob ∈ candidates := by
  induction candidates generalizing set with
  | nil =>
    cases h
    simp
  | cons candidate candidates ih =>
    simp only [addGlobs, foldlM_cons, bind_eq_ok] at h
    obtain ⟨next, hnext, hrest⟩ := h
    rw [ih hrest, mem_cons]
    split at hnext
    · next hmem =>
      cases hnext
      exact ⟨fun h => h.elim .inl fun h => .inr (.inr h),
        fun h => h.elim .inl fun h => h.elim (fun h => .inl (h ▸ hmem)) .inr⟩
    · split at hnext
      · cases hnext
        rw [mem_append, mem_singleton, or_assoc]
      · cases hnext

theorem mem_of_compile_from
    {result : GlobSet}
    (h : patterns.foldlM (fun set pattern =>
      if globalWildcard = .reject && isGlobalWildcardDomainPattern pattern then
        .error .unsupportedGlobalWildcard
      else addGlobs buildsGlob set (expandDomainPattern (normalizePattern pattern))) set =
        .ok result) :
    glob ∈ result ↔ glob ∈ set ∨ ∃ pattern ∈ patterns, glob ∈ globsOf pattern := by
  induction patterns generalizing set with
  | nil =>
    cases h
    simp
  | cons pattern patterns ih =>
    simp only [foldlM_cons, bind_eq_ok] at h
    obtain ⟨next, hnext, hrest⟩ := h
    split at hnext
    · cases hnext
    · rw [ih hrest, mem_addGlobs hnext, or_assoc]
      simp [globsOf]

/-- A compiled set holds the globs of its patterns. -/
theorem mem_of_compile_policy
    (h : compileGlobsetWithPolicy buildsGlob globalWildcard patterns = .ok set) :
    glob ∈ set ↔ ∃ pattern ∈ patterns, glob ∈ globsOf pattern := by
  rw [mem_of_compile_from h]
  simp

theorem mem_of_compile (h : compileAllowlistGlobset buildsGlob patterns = .ok set) :
    glob ∈ set ↔ ∃ pattern ∈ patterns, glob ∈ globsOf pattern := mem_of_compile_policy h

end

variable {host : Str} {d : Char}

theorem isMatch_iff {set : GlobSet} :
    set.isMatch host = true ↔ ∃ glob ∈ set, globMatches glob host = true := by
  rw [GlobSet.isMatch, any_eq_true]

/-! ## The case of a pattern -/

theorem stripPrefix_toAsciiLowercase {s p : Str} (hp : ∀ d ∈ p, NoLetter d) :
    stripPrefix (toAsciiLowercase s) p = (stripPrefix s p).map toAsciiLowercase := by
  induction p generalizing s with
  | nil => simp [stripPrefix]
  | cons d p ih =>
    cases s with
    | nil => rfl
    | cons c s =>
      have ih' := ih (s := s) fun e he => hp e (by simp [he])
      simp only [toAsciiLowercase] at ih'
      simp only [toAsciiLowercase, map_cons, stripPrefix,
        asciiLower_eq_iff (hp d (by simp)), ih']
      split
      · rfl
      · rfl

theorem splitOnce_toAsciiLowercase (hd : NoLetter d) (s : Str) : splitOnce d (toAsciiLowercase s) =
      (splitOnce d s).map fun (a, b) => (toAsciiLowercase a, toAsciiLowercase b) := by
  induction s with
  | nil => rfl
  | cons c s ih =>
    simp only [toAsciiLowercase] at ih
    simp only [toAsciiLowercase, map_cons, splitOnce, asciiLower_eq_iff hd, ih]
    split
    · rfl
    · cases splitOnce d s with
      | none => rfl
      | some ab => rfl

theorem count_toAsciiLowercase (hd : NoLetter d) (s : Str) :
    (toAsciiLowercase s).count d = s.count d := by
  induction s with
  | nil => rfl
  | cons c s ih =>
    simp only [toAsciiLowercase] at ih
    simp only [toAsciiLowercase, map_cons, count_cons, ih, beq_iff_eq,
      asciiLower_eq_iff hd]

theorem takeWhile_toAsciiLowercase (hd : NoLetter d) (s : Str) :
    (toAsciiLowercase s).takeWhile (· ≠ d) = toAsciiLowercase (s.takeWhile (· ≠ d)) := by
  simp only [toAsciiLowercase, takeWhile_map]
  congr 2
  funext c
  simp [asciiLower_eq_iff hd]

theorem bracketed_toAsciiLowercase (host : Str) :
    bracketed (toAsciiLowercase host) = (bracketed host).map toAsciiLowercase := by
  have hhead : (toAsciiLowercase host).head? = some '[' ↔ host.head? = some '[' := by
    cases host with
    | nil => simp [toAsciiLowercase]
    | cons c host =>
      have hopen : NoLetter '[' := by decide
      simp [toAsciiLowercase, asciiLower_eq_iff hopen]
  have hclose : NoLetter ']' := by decide
  simp only [bracketed, hhead, splitOnce_toAsciiLowercase hclose]
  split
  · cases splitOnce ']' host with
    | none => rfl
    | some ab => simp [toAsciiLowercase]
  · rfl

theorem stripPort_toAsciiLowercase (host : Str) :
    stripPort (toAsciiLowercase host) = toAsciiLowercase (stripPort host) := by
  have hcolon : NoLetter ':' := by decide
  simp only [stripPort, bracketed_toAsciiLowercase, count_toAsciiLowercase hcolon,
    takeWhile_toAsciiLowercase hcolon]
  cases bracketed host with
  | some inside => rfl
  | none =>
    simp only [Option.map_none]
    split
    · rfl
    · rfl

theorem normalizeHost_toAsciiLowercase (host : Str) :
    normalizeHost (toAsciiLowercase host) = normalizeHost host := by
  unfold normalizeHost normalizeDnsHostOrIpLiteral
  rw [trim_toAsciiLowercase, stripPort_toAsciiLowercase,
    (lowered_toAsciiLowercase (stripPort (trim host))).eq]

/-- The case of the letters of a pattern plays no role. -/
theorem normalizePattern_toAsciiLowercase (pattern : Str) :
    normalizePattern (toAsciiLowercase pattern) = normalizePattern pattern := by
  have hstar : toAsciiLowercase (trim pattern) = ['*'] ↔ trim pattern = ['*'] := by
    have hlow : NoLetter '*' := by decide
    rcases trim pattern with _ | ⟨c, _ | ⟨d, rest⟩⟩
    · simp [toAsciiLowercase]
    · simp [toAsciiLowercase, asciiLower_eq_iff hlow]
    · simp [toAsciiLowercase]
  have hapex : ∀ d ∈ apexPrefix, NoLetter d := by simp [apexPrefix, NoLetter]
  have hsub : ∀ d ∈ subdomainPrefix, NoLetter d := by simp [subdomainPrefix, NoLetter]
  simp only [normalizePattern, trim_toAsciiLowercase, hstar, stripPrefix_toAsciiLowercase hapex,
    stripPrefix_toAsciiLowercase hsub]
  split
  · rfl
  · cases stripPrefix (trim pattern) apexPrefix with
    | some domain => simp [normalizeHost_toAsciiLowercase]
    | none =>
      cases stripPrefix (trim pattern) subdomainPrefix with
      | some domain | none => simp [normalizeHost_toAsciiLowercase]

theorem globsOf_congr {p q : Str} (h : toAsciiLowercase p = toAsciiLowercase q) :
    globsOf p = globsOf q := by
  rw [globsOf, globsOf, ← normalizePattern_toAsciiLowercase p, h,
    normalizePattern_toAsciiLowercase]

/-! ## Globs are in lower case -/

theorem lowered_scoped {ip scope : Str} (hhost : Lowered host) (hip : ip ⊆ host)
    (hscope : scope ⊆ host) : Lowered (ip ++ '%' :: scope) := by
  refine (hhost.of_subset hip).append ?_
  intro c hc
  rcases mem_cons.1 hc with rfl | hc
  · decide
  · exact hhost c (hscope hc)

/-- An address as it stands, or an address with its scope behind `%25` or `%`. -/
theorem normalizeIpLiteral_cases {result : Str} (h : normalizeIpLiteral host = some result) :
    result = host ∨ ∃ ip scope, isIpAddr ip = true ∧ result = ip ++ '%' :: scope ∧
      (host = ip ++ ['%', '2', '5'] ++ scope ∨ host = ip ++ '%' :: scope) := by
  have hpercent : normalizeIpLiteral.percent host = some result →
      ∃ ip scope, isIpAddr ip = true ∧ result = ip ++ '%' :: scope ∧ host = ip ++ '%' :: scope := by
    intro h
    unfold normalizeIpLiteral.percent at h
    split at h
    · next ip scope hsplit =>
      split at h
      · next hip =>
        cases h
        exact ⟨ip, scope, hip, rfl, splitOnce_eq hsplit⟩
      · cases h
    · cases h
  have hlast : normalizeIpLiteral.percent host = some result →
      result = host ∨ ∃ ip scope, isIpAddr ip = true ∧ result = ip ++ '%' :: scope ∧
        (host = ip ++ ['%', '2', '5'] ++ scope ∨ host = ip ++ '%' :: scope) := by
    intro h
    obtain ⟨ip, scope, hip, hresult, hhost⟩ := hpercent h
    exact Or.inr ⟨ip, scope, hip, hresult, Or.inr hhost⟩
  unfold normalizeIpLiteral at h
  split at h
  · cases h
    exact Or.inl rfl
  · split at h
    · next ip scope hsplit =>
      split at h
      · next hip =>
        cases h
        exact Or.inr ⟨ip, scope, hip, rfl, Or.inl (splitOnceStr_eq hsplit)⟩
      · exact hlast h
    · exact hlast h

theorem lowered_normalizeIpLiteral {result : Str} (hhost : Lowered host)
    (h : normalizeIpLiteral host = some result) : Lowered result := by
  rcases normalizeIpLiteral_cases h with rfl | ⟨ip, scope, -, rfl, hsplit | hsplit⟩
  · exact hhost
  · exact lowered_scoped hhost (by rw [hsplit]; simp) (by rw [hsplit]; exact subset_append_right _ _)
  · exact lowered_scoped hhost (by rw [hsplit]; simp) (by rw [hsplit]; simp)

theorem lowered_normalizeHost (host : Str) : Lowered (normalizeHost host) := by
  unfold normalizeHost normalizeDnsHostOrIpLiteral
  simp only
  have hlow : Lowered (trimEndDots (toAsciiLowercase (stripPort (trim host)))) :=
    (lowered_toAsciiLowercase _).of_subset (List.rdropWhile_prefix _ _).subset
  cases hip : normalizeIpLiteral (trimEndDots (toAsciiLowercase (stripPort (trim host)))) with
  | none => simpa [hip] using hlow
  | some ip => simpa [hip] using lowered_normalizeIpLiteral hlow hip

theorem lowered_normalizePattern (pattern : Str) : Lowered (normalizePattern pattern) := by
  have hapex : Lowered apexPrefix := by decide
  have hsub : Lowered subdomainPrefix := by decide
  have hstar : Lowered ['*'] := by decide
  unfold normalizePattern
  simp only
  split
  · exact hstar
  · split
    · exact hapex.append (lowered_normalizeHost _)
    · exact hsub.append (lowered_normalizeHost _)
    · exact lowered_normalizeHost _

/-! ## The shape of a glob -/

def DomainPattern.domain : DomainPattern → Str
  | .apexAndSubdomains domain => domain
  | .subdomainsOnly domain => domain
  | .exact domain => domain

/-- The domain of a pattern, as the matcher reads it. -/
def domainOf (pattern : Str) : Str := (DomainPattern.parse (normalizePattern pattern)).domain

theorem domain_parse_subset (input : Str) : (DomainPattern.parse input).domain ⊆ input := by
  have hdomain : ∀ (build : Str → DomainPattern) (front domain : Str),
      (∀ d, (build d).domain = d) → trim input = front ++ domain →
        (parseDomain domain build).domain ⊆ input := by
    intro build front domain hbuild htrim
    have hmem : trim domain ⊆ input := fun c hc =>
      trim_subset input (by rw [htrim]; exact mem_append_right _ (trim_subset domain hc))
    unfold parseDomain
    simp only
    split
    · exact nil_subset _
    · rw [hbuild]
      exact hmem
  unfold DomainPattern.parse
  simp only
  split
  · exact nil_subset _
  · split
    · next h => exact hdomain _ apexPrefix _ (fun _ => rfl) (stripPrefix_eq_some.1 h)
    · next h => exact hdomain _ subdomainPrefix _ (fun _ => rfl) (stripPrefix_eq_some.1 h)
    · exact trim_subset input

theorem lowered_domainOf (pattern : Str) : Lowered (domainOf pattern) :=
  (lowered_normalizePattern pattern).of_subset (domain_parse_subset _)

/-- A glob of a pattern is its domain, or any subdomain of it. -/
theorem mem_globsOf {pattern glob : Str} (h : glob ∈ globsOf pattern) :
    glob = domainOf pattern ∨ glob = subdomainGlob (domainOf pattern) := by
  unfold globsOf expandDomainPattern at h
  unfold domainOf
  cases hp : DomainPattern.parse (normalizePattern pattern) with
  | exact domain =>
    rw [hp] at h
    exact .inl (mem_singleton.1 h)
  | subdomainsOnly domain =>
    rw [hp] at h
    exact .inr (mem_singleton.1 h)
  | apexAndSubdomains domain =>
    rw [hp] at h
    rcases mem_cons.1 h with h | h
    · exact .inl h
    · exact .inr (mem_singleton.1 h)

end Codex.NetworkProxy
