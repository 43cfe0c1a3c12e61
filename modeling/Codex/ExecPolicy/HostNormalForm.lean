import Codex.ExecPolicy.NetworkRule

/-!
# Normal forms of hosts

A rule is normalised before it is written and again when its file is read.
`normalizeNetworkRuleHost` goes once over the host: brackets or a port, dots at
the end, white space. What one of these steps leaves can be food for one that
is over; `normalize_fixed_iff` says for which inputs.
-/

namespace Codex.ExecPolicy

open List Codex.Text

variable {raw host part s t ws dots : Str}

/-! ## Splitting -/

variable {c : Char} {a b port : Str}

theorem splitOnce_of_notMem (h : c ∉ a) : splitOnce c (a ++ c :: b) = some (a, b) := by
  induction a with
  | nil => simp [splitOnce]
  | cons d a ih =>
    rw [mem_cons, not_or] at h
    rw [cons_append, splitOnce, if_neg (Ne.symm h.1), ih h.2]
    rfl

theorem rsplitOnce_of_notMem (h : c ∉ b) : rsplitOnce c (a ++ c :: b) = some (a, b) := by
  have hreverse : (a ++ c :: b).reverse = b.reverse ++ c :: a.reverse := by simp
  rw [rsplitOnce, hreverse, splitOnce_of_notMem (by simpa using h)]
  simp

theorem rsplitOnce_eq (h : rsplitOnce c s = some (a, b)) : s = a ++ c :: b := by
  obtain ⟨⟨x, y⟩, hsplit, heq⟩ := Option.map_eq_some_iff.1 h
  cases heq
  rw [← reverse_inj, splitOnce_eq hsplit]
  simp

/-! ## Ports -/

/-- A name and the digits of a port. -/
def EndsWithPort (s : Str) : Prop :=
  ∃ candidate port, s = candidate ++ ':' :: port ∧ candidate ≠ [] ∧ ':' ∉ candidate ∧
    isPort port = true

theorem isAsciiDigit_of_isPort (h : isPort port = true) (hc : c ∈ port) :
    isAsciiDigit c = true := by
  rw [isPort, Bool.and_eq_true, all_eq_true] at h
  exact h.2 c hc

theorem ne_nil_of_isPort (h : isPort port = true) : port ≠ [] := by
  rintro rfl
  cases h

theorem colon_notMem_of_isPort (h : isPort port = true) : ':' ∉ port :=
  fun hc => absurd (isAsciiDigit_of_isPort h hc) (by decide)

theorem strip_of_port {candidate : Str} (hbracket : (candidate ++ ':' :: port).head? ≠ some '[')
    (hne : candidate ≠ []) (hcolon : ':' ∉ candidate) (hport : isPort port = true) :
    stripBracketsAndPort raw (candidate ++ ':' :: port) = .ok candidate := by
  have hnone := colon_notMem_of_isPort hport
  have hcount : (candidate ++ ':' :: port).count ':' = 1 := by
    rw [count_append, count_cons_self, count_eq_zero.2 hcolon,
      count_eq_zero.2 hnone]
  unfold stripBracketsAndPort
  split
  · next stripped heq =>
    rw [heq] at hbracket
    exact absurd rfl hbracket
  · rw [if_pos hcount, rsplitOnce_of_notMem hnone]
    have hempty : candidate.isEmpty = false := by simpa using hne
    simp [hempty, hport]

theorem strip_of_no_port (hbracket : host.head? ≠ some '[') (hport : ¬EndsWithPort host) :
    stripBracketsAndPort raw host = .ok host := by
  unfold stripBracketsAndPort
  split
  · exact absurd rfl hbracket
  · split
    · next hcount =>
      split
      · next candidate port hsplit =>
        rw [if_neg]
        intro hboth
        rw [Bool.and_eq_true] at hboth
        obtain rfl := rsplitOnce_eq hsplit
        refine hport ⟨candidate, port, rfl, by simpa using hboth.1, fun hcolon => ?_, hboth.2⟩
        rw [count_append, count_cons_self] at hcount
        have := count_pos_iff.2 hcolon
        omega
      · rfl
    · rfl

/-- What is in the brackets. -/
theorem strip_of_bracket {stripped : Str}
    (h : stripBracketsAndPort raw ('[' :: stripped) = .ok part) :
    ∃ rest, stripped = part ++ ']' :: rest := by
  cases hsplit : splitOnce ']' stripped with
  | none =>
    simp only [stripBracketsAndPort, hsplit] at h
    cases h
  | some halves =>
    obtain ⟨inside, rest⟩ := halves
    simp only [stripBracketsAndPort, hsplit] at h
    have hinside : ∀ (unsupported : Bool) (e : Error),
        (if unsupported then .error e else .ok inside : Except Error Str) = .ok part →
          inside = part := by
      intro unsupported e heq
      cases unsupported
      · exact Except.ok.inj heq
      · cases heq
    obtain rfl := hinside _ _ h
    exact ⟨rest, splitOnce_eq hsplit⟩

theorem strip_subset (h : stripBracketsAndPort raw host = .ok part) : part ⊆ host := by
  by_cases hbracket : host.head? = some '['
  · obtain ⟨stripped, rfl⟩ := head?_eq_some_iff.1 hbracket
    obtain ⟨rest, rfl⟩ := strip_of_bracket h
    exact fun c hc => mem_cons_of_mem _ (mem_append_left _ hc)
  · by_cases hport : EndsWithPort host
    · obtain ⟨candidate, port, rfl, hne, hcolon, hport⟩ := hport
      rw [strip_of_port hbracket hne hcolon hport] at h
      cases h
      exact subset_append_left _ _
    · rw [strip_of_no_port hbracket hport] at h
      cases h
      exact List.Subset.refl _

/-! ## Plain hosts -/

/-- What a normal form is made of. -/
structure PlainHost (host : Str) : Prop where
  nonempty : host ≠ []
  lowered : Lowered host
  noWhitespace : ∀ c ∈ host, isWhitespace c = false
  noWildcard : '*' ∉ host
  noPath : '/' ∉ host ∧ '?' ∉ host ∧ '#' ∉ host

theorem mem_toAsciiLowercase (hc : NoLetter c) : c ∈ toAsciiLowercase s ↔ c ∈ s := by
  unfold toAsciiLowercase
  rw [mem_map]
  constructor
  · rintro ⟨d, hd, heq⟩
    rwa [← (asciiLower_eq_iff hc).1 heq]
  · exact fun h => ⟨c, h, (asciiLower_eq_iff hc).2 rfl⟩

/-- The text without dots at its end and without white space around it. -/
def core (part : Str) : Str := trim (trimEndDots part)

theorem core_subset (part : Str) : core part ⊆ part := fun _ hc =>
  (List.rdropWhile_prefix _ _).subset (trim_subset _ hc)

theorem normalize_eq_ok (h : normalizeNetworkRuleHost raw = .ok host) :
    ∃ part, stripBracketsAndPort raw (trim raw) = .ok part ∧ host = toAsciiLowercase (core part) ∧
      PlainHost host := by
  unfold normalizeNetworkRuleHost at h
  dsimp only at h
  split at h
  · cases h
  · split at h
    · cases h
    · next hpath =>
      simp only [not_or] at hpath
      obtain ⟨-, hslash, hquery, hfragment⟩ := hpath
      cases hstrip : stripBracketsAndPort raw (trim raw) with
      | error e =>
        rw [hstrip] at h
        cases h
      | ok part =>
        rw [hstrip] at h
        change (if (toAsciiLowercase (core part)).isEmpty then _ else _) = _ at h
        split at h
        · cases h
        · next hempty =>
          split at h
          · cases h
          · next hwildcard =>
            split at h
            · cases h
            · next hwhitespace =>
              cases h
              have hsubset : core part ⊆ trim raw :=
                List.Subset.trans (core_subset part) (strip_subset hstrip)
              have hfree : ∀ c, NoLetter c → c ∉ trim raw → c ∉ toAsciiLowercase (core part) :=
                fun c hc hnot hmem => hnot (hsubset ((mem_toAsciiLowercase hc).1 hmem))
              refine ⟨part, rfl, rfl, ?_, lowered_toAsciiLowercase _, ?_, hwildcard, ?_⟩
              · exact fun hnil => hempty (List.isEmpty_iff.2 hnil)
              · simpa using hwhitespace
              · exact ⟨hfree '/' (by decide) hslash, hfree '?' (by decide) hquery,
                  hfree '#' (by decide) hfragment⟩

theorem core_length_le (part : Str) : (core part).length ≤ part.length := by
  unfold core trim
  exact ((dropWhile_suffix _).length_le.trans (List.rdropWhile_prefix _ _).length_le).trans
    (List.rdropWhile_prefix _ _).length_le

theorem core_of_dot (hdot : host.getLast? = some '.') : (core host).length < host.length := by
  obtain ⟨init, rfl⟩ := getLast?_eq_some_iff.1 hdot
  have hdots : trimEndDots (init ++ ['.']) = trimEndDots init := rdropWhile_concat_pos _ _ _ rfl
  have hle := core_length_le init
  unfold core at hle ⊢
  rw [hdots, length_append, length_singleton]
  omega

theorem trim_of_noWhitespace (h : ∀ c ∈ s, isWhitespace c = false) : trim s = s := by
  have hend : trimEnd s = s := by
    refine (rdropWhile_eq_self_iff).2 fun hne => ?_
    rw [h _ (getLast_mem hne)]
    decide
  have hstart : trimStart s = s := by
    refine (dropWhile_eq_self_iff).2 fun hlen => ?_
    rw [h _ (getElem_mem hlen)]
    decide
  rw [trim, hend, hstart]

theorem trimEndDots_of_getLast (h : s.getLast? ≠ some '.') : trimEndDots s = s := by
  refine (rdropWhile_eq_self_iff).2 fun hne hdot => h ?_
  rw [getLast?_eq_some_getLast hne, eq_of_beq hdot]

/-- **The fixed points**: plain hosts without a bracket in front, without a port and without a dot
at the end. -/
theorem PlainHost.normalize_iff (h : PlainHost host) :
    normalizeNetworkRuleHost host = .ok host ↔
      host.head? ≠ some '[' ∧ ¬EndsWithPort host ∧ host.getLast? ≠ some '.' := by
  have htrim := trim_of_noWhitespace h.noWhitespace
  constructor
  · intro hfixed
    obtain ⟨part, hstrip, hhost, -⟩ := normalize_eq_ok hfixed
    rw [htrim] at hstrip
    have hlen : host.length ≤ part.length := by
      have hle := core_length_le part
      have heq := congrArg List.length hhost
      rw [toAsciiLowercase, length_map] at heq
      omega
    have hbracket : host.head? ≠ some '[' := by
      intro hbracket
      obtain ⟨stripped, rfl⟩ := head?_eq_some_iff.1 hbracket
      obtain ⟨rest, rfl⟩ := strip_of_bracket hstrip
      simp only [length_cons, length_append] at hlen
      omega
    have hport : ¬EndsWithPort host := by
      rintro ⟨candidate, port, rfl, hne, hcolon, hport⟩
      rw [strip_of_port hbracket hne hcolon hport] at hstrip
      cases hstrip
      simp only [length_append, length_cons] at hlen
      omega
    refine ⟨hbracket, hport, fun hdot => ?_⟩
    rw [strip_of_no_port hbracket hport] at hstrip
    cases hstrip
    have hlt := core_of_dot hdot
    have heq := congrArg List.length hhost
    rw [toAsciiLowercase, length_map] at heq
    omega
  · rintro ⟨hbracket, hport, hdot⟩
    have hscheme : ¬"://".toList <:+: host := fun hinside =>
      h.noPath.1 (hinside.subset (by decide))
    have hfree : ¬("://".toList <:+: host ∨ '/' ∈ host ∨ '?' ∈ host ∨ '#' ∈ host) := by
      simp only [not_or]
      exact ⟨hscheme, h.noPath⟩
    have hempty : ¬host.isEmpty = true := fun hnil => h.nonempty (List.isEmpty_iff.1 hnil)
    have hwhitespace : ¬host.any isWhitespace = true := by
      simpa using h.noWhitespace
    unfold normalizeNetworkRuleHost
    dsimp only
    rw [htrim, if_neg hempty, if_neg hfree, strip_of_no_port hbracket hport]
    show (if (toAsciiLowercase (trim (trimEndDots host))).isEmpty then _ else _) = _
    rw [trimEndDots_of_getLast hdot, htrim, h.lowered.eq, if_neg hempty, if_neg h.noWildcard,
      if_neg hwhitespace]

/-! ## What the first pass leaves -/

/-- A dot before white space, and dots after it. -/
def HiddenDot (part : Str) : Prop :=
  ∃ init ws dots, part = init ++ '.' :: ws ++ dots ∧ ws ≠ [] ∧ Blank ws ∧ ∀ c ∈ dots, c = '.'

/-- A port before white space and dots. -/
def HiddenPort (part : Str) : Prop :=
  ∃ candidate port ws dots, part = candidate ++ ':' :: port ++ ws ++ dots ∧ ¬Blank candidate ∧
    ':' ∉ candidate ∧ isPort port = true ∧ Blank ws ∧ ∀ c ∈ dots, c = '.'

/-- A bracket after white space. -/
def HiddenBracket (part : Str) : Prop := ∃ ws rest, part = ws ++ '[' :: rest ∧ Blank ws

/-- The text is its core with white space around it and dots after it. -/
theorem core_around (part : Str) :
    ∃ pre ws dots, part = pre ++ core part ++ ws ++ dots ∧ Blank pre ∧ Blank ws ∧
      (∀ c ∈ dots, c = '.') ∧ ((core part).getLast? = some '.' → ws ≠ []) := by
  have hdots : part = trimEndDots part ++ part.rtakeWhile (· == '.') :=
    rdropWhile_append_rtakeWhile.symm
  have hend : trimEndDots part = trimEnd (trimEndDots part) ++
      (trimEndDots part).rtakeWhile isWhitespace := rdropWhile_append_rtakeWhile.symm
  have hstart : trimEnd (trimEndDots part) =
      (trimEnd (trimEndDots part)).takeWhile isWhitespace ++ core part :=
    takeWhile_append_dropWhile.symm
  refine ⟨(trimEnd (trimEndDots part)).takeWhile isWhitespace,
    (trimEndDots part).rtakeWhile isWhitespace, part.rtakeWhile (· == '.'), ?_,
    fun c hc => mem_takeWhile_imp hc, fun c hc => mem_rtakeWhile_imp hc, ?_,
    fun hlast hws => ?_⟩
  · exact (hdots.trans (congrArg (· ++ _) (hend.trans (congrArg (· ++ _) hstart))))
  · intro c hc
    have hdot : (c == '.') = true := mem_rtakeWhile_imp (p := (· == '.')) hc
    exact eq_of_beq hdot
  · -- the dots are trimmed from the text
    rw [hws, append_nil] at hend
    have hdot : (trimEndDots part).getLast? = some '.' := by
      rw [hend, hstart, getLast?_append, hlast]
      rfl
    have hne : trimEndDots part ≠ [] := by
      intro hnil
      rw [hnil] at hdot
      cases hdot
    refine (rdropWhile_last_not (· == '.') part hne) ?_
    rw [getLast?_eq_some_getLast hne, Option.some_inj] at hdot
    exact beq_iff_eq.2 hdot

theorem trimEndDots_append (hdots : ∀ c ∈ dots, c = '.') :
    trimEndDots (s ++ dots) = trimEndDots s := by
  induction dots using List.reverseRecOn with
  | nil => rw [append_nil]
  | append_singleton dots c ih =>
    obtain rfl : c = '.' := hdots c (by simp)
    rw [← List.append_assoc, trimEndDots, rdropWhile_concat_pos _ _ _ rfl]
    exact ih fun d hd => hdots d (mem_append_left _ hd)

theorem getLast?_append_blank (hne : ws ≠ []) (hws : Blank ws) (h : (s ++ ws).getLast? = some c) :
    isWhitespace c = true := by
  rw [getLast?_append, getLast?_eq_some_getLast hne, Option.some_or, Option.some_inj] at h
  rw [← h]
  exact hws _ (getLast_mem hne)

/-- The core of a text that ends in white space and dots. -/
theorem core_append (hlast : s.getLast? = some c) (hc : isWhitespace c = false) (hws : Blank ws)
    (hdots : ∀ d ∈ dots, d = '.') (hdot : c = '.' → ws ≠ []) :
    core (s ++ ws ++ dots) = trimStart s := by
  have hend : (s ++ ws).getLast? ≠ some '.' := by
    intro h
    by_cases hne : ws = []
    · subst hne
      rw [append_nil, hlast, Option.some_inj] at h
      exact hdot h rfl
    · exact absurd (getLast?_append_blank hne hws h) (by decide)
  have htrim : trimEnd s = s := by
    refine (rdropWhile_eq_self_iff).2 fun hne => ?_
    rw [getLast?_eq_some_getLast hne, Option.some_inj] at hlast
    rw [hlast, hc]
    decide
  rw [core, trimEndDots_append hdots, trimEndDots_of_getLast hend, trim, trimEnd_append_blank hws,
    htrim]

theorem core_dot_iff : (core part).getLast? = some '.' ↔ HiddenDot part := by
  constructor
  · intro hlast
    obtain ⟨pre, ws, dots, hpart, -, hws, hdots, hne⟩ := core_around part
    obtain ⟨init, hinit⟩ := getLast?_eq_some_iff.1 hlast
    refine ⟨pre ++ init, ws, dots, ?_, hne hlast, hws, hdots⟩
    rw [hpart, hinit]
    simp
  · rintro ⟨init, ws, dots, rfl, hne, hws, hdots⟩
    have hsplit : init ++ '.' :: ws ++ dots = init ++ ['.'] ++ ws ++ dots := by simp
    have hblank : ¬Blank ['.'] := by decide
    rw [hsplit, core_append getLast?_concat (by decide) hws hdots fun _ => hne]
    by_cases hinit : Blank init
    · have hdrop : trimStart (init ++ ['.']) = ['.'] := by
        rw [trimStart, dropWhile_append_of_pos hinit]
        rfl
      rw [hdrop]
      rfl
    · rw [trimStart_append_of_not_blank hinit]
      exact getLast?_concat

theorem core_bracket_iff : (core part).head? = some '[' ↔ HiddenBracket part := by
  constructor
  · intro hhead
    obtain ⟨pre, ws, dots, hpart, hpre, -, -, -⟩ := core_around part
    obtain ⟨rest, hrest⟩ := head?_eq_some_iff.1 hhead
    refine ⟨pre, rest ++ ws ++ dots, ?_, hpre⟩
    rw [hpart, hrest]
    simp
  · rintro ⟨pre, rest, hpart, hpre⟩
    -- neither the dots nor the white space reach the bracket
    obtain ⟨pre', ws, dots, hpart', hpre', hws, hdots, -⟩ := core_around part
    have hstart : part.dropWhile isWhitespace = '[' :: rest := by
      rw [hpart, dropWhile_append_of_pos hpre]
      rfl
    have hcore : core part ≠ [] := by
      intro hnil
      rw [hpart', hnil, append_nil, List.append_assoc, dropWhile_append_of_pos hpre',
        dropWhile_append_of_pos hws] at hstart
      have hmem : '[' ∈ dots := (dropWhile_suffix _).subset (hstart ▸ mem_cons_self)
      exact absurd (hdots '[' hmem) (by decide)
    obtain ⟨c, tail, hc⟩ := exists_cons_of_ne_nil hcore
    have hwhite : isWhitespace c = false := by
      have hnot := head?_dropWhile_not isWhitespace (trimEnd (trimEndDots part))
      have hhead : (List.dropWhile isWhitespace (trimEnd (trimEndDots part))).head? = some c :=
        congrArg List.head? hc
      rw [hhead] at hnot
      exact hnot
    rw [hpart', hc, List.append_assoc, List.append_assoc, dropWhile_append_of_pos hpre',
      cons_append, dropWhile_cons_of_neg (by simp [hwhite])] at hstart
    rw [hc, (List.cons.inj hstart).1]
    rfl

theorem isWhitespace_of_isAsciiDigit (h : isAsciiDigit c = true) : isWhitespace c = false := by
  have hrange : 48 ≤ c.toNat ∧ c.toNat ≤ 57 := by
    have hzero : '0' ≤ c ↔ 48 ≤ c.toNat := Iff.rfl
    have hnine : c ≤ '9' ↔ c.toNat ≤ 57 := Iff.rfl
    simpa [isAsciiDigit, hzero, hnine] using h
  simp [isWhitespace]
  omega

theorem core_port_iff (hfree : ∀ c ∈ core part, isWhitespace c = false) :
    EndsWithPort (core part) ↔ HiddenPort part := by
  constructor
  · rintro ⟨candidate, port, hcore, hne, hcolon, hport⟩
    obtain ⟨pre, ws, dots, hpart, hpre, hws, hdots, -⟩ := core_around part
    obtain ⟨first, rest, rfl⟩ := exists_cons_of_ne_nil hne
    refine ⟨pre ++ first :: rest, port, ws, dots, ?_, fun hblank => ?_, ?_, hport, hws, hdots⟩
    · rw [hpart, hcore]
      simp
    · have hwhite := (blank_append.1 hblank).2 first mem_cons_self
      rw [hfree first (hcore ▸ mem_cons_self)] at hwhite
      cases hwhite
    · rw [mem_append, not_or]
      exact ⟨fun hmem => absurd (hpre ':' hmem) (by decide), hcolon⟩
  · rintro ⟨candidate, port, ws, dots, rfl, hblank, hcolon, hport, hws, hdots⟩
    have hlast := getLast?_eq_some_getLast (ne_nil_of_isPort hport)
    generalize port.getLast (ne_nil_of_isPort hport) = c at hlast
    have hdigit := isAsciiDigit_of_isPort hport (mem_of_getLast? hlast)
    have hend : (candidate ++ ':' :: port).getLast? = some c := by
      rw [getLast?_append, getLast?_cons, hlast]
      rfl
    have hwhite : isWhitespace c = false := isWhitespace_of_isAsciiDigit hdigit
    have hdot : c ≠ '.' := by
      rintro rfl
      exact absurd hdigit (by decide)
    rw [core_append hend hwhite hws hdots fun heq => absurd heq hdot,
      trimStart_append_of_not_blank hblank]
    exact ⟨trimStart candidate, port, rfl, fun hnil => hblank (trimStart_eq_nil.1 hnil),
      fun hmem => hcolon ((dropWhile_suffix _).subset hmem), hport⟩

/-! ## The result -/

theorem endsWithPort_toAsciiLowercase : EndsWithPort (toAsciiLowercase s) ↔ EndsWithPort s := by
  have hdigit : ∀ c, isAsciiDigit (asciiLower c) = isAsciiDigit c := by
    intro c
    rcases asciiLower_cases c with ⟨h, -⟩ | ⟨hlow, hhigh, h⟩
    · rw [h]
    · have hbefore : isAsciiDigit c = false := by
        have hnine : c ≤ '9' ↔ c.toNat ≤ 57 := Iff.rfl
        simp [isAsciiDigit, hnine]
        omega
      have hafter : isAsciiDigit (asciiLower c) = false := by
        have hnine : asciiLower c ≤ '9' ↔ (asciiLower c).toNat ≤ 57 := Iff.rfl
        simp [isAsciiDigit, hnine, h]
        omega
      rw [hbefore, hafter]
  have hisPort : ∀ port, isPort (toAsciiLowercase port) = isPort port := by
    intro port
    unfold isPort toAsciiLowercase
    rw [all_map, isEmpty_map]
    congr 2
    funext c
    exact hdigit c
  constructor
  · rintro ⟨candidate, port, heq, hne, hcolon, hport⟩
    obtain ⟨candidate', rest, rfl, hcandidate, hrest⟩ := map_eq_append_iff.1 heq
    obtain ⟨c, port', rfl, hc, hport'⟩ := map_eq_cons_iff.1 hrest
    obtain rfl := (asciiLower_eq_iff (by decide)).1 hc
    refine ⟨candidate', port', rfl, fun hnil => hne ?_, fun hmem => hcolon ?_, ?_⟩
    · rw [← hcandidate, hnil]
      rfl
    · rw [← hcandidate]
      exact (mem_toAsciiLowercase (by decide)).2 hmem
    · rw [← hisPort, ← hport]
      exact congrArg isPort hport'
  · rintro ⟨candidate, port, rfl, hne, hcolon, hport⟩
    refine ⟨toAsciiLowercase candidate, toAsciiLowercase port, ?_, ?_, ?_, ?_⟩
    · have hcolon : asciiLower ':' = ':' := by decide
      simp [toAsciiLowercase, hcolon]
    · simpa [toAsciiLowercase] using hne
    · rwa [mem_toAsciiLowercase (by decide)]
    · rwa [hisPort]

/-- **When a normal form is a fixed point**: unless the text in the brackets, or before the port,
or all of the host hides a bracket, a port or a dot behind white space or dots. -/
theorem normalize_fixed_iff (h : normalizeNetworkRuleHost raw = .ok host) :
    normalizeNetworkRuleHost host = .ok host ↔
      ∀ part, stripBracketsAndPort raw (trim raw) = .ok part →
        ¬HiddenBracket part ∧ ¬HiddenPort part ∧ ¬HiddenDot part := by
  obtain ⟨part, hpart, rfl, hplain⟩ := normalize_eq_ok h
  have hfree : ∀ c ∈ core part, isWhitespace c = false := by
    intro c hc
    rw [← isWhitespace_asciiLower]
    exact hplain.noWhitespace _ (mem_map_of_mem hc)
  have hhead : (toAsciiLowercase (core part)).head? = some '[' ↔ (core part).head? = some '[' := by
    unfold toAsciiLowercase
    rw [head?_map, Option.map_eq_some_iff]
    refine ⟨fun ⟨c, hc, heq⟩ => ?_, fun hc => ⟨'[', hc, by decide⟩⟩
    rwa [← (asciiLower_eq_iff (by decide)).1 heq]
  have hlast : (toAsciiLowercase (core part)).getLast? = some '.' ↔
      (core part).getLast? = some '.' := by
    unfold toAsciiLowercase
    rw [getLast?_map, Option.map_eq_some_iff]
    refine ⟨fun ⟨c, hc, heq⟩ => ?_, fun hc => ⟨'.', hc, by decide⟩⟩
    rwa [← (asciiLower_eq_iff (by decide)).1 heq]
  rw [hplain.normalize_iff, ne_eq, ne_eq, hhead, endsWithPort_toAsciiLowercase, hlast,
    core_bracket_iff, core_port_iff hfree, core_dot_iff]
  constructor
  · intro hnot part' hpart'
    obtain rfl := Except.ok.inj (hpart.symm.trans hpart')
    exact hnot
  · exact fun hall => hall part hpart

/-- A host with a port, dots and white space around it. -/
theorem normalize_fixed_example :
    normalizeNetworkRuleHost " Example.COM.:443 ".toList = .ok "example.com".toList ∧
      ∀ part, stripBracketsAndPort " Example.COM.:443 ".toList (trim " Example.COM.:443 ".toList) =
        .ok part → ¬HiddenBracket part ∧ ¬HiddenPort part ∧ ¬HiddenDot part := by
  have h : normalizeNetworkRuleHost " Example.COM.:443 ".toList = .ok "example.com".toList := by
    decide +kernel
  exact ⟨h, (normalize_fixed_iff h).1 (by decide +kernel)⟩

/-- What is in brackets is not searched for a port until it is normalised again. -/
theorem bracketed_port_not_fixed :
    ¬∀ raw host : Str, normalizeNetworkRuleHost raw = .ok host →
      normalizeNetworkRuleHost host = .ok host := by
  intro hall
  have hfixed := hall "[a:80]".toList "a:80".toList (by decide +kernel)
  have hagain : normalizeNetworkRuleHost "a:80".toList = .ok "a".toList := by decide +kernel
  rw [hagain] at hfixed
  exact absurd (Except.ok.inj hfixed) (by decide)

end Codex.ExecPolicy
