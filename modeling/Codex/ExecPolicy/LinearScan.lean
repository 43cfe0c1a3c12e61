import Codex.ExecPolicy.Amendment
import Codex.ExecPolicy.Overlay

/-!
# The index of programs

A policy looks its rules up under the first token of the command. `linearScan`
is what the rules say without the index: all of them, in the order in which they
were declared, against the tokens one by one.
-/

namespace Codex.ExecPolicy

open List Codex.Text
open Codex.Permissions (Host)

/-! ## The scan -/

/-- Each token of the pattern matches the one at its place. -/
def tokensMatch : List PatternToken → List Str → Bool
  | [], _ => true
  | _ :: _, [] => false
  | token :: tokens, arg :: args => token.matches arg && tokensMatch tokens args

def PrefixRule.scan (rule : PrefixRule) : List Str → Option RuleMatch
  | [] => none
  | first :: args =>
    if rule.pattern.first = first ∧ tokensMatch rule.pattern.rest args then
      some (.prefixRuleMatch ((first :: args).take (rule.pattern.rest.length + 1)) rule.decision none
        rule.justification)
    else none

def linearScan (rules : List PrefixRule) (cmd : List Str) : List RuleMatch :=
  rules.filterMap fun rule => rule.scan cmd

/-! ## Declarations -/

/-- The rules that a builtin call declares: one for each alternative of the first token. -/
def BuiltinCall.declared : BuiltinCall → List PrefixRule
  | .prefixRule pattern decision _ _ justification =>
    match parseDecision decision, parsePattern pattern with
    | .ok decision, .ok (first, rest) =>
      first.alternatives.map fun head => ⟨⟨head, rest⟩, decision, justification⟩
    | _, _ => []
  | _ => []

/-- Policies as they are made, with the rules that were declared for them. -/
inductive Built (shlexSplit : Str → Option (List Str)) (host : Host) :
    Policy → List PrefixRule → Prop where
  | empty : Built shlexSplit host {} []
  | addPrefixRule {policy policy' : Policy} {rules : List PrefixRule} (first : Str)
      (rest : List Str) (decision : Decision) (hpolicy : Built shlexSplit host policy rules)
      (hadd : policy.addPrefixRule (first :: rest) decision = .ok policy') :
      Built shlexSplit host policy' (rules ++ [⟨⟨first, rest.map .single⟩, decision, none⟩])
  | files {calls : List BuiltinCall} {builder : PolicyBuilder}
      (hcalls : calls.foldlM (applyCall shlexSplit host) {} = .ok builder) :
      Built shlexSplit host builder.build (calls.flatMap BuiltinCall.declared)
  | mergeOverlay {policy overlay : Policy} {rules rules' : List PrefixRule}
      (hpolicy : Built shlexSplit host policy rules)
      (hoverlay : Built shlexSplit host overlay rules') :
      Built shlexSplit host (policy.mergeOverlay overlay) (rules ++ rules')

variable {shlexSplit : Str → Option (List Str)} {host : Host} {policy overlay : Policy}
  {rules : List PrefixRule} {cmd : List Str}

/-! ## One rule -/

theorem tokensMatch_iff {tokens : List PatternToken} {args : List Str} :
    tokensMatch tokens args = true ↔ tokens.length ≤ args.length ∧
      (tokens.zip (args.take tokens.length)).all (fun p => p.1.matches p.2) = true := by
  induction tokens generalizing args with
  | nil => simp [tokensMatch]
  | cons token tokens ih =>
    cases args with
    | nil => simp [tokensMatch]
    | cons arg args =>
      rw [tokensMatch, Bool.and_eq_true, ih, length_cons, length_cons,
        take_succ_cons, zip_cons_cons, all_cons, Bool.and_eq_true,
        Nat.succ_le_succ_iff]
      exact and_left_comm

theorem matchesPrefix_cons (pattern : PrefixPattern) (first : Str) (args : List Str) :
    pattern.matchesPrefix (first :: args) =
      if pattern.first = first ∧ tokensMatch pattern.rest args then
        some ((first :: args).take (pattern.rest.length + 1))
      else none := by
  unfold PrefixPattern.matchesPrefix
  dsimp only
  rw [length_cons, head?_cons, tail_cons]
  by_cases hboth : pattern.first = first ∧ tokensMatch pattern.rest args = true
  · obtain ⟨hlen, hall⟩ := tokensMatch_iff.1 hboth.2
    have hfits : ¬ (args.length + 1 < pattern.rest.length + 1 ∨ some first ≠ some pattern.first) := by
      rw [hboth.1]
      simp only [ne_eq, not_true_eq_false, or_false]
      omega
    rw [if_pos hboth, if_neg hfits, if_pos hall]
  · rw [if_neg hboth]
    split
    · rfl
    · next hfits =>
      obtain ⟨hlen, hfirst⟩ := not_or.1 hfits
      refine if_neg fun hall => hboth ⟨?_, tokensMatch_iff.2 ⟨by omega, hall⟩⟩
      exact (Option.some_inj.1 (not_not.1 hfirst)).symm

theorem matches_eq_scan (rule : PrefixRule) (cmd : List Str) : rule.matches cmd = rule.scan cmd := by
  unfold PrefixRule.matches
  cases cmd with
  | nil => rfl
  | cons first args =>
    rw [matchesPrefix_cons, PrefixRule.scan]
    split <;> rfl

/-! ## The index -/

/-- The rules stand in the index as they were declared, each under its first token. -/
def Indexed (policy : Policy) (rules : List PrefixRule) : Prop :=
  policy.rulesByProgram.entries = rules.map fun rule => (rule.program, rule)

theorem entries_addRules (builder : PolicyBuilder) (rules : List PrefixRule) :
    (rules.foldl PolicyBuilder.addRule builder).rulesByProgram.entries =
      builder.rulesByProgram.entries ++ rules.map fun rule => (rule.program, rule) := by
  induction rules generalizing builder with
  | nil => simp
  | cons rule rules ih =>
    rw [foldl_cons, ih]
    simp [PolicyBuilder.addRule, MultiMap.insert]

theorem entries_applyCall {builder builder' : PolicyBuilder} {call : BuiltinCall}
    (h : applyCall shlexSplit host builder call = .ok builder') :
    builder'.rulesByProgram.entries =
      builder.rulesByProgram.entries ++ call.declared.map fun rule => (rule.program, rule) := by
  cases call with
  | prefixRule pattern decision matches' notMatch justification =>
    obtain ⟨d, hdecision, h⟩ := bind_eq_ok.1 h
    split at h
    · obtain ⟨⟨first, rest⟩, hpattern, h⟩ := bind_eq_ok.1 h
      obtain ⟨examples, -, h⟩ := bind_eq_ok.1 h
      obtain ⟨notMatches, -, h⟩ := bind_eq_ok.1 h
      cases h
      rw [entries_addRules, BuiltinCall.declared, hdecision, hpattern]
    · cases h
  | networkRule args =>
    cases hrule : networkRule args with
    | error error =>
      simp only [applyCall, hrule] at h
      cases h
    | ok rule =>
      simp only [applyCall, hrule] at h
      cases h
      exact (append_nil _).symm
  | hostExecutable name paths =>
    obtain ⟨_, -, h⟩ := bind_eq_ok.1 h
    obtain ⟨parsed, -, h⟩ := bind_eq_ok.1 h
    cases h
    exact (append_nil _).symm

theorem entries_applyCalls {builder builder' : PolicyBuilder} {calls : List BuiltinCall}
    (h : calls.foldlM (applyCall shlexSplit host) builder = .ok builder') :
    builder'.rulesByProgram.entries = builder.rulesByProgram.entries ++
      (calls.flatMap BuiltinCall.declared).map fun rule => (rule.program, rule) := by
  induction calls generalizing builder with
  | nil =>
    cases h
    simp
  | cons call calls ih =>
    rw [foldlM_cons] at h
    obtain ⟨next, hcall, hrest⟩ := bind_eq_ok.1 h
    rw [ih hrest, entries_applyCall hcall, flatMap_cons, map_append, List.append_assoc]

/-- **However a policy is made, its index holds the declared rules in their order.** -/
theorem Built.indexed (h : Built shlexSplit host policy rules) : Indexed policy rules := by
  induction h with
  | empty => rfl
  | addPrefixRule _ _ _ _ hadd ih =>
    cases hadd
    unfold Indexed at ih ⊢
    rw [map_append, ← ih]
    rfl
  | files hcalls => exact entries_applyCalls hcalls
  | mergeOverlay _ _ ih ih' =>
    unfold Indexed Policy.mergeOverlay at *
    rw [MultiMap.entries_extend, ih, ih', map_append]

theorem scan_of_ne {rule : PrefixRule} {first : Str} {args : List Str} (h : rule.program ≠ first) :
    rule.scan (first :: args) = none := by
  unfold PrefixRule.scan
  exact if_neg fun hboth => h hboth.1

/-- The rules under the first token of the command are the only ones that can match it. -/
theorem exactMatches_eq_scan (h : Indexed policy rules) (cmd : List Str) :
    policy.exactMatches cmd = linearScan rules cmd := by
  unfold linearScan
  cases cmd with
  | nil =>
    rw [exactMatches_nil]
    exact (filterMap_eq_nil_iff.2 fun _ _ => rfl).symm
  | cons first args =>
    rw [exactMatches_cons, h]
    clear h
    induction rules with
    | nil => rfl
    | cons rule rules ih =>
      rw [map_cons, filterMap_cons]
      by_cases hprogram : rule.program = first
      · rw [filter_cons_of_pos (by simpa using hprogram), map_cons, filterMap_cons,
          matches_eq_scan, ih]
      · rw [filter_cons_of_neg (by simpa using hprogram), scan_of_ne hprogram, ih]

/-! ## The result -/

theorem matches_default_eq (policy : Policy) (host : Host) (cmd : List Str) :
    policy.matchesForCommandWithOptions host cmd none {} = policy.exactMatches cmd := by
  unfold Policy.matchesForCommandWithOptions Policy.matchedRules Policy.exactMatches
  cases policy.matchExactRules cmd with
  | none => rfl
  | some matched => cases matched <;> rfl

theorem exactMatches_mergeOverlay (policy overlay : Policy) (cmd : List Str) :
    (policy.mergeOverlay overlay).exactMatches cmd =
      policy.exactMatches cmd ++ overlay.exactMatches cmd := by
  cases cmd with
  | nil => rfl
  | cons first args =>
    rw [exactMatches_cons, exactMatches_cons, exactMatches_cons, Policy.mergeOverlay,
      MultiMap.entries_extend, filter_append, map_append, filterMap_append]

/-- **The index finds what a scan of the declared rules finds**, the rules of an overlay come after
the others, and several commands are decided as the one that is decided most strictly. -/
theorem indexed_matches_linear (hbuilt : Built shlexSplit host policy rules) :
    (∀ cmd, policy.matchesForCommandWithOptions host cmd none {} = linearScan rules cmd) ∧
      (∀ overlay cmd, (policy.mergeOverlay overlay).matchesForCommandWithOptions host cmd none {} =
        policy.matchesForCommandWithOptions host cmd none {} ++
          overlay.matchesForCommandWithOptions host cmd none {}) ∧
      ∀ commands fallback, commands ≠ [] → ∃ evaluation,
        policy.checkMultipleWithOptions host commands fallback {} = some evaluation ∧
          IsGreatest {d | ∃ cmd ∈ commands,
            (policy.checkWithOptions host cmd fallback {}).map (·.decision) = some d}
            evaluation.decision := by
  refine ⟨fun cmd => ?_, fun overlay cmd => ?_, fun commands fallback hne => ?_⟩
  · rw [matches_default_eq, exactMatches_eq_scan hbuilt.indexed]
  · rw [matches_default_eq, matches_default_eq, matches_default_eq, exactMatches_mergeOverlay]
  · exact checkMultiple_isGreatest policy host fallback {} hne

/-- A rule that is added twice, under a rule that asks, matches twice. -/
theorem indexed_matches_linear_git :
    ∃ (policy overlay : Policy) (rules : List PrefixRule),
      Built (fun _ => none) bareHost (policy.mergeOverlay overlay) rules ∧
        (∀ cmd, (policy.mergeOverlay overlay).matchesForCommandWithOptions bareHost cmd none {} =
          linearScan rules cmd) ∧
        (linearScan rules ["git".toList, "push".toList, "-f".toList]).map RuleMatch.decision =
          [.allow, .allow, .prompt] := by
  have hpush {policy : Policy} {rules : List PrefixRule}
      (hpolicy : Built (fun _ => none) bareHost policy rules) :=
    Built.addPrefixRule "git".toList ["push".toList] .allow hpolicy rfl
  have hbuilt := Built.mergeOverlay (hpush (hpush .empty))
    (Built.addPrefixRule "git".toList [] .prompt .empty rfl)
  exact ⟨_, _, _, hbuilt, (indexed_matches_linear hbuilt).1, by decide +kernel⟩

end Codex.ExecPolicy
