import Codex.ExecPolicy.Amendment
import Codex.ExecPolicy.Overlay

/-!
# Amendments and the rules file

The rules file is read back with the policy parser. `Recorded` says what the
file of a run holds: the calls that filled the builder, and the rules of the
memory among theirs. `amendments_agree_iff` is the result.
-/

namespace Codex.ExecPolicy

open List Codex.Text
open Codex.Permissions (AbsolutePathBuf Host Path fromAbsolutePath)

variable {host : Host} {shlexSplit : Str → Option (List Str)} {eval : StarlarkModule}
  {policy policy' : Policy} {cmd command : List Str} {commands : List (List Str)}
  {st st' : PolicyManager}

/-! ## The rule of an amendment -/

/-- The entry a command is amended with. -/
def allowEntry (command : List Str) : Str × PrefixRule :=
  (command.headD [], allowRule (command.headD []) command.tail .allow)

theorem applies_allowRule {first : Str} {rest : List Str} {d : Decision} :
    (allowRule first rest d).Applies cmd ↔ first :: rest <+: cmd := by
  have hargs : ∀ args, List.Forall₂ (fun token arg => PatternToken.matches token arg = true)
      (rest.map .single) args ↔ rest = args := by
    intro args
    rw [forall₂_map_left_iff]
    have hsingle : ∀ a b : Str, PatternToken.matches (.single a) b = true ↔ a = b := by
      intro a b
      exact decide_eq_true_iff
    simp only [hsingle, forall₂_eq_eq_eq]
  rw [applies_iff]
  constructor
  · rintro ⟨args, more, rfl, hall⟩
    rw [← (hargs args).1 hall]
    exact ⟨more, rfl⟩
  · rintro ⟨more, rfl⟩
    exact ⟨rest, more, rfl, (hargs rest).2 rfl⟩

theorem byToken_allowEntry (hne : command ≠ []) :
    ByToken (allowEntry command) cmd ↔ command <+: cmd := by
  obtain ⟨first, rest, rfl⟩ := exists_cons_of_ne_nil hne
  unfold ByToken allowEntry
  rw [applies_allowRule]
  refine ⟨fun h => h.2, fun h => ⟨?_, h⟩⟩
  obtain ⟨more, rfl⟩ := h
  rfl

theorem byName_allowEntry (hne : command ≠ []) :
    ByName host policy (allowEntry command) cmd ↔
      ∃ basename program, Policy.resolveProgram host cmd = some (basename, program) ∧
        policy.withholds basename program = false ∧ command <+: basename :: cmd.tail := by
  obtain ⟨first, rest, rfl⟩ := exists_cons_of_ne_nil hne
  unfold ByName allowEntry
  constructor
  · rintro ⟨program, hres, hwith, happ⟩
    exact ⟨first, program, hres, hwith, applies_allowRule.1 happ⟩
  · rintro ⟨basename, program, hres, hwith, hprefixed⟩
    obtain ⟨rfl, -⟩ := cons_prefix_cons.1 hprefixed
    exact ⟨program, hres, hwith, applies_allowRule.2 hprefixed⟩

/-! ## Rules that memory skips -/

theorem exactMatches_ne_nil :
    policy.exactMatches cmd ≠ [] ↔ ∃ entry ∈ policy.rulesByProgram.entries, ByToken entry cmd := by
  rw [← decisions_nonempty]
  constructor
  · rintro ⟨d, hd⟩
    obtain ⟨entry, hmem, hb, -⟩ := mem_exactDecisions.1 hd
    exact ⟨entry, hmem, hb⟩
  · rintro ⟨entry, hmem, hb⟩
    exact ⟨_, mem_exactDecisions.2 ⟨entry, hmem, hb, rfl⟩⟩

theorem hostMatches_ne_nil :
    policy.matchHostExecutableRules host cmd ≠ [] ↔
      ∃ entry ∈ policy.rulesByProgram.entries, ByName host policy entry cmd := by
  rw [← decisions_nonempty]
  constructor
  · rintro ⟨d, hd⟩
    obtain ⟨entry, hmem, hb, -⟩ := mem_hostDecisions.1 hd
    exact ⟨entry, hmem, hb⟩
  · rintro ⟨entry, hmem, hb⟩
    exact ⟨_, mem_hostDecisions.2 ⟨entry, hmem, hb, rfl⟩⟩

theorem resolveProgram_congr (h : command <+: cmd) (hne : command ≠ []) :
    Policy.resolveProgram host cmd = Policy.resolveProgram host command := by
  obtain ⟨first, rest, rfl⟩ := exists_cons_of_ne_nil hne
  obtain ⟨more, rfl⟩ := h
  rfl

/-- What matches a command matches every longer one. -/
theorem exactMatches_mono (hne : command ≠ []) (h : command <+: cmd)
    (hexact : policy.exactMatches command ≠ []) : policy.exactMatches cmd ≠ [] := by
  obtain ⟨entry, hmem, hhead, happ⟩ := exactMatches_ne_nil.1 hexact
  refine exactMatches_ne_nil.2 ⟨entry, hmem, ?_, happ.mono h⟩
  obtain ⟨first, rest, rfl⟩ := exists_cons_of_ne_nil hne
  obtain ⟨more, rfl⟩ := h
  exact hhead

theorem hostMatches_mono (hne : command ≠ []) (h : command <+: cmd)
    (hhost : policy.matchHostExecutableRules host command ≠ []) :
    policy.matchHostExecutableRules host cmd ≠ [] := by
  obtain ⟨entry, hmem, program, hres, hwith, happ⟩ := hostMatches_ne_nil.1 hhost
  refine hostMatches_ne_nil.2
    ⟨entry, hmem, program, (resolveProgram_congr h hne).trans hres, hwith, happ.mono ?_⟩
  obtain ⟨first, rest, rfl⟩ := exists_cons_of_ne_nil hne
  obtain ⟨more, rfl⟩ := h
  exact cons_prefix_cons.2 ⟨rfl, ⟨more, rfl⟩⟩

theorem alreadyAllowed_cases (h : alreadyAllowed host policy command = true) :
    policy.exactMatches command ≠ [] ∨ policy.matchHostExecutableRules host command ≠ [] := by
  have hone : policy.checkMultipleWithOptions host [command] (fun _ => .forbidden) resolving =
      policy.checkWithOptions host command (fun _ => .forbidden) resolving := by
    simp [Policy.checkMultipleWithOptions, Policy.checkWithOptions]
  obtain ⟨evaluation, heval, htier⟩ :=
    checkWithOptions_spec policy host command fun _ => .forbidden
  unfold alreadyAllowed at h
  rw [hone, heval] at h
  have hallow : evaluation.decision = .allow := by
    simp only [Bool.and_eq_true, decide_eq_true_eq] at h
    exact h.1
  rw [hallow] at htier
  by_contra hcon
  obtain ⟨hexact, hhost⟩ := not_or.1 hcon
  rw [tierMax_of_fallback (decisions_eq_empty.2 (not_not.1 hexact))
    (decisions_eq_empty.2 (not_not.1 hhost))] at htier
  cases htier

/-- **The condition on a call**: if the memory allows the command already, then among the commands
that no rule matches under their first token, those that start with the amended one meet only rules
that allow, and those that start with it under the file name of their program meet some rule. -/
def AmendmentKept (host : Host) (memory : Policy) (command : List Str) : Prop :=
  alreadyAllowed host memory command = true →
    ∀ cmd, memory.exactMatches cmd = [] →
      (command <+: cmd → ∀ m ∈ memory.matchHostExecutableRules host cmd, m.decision = .allow) ∧
      (∀ basename program, Policy.resolveProgram host cmd = some (basename, program) →
        memory.withholds basename program = false → command <+: basename :: cmd.tail →
        memory.matchHostExecutableRules host cmd ≠ [])

theorem amendmentKept_iff (hne : command ≠ []) (h : alreadyAllowed host policy command = true) :
    AmendmentKept host policy command ↔ Redundant host policy (allowEntry command) := by
  unfold AmendmentKept Redundant
  simp only [h, true_implies, byToken_allowEntry hne, byName_allowEntry hne]
  refine forall₂_congr fun cmd hexact => and_congr ?_ ?_
  · refine forall_congr' fun hprefixed => ⟨fun hall => ⟨?_, hall⟩, fun hall => hall.2⟩
    rcases alreadyAllowed_cases h with hcase | hcase
    · exact absurd hexact (exactMatches_mono hne hprefixed hcase)
    · exact hostMatches_mono hne hprefixed hcase
  · constructor
    · rintro hall ⟨basename, program, hres, hwith, hprefixed⟩
      exact hall basename program hres hwith hprefixed
    · intro hall basename program hres hwith hprefixed
      exact hall ⟨basename, program, hres, hwith, hprefixed⟩

variable {entry : Str × PrefixRule} {ws : List Str} {contents : Str}

theorem redundant_of_mem (h : entry ∈ policy.rulesByProgram.entries) :
    Redundant host policy entry := by
  intro cmd hexact
  refine ⟨fun hb => ?_, fun hb => hostMatches_ne_nil.2 ⟨entry, h, hb⟩⟩
  exact absurd hexact (exactMatches_ne_nil.2 ⟨entry, h, hb⟩)

/-- A redundant rule stays so when allow rules are added. -/
theorem Redundant.extends (h : Redundant host policy entry) (he : Extends policy policy') :
    Redundant host policy' entry := by
  intro cmd hexact
  have hempty := he.exactDecisions cmd
  rw [decisions_eq_empty.2 hexact] at hempty
  obtain ⟨hold, -⟩ := Set.union_empty_iff.1 hempty.symm
  obtain ⟨htoken, hname⟩ := h cmd (decisions_eq_empty.1 hold)
  have hgrow : policy.matchHostExecutableRules host cmd ≠ [] →
      policy'.matchHostExecutableRules host cmd ≠ [] := by
    intro hne
    obtain ⟨entry', hmem, hb⟩ := hostMatches_ne_nil.1 hne
    exact hostMatches_ne_nil.2 ⟨entry', he.kept entry' hmem, by rwa [he.byName]⟩
  refine ⟨fun hb => ⟨hgrow (htoken hb).1, fun m hm => ?_⟩, fun hb => hgrow (hname ?_)⟩
  · have hd : m.decision ∈ decisions (policy'.matchHostExecutableRules host cmd) := ⟨m, hm, rfl⟩
    rw [he.hostDecisions] at hd
    rcases hd with ⟨m', hm', hd⟩ | hd
    · rw [← hd]
      exact (htoken hb).2 m' hm'
    · exact he.extraDecisions_subset _ hd
  · rwa [he.byName] at hb

/-! ## Reading the file back -/

/-- The builtin call that an amendment writes. -/
def allowCall (command : List Str) : BuiltinCall :=
  .prefixRule (command.map .str) (some "allow".toList) none none none

/-- The contents with a newline at the end, unless there are none. -/
def terminated (contents : Str) : Str :=
  if !contents.isEmpty && !endsWithNewline contents then contents ++ ['\n'] else contents

/-- Starlark evaluates the lines that spell the rules of the commands to calls with their tokens:
the lines that are appended, and those that the file has at the start. -/
structure EvaluatesRules (eval : StarlarkModule) (start : Str) (commands : List (List Str)) :
    Prop where
  appended : ∀ contents calls, eval contents = some calls → ∀ command ∈ commands,
    eval (terminated contents ++ amendmentLine command ++ ['\n']) =
      some (calls ++ [allowCall command])
  present : ∀ calls, eval start = some calls → ∀ command ∈ commands,
    amendmentLine command ∈ lines (terminated start) → allowCall command ∈ calls

theorem mapM_str (tokens : List Str) :
    (tokens.map Value.str).mapM parsePatternToken = .ok (tokens.map .single) := by
  induction tokens with
  | nil => rfl
  | cons token tokens ih =>
    rw [map_cons, mapM_cons, ih]
    rfl

/-- The builder with the rule of an amendment. -/
def PolicyBuilder.amend (builder : PolicyBuilder) (command : List Str) : PolicyBuilder :=
  { builder with
    rulesByProgram := builder.rulesByProgram.insert (allowEntry command).1 (allowEntry command).2
    pendingExampleValidations := builder.pendingExampleValidations ++
      [⟨[(allowEntry command).2], [], []⟩] }

theorem mem_amend {builder : PolicyBuilder} :
    entry ∈ (builder.amend command).rulesByProgram.entries ↔
      entry ∈ builder.rulesByProgram.entries ∨ entry = allowEntry command :=
  MultiMap.mem_insert.trans (or_congr_right Prod.ext_iff.symm)

theorem applyCall_allowCall (builder : PolicyBuilder) (hne : command ≠ []) :
    applyCall shlexSplit host builder (allowCall command) = .ok (builder.amend command) := by
  obtain ⟨first, rest, rfl⟩ := exists_cons_of_ne_nil hne
  have hpattern : parsePattern ((first :: rest).map .str) =
      .ok (.single first, rest.map .single) := by
    rw [parsePattern, mapM_str]
    rfl
  have hdecision : parseDecision (some "allow".toList) = .ok .allow := by decide
  rw [allowCall, applyCall, prefixRule, hdecision, ok_bind,
    if_pos (show justificationOk none = true from rfl), hpattern]
  rfl

theorem mem_addRules {builder : PolicyBuilder} {rules : List PrefixRule}
    (h : entry ∈ builder.rulesByProgram.entries) :
    entry ∈ (rules.foldl PolicyBuilder.addRule builder).rulesByProgram.entries := by
  induction rules generalizing builder with
  | nil => exact h
  | cons rule rules ih => exact ih (MultiMap.mem_insert.2 (.inl h))

/-- No call takes a rule away. -/
theorem mem_applyCall {builder builder' : PolicyBuilder} {call : BuiltinCall}
    (hcall : applyCall shlexSplit host builder call = .ok builder')
    (h : entry ∈ builder.rulesByProgram.entries) : entry ∈ builder'.rulesByProgram.entries := by
  cases call with
  | prefixRule pattern decision matches' notMatch justification =>
    obtain ⟨decision, -, hcall⟩ := bind_eq_ok.1 hcall
    split at hcall
    · obtain ⟨⟨first, rest⟩, -, hcall⟩ := bind_eq_ok.1 hcall
      obtain ⟨examples, -, hcall⟩ := bind_eq_ok.1 hcall
      obtain ⟨notMatches, -, hcall⟩ := bind_eq_ok.1 hcall
      cases hcall
      exact mem_addRules h
    · cases hcall
  | networkRule args =>
    cases hrule : networkRule args with
    | error error =>
      simp only [applyCall, hrule] at hcall
      cases hcall
    | ok rule =>
      simp only [applyCall, hrule] at hcall
      cases hcall
      exact h
  | hostExecutable name paths =>
    obtain ⟨_, -, hcall⟩ := bind_eq_ok.1 hcall
    obtain ⟨parsed, -, hcall⟩ := bind_eq_ok.1 hcall
    cases hcall
    exact h

theorem mem_of_allowCall_mem {calls : List BuiltinCall} {builder builder' : PolicyBuilder}
    (hne : command ≠ []) (hcalls : calls.foldlM (applyCall shlexSplit host) builder = .ok builder')
    (h : allowCall command ∈ calls ∨ allowEntry command ∈ builder.rulesByProgram.entries) :
    allowEntry command ∈ builder'.rulesByProgram.entries := by
  induction calls generalizing builder with
  | nil =>
    cases hcalls
    exact h.resolve_left not_mem_nil
  | cons call calls ih =>
    rw [foldlM_cons] at hcalls
    obtain ⟨builder₁, hone, hrest⟩ := bind_eq_ok.1 hcalls
    refine ih hrest ?_
    rcases h with h | h
    · rcases mem_cons.1 h with rfl | h
      · rw [applyCall_allowCall builder hne] at hone
        cases hone
        exact .inr (mem_amend.2 (.inr rfl))
      · exact .inl h
    · exact .inr (mem_applyCall hone h)

theorem validatePendingExamples_amend {builder : PolicyBuilder}
    (h : validatePendingExamples host builder = .ok ()) :
    validatePendingExamples host (builder.amend command) = .ok () := by
  unfold validatePendingExamples at h ⊢
  rw [forM_eq_forM] at h ⊢
  show forM (builder.pendingExampleValidations ++ _) _ = _
  rw [forM_append]
  show (forM builder.pendingExampleValidations
    (validatePending host builder.hostExecutablesByName) >>= _) = _
  rw [h]
  rfl

/-! ## Lines -/

theorem newline_not_mem_amendmentLine (command : List Str) : '\n' ∉ amendmentLine command := by
  have hjoin : '\n' ∉ joinArgs (command.map jsonString) := by
    refine newline_not_mem_joinArgs fun a ha => ?_
    obtain ⟨token, -, rfl⟩ := mem_map.1 ha
    exact newline_not_mem_jsonString token
  rw [amendmentLine, mem_append, mem_append, not_or, not_or]
  exact ⟨⟨by decide, hjoin⟩, by decide⟩

theorem amendmentLine_getLast (command : List Str) : (amendmentLine command).getLast? ≠ some '\r' := by
  have hend : ruleEnd.getLast? = some ')' := by decide
  rw [amendmentLine, getLast?_append, hend, Option.some_or]
  decide

theorem lines_unlines_nil (h : ∀ w ∈ ws, '\n' ∉ w) : lines (unlines ws []) = ws.map stripCr := by
  rw [lines, splitNl_unlines h not_mem_nil, if_pos rfl, append_nil]

theorem endsWithNewline_unlines {r : Str} (hr : '\n' ∉ r) (hne : r ≠ []) :
    endsWithNewline (unlines ws r) = false := by
  have hsplit : unlines ws r = unlines ws [] ++ r := by rw [← unlines_append_right, nil_append]
  obtain ⟨init, c, rfl⟩ := (eq_nil_or_concat' r).resolve_left hne
  have hc : c ≠ '\n' := by
    rintro rfl
    exact hr (by simp)
  rw [endsWithNewline, hsplit, ← List.append_assoc, getLast?_concat]
  simpa using hc

theorem terminated_unlines (ws : List Str) : terminated (unlines ws []) = unlines ws [] := by
  unfold terminated
  rcases eq_nil_or_concat' ws with rfl | ⟨init, last, rfl⟩
  · rfl
  · rw [unlines_concat, endsWithNewline, getLast?_concat]
    simp

theorem terminated_unlines_of_ne {r : Str} (hr : '\n' ∉ r) (hne : r ≠ []) :
    terminated (unlines ws r) = unlines (ws ++ [r]) [] := by
  have hsplit : unlines ws r = unlines ws [] ++ r := by rw [← unlines_append_right, nil_append]
  have hempty : (unlines ws r).isEmpty = false := by
    rw [hsplit]
    simp [hne]
  rw [terminated, endsWithNewline_unlines hr hne, hempty, unlines_concat, hsplit]
  rfl

/-- A terminated file is a list of lines. -/
theorem terminated_eq_unlines (contents : Str) :
    ∃ ws, terminated contents = unlines ws [] ∧ ∀ w ∈ ws, '\n' ∉ w := by
  obtain ⟨hws, hr⟩ := not_mem_splitNl contents
  rw [← unlines_splitNl contents]
  generalize (splitNl contents).1 = ws at hws ⊢
  generalize (splitNl contents).2 = r at hr ⊢
  by_cases hne : r = []
  · rw [hne]
    exact ⟨ws, terminated_unlines ws, hws⟩
  · refine ⟨ws ++ [r], terminated_unlines_of_ne hr hne, fun w hw => ?_⟩
    rcases mem_append.1 hw with hw | hw
    · exact hws w hw
    · rwa [mem_singleton.1 hw]

theorem mem_lines_terminated {line : Str} (hcr : line.getLast? ≠ some '\r')
    (h : line ∈ lines contents) : line ∈ lines (terminated contents) := by
  obtain ⟨hws, hr⟩ := not_mem_splitNl contents
  rw [← unlines_splitNl contents] at h ⊢
  generalize (splitNl contents).1 = ws at hws h ⊢
  generalize (splitNl contents).2 = r at hr h ⊢
  by_cases hne : r = []
  · rw [hne] at h ⊢
    rwa [terminated_unlines]
  · rw [lines_unlines hws hr hne] at h
    rw [terminated_unlines_of_ne hr hne, lines_unlines_nil, map_append]
    · rcases mem_append.1 h with h | h
      · exact mem_append_left _ h
      · rw [mem_singleton] at h
        subst h
        exact mem_append_right _ (by simp [stripCr_of_ne hcr])
    · intro w hw
      rcases mem_append.1 hw with hw | hw
      · exact hws w hw
      · rwa [mem_singleton.1 hw]

theorem lines_append_line {line : Str} (hnl : '\n' ∉ line) (hcr : line.getLast? ≠ some '\r') :
    lines (terminated (terminated contents ++ line ++ ['\n'])) =
      lines (terminated contents) ++ [line] := by
  obtain ⟨ws, hws, hnot⟩ := terminated_eq_unlines contents
  rw [hws, ← unlines_concat, terminated_unlines, lines_unlines_nil hnot, lines_unlines_nil,
    map_append, map_singleton, stripCr_of_ne hcr]
  intro w hw
  rcases mem_append.1 hw with hw | hw
  · exact hnot w hw
  · rwa [mem_singleton.1 hw]

/-! ## One call -/

/-- The file evaluates to the calls that filled the builder, and the memory has its rules up to
allow rules. -/
structure FileHolds (shlexSplit : Str → Option (List Str)) (host : Host) (eval : StarlarkModule)
    (commands : List (List Str)) (st : PolicyManager) (calls : List BuiltinCall)
    (builder : PolicyBuilder) : Prop where
  evaluates : eval st.file = some calls
  fills : calls.foldlM (applyCall shlexSplit host) {} = .ok builder
  valid : validatePendingExamples host builder = .ok ()
  present : ∀ command ∈ commands, amendmentLine command ∈ lines (terminated st.file) →
    allowCall command ∈ calls
  memory : Extends st.policy builder.build

/-- The policy rebuilt from the file decides every command as the memory does. -/
def FileAgrees (shlexSplit : Str → Option (List Str)) (host : Host) (eval : StarlarkModule)
    (st : PolicyManager) : Prop :=
  ∃ policy, parsePolicy shlexSplit host eval st.file = .ok policy ∧
    SameDecisions host st.policy policy

theorem parsePolicy_eq_ok (h : parsePolicy shlexSplit host eval contents = .ok policy) :
    ∃ calls builder, eval contents = some calls ∧
      calls.foldlM (applyCall shlexSplit host) {} = .ok builder ∧
      validatePendingExamples host builder = .ok () ∧ policy = builder.build := by
  unfold parsePolicy at h
  split at h
  · cases h
  · next calls hcalls =>
    obtain ⟨builder, hbuilder, h⟩ := bind_eq_ok.1 h
    obtain ⟨⟨⟩, hvalid, h⟩ := bind_eq_ok.1 h
    exact ⟨calls, builder, hcalls, hbuilder, hvalid, (Except.ok.inj h).symm⟩

section

variable {calls : List BuiltinCall} {builder : PolicyBuilder}

theorem FileHolds.parse (h : FileHolds shlexSplit host eval commands st calls builder) :
    parsePolicy shlexSplit host eval st.file = .ok builder.build := by
  unfold parsePolicy
  rw [h.evaluates]
  show (calls.foldlM (applyCall shlexSplit host) {} >>= _) = _
  rw [h.fills, ok_bind, h.valid]
  rfl

theorem FileHolds.agrees_iff (h : FileHolds shlexSplit host eval commands st calls builder) :
    FileAgrees shlexSplit host eval st ↔ ∀ entry ∈ builder.rulesByProgram.entries,
      entry ∉ st.policy.rulesByProgram.entries → Redundant host st.policy entry := by
  refine Iff.trans ?_ h.memory.sameDecisions_iff_redundant
  constructor
  · rintro ⟨policy, hparse, hsame⟩
    rw [h.parse] at hparse
    cases hparse
    exact hsame
  · exact fun hsame => ⟨_, h.parse, hsame⟩

/-- The policy with the rule of an amendment. -/
def Policy.amend (policy : Policy) (command : List Str) : Policy :=
  { policy with
    rulesByProgram := policy.rulesByProgram.insert (allowEntry command).1 (allowEntry command).2 }

theorem Policy.mem_amend {entry : Str × PrefixRule} :
    entry ∈ (policy.amend command).rulesByProgram.entries ↔
      entry ∈ policy.rulesByProgram.entries ∨ entry = allowEntry command :=
  MultiMap.mem_insert.trans (or_congr_right Prod.ext_iff.symm)

theorem Policy.extends_amend (policy : Policy) (command : List Str) :
    Extends policy (policy.amend command) := by
  refine ⟨rfl, fun entry h => Policy.mem_amend.2 (.inl h), fun entry h hnot => ?_⟩
  rw [(Policy.mem_amend.1 h).resolve_left hnot]
  rfl

theorem appendAmendmentAndUpdate_eq_ok (h : appendAmendmentAndUpdate host st command = .ok st') :
    command ≠ [] ∧ st'.file = appendLockedLine st.file (amendmentLine command) ∧
      st'.policy = if alreadyAllowed host st.policy command then st.policy
        else st.policy.amend command := by
  obtain ⟨file, hfile, h⟩ := bind_eq_ok.1 h
  unfold blockingAppendAllowPrefixRule at hfile
  split at hfile
  · cases hfile
  · next hne =>
    cases hfile
    obtain ⟨first, rest, rfl⟩ : ∃ first rest, command = first :: rest :=
      exists_cons_of_ne_nil fun e => hne (List.isEmpty_iff.2 e)
    refine ⟨cons_ne_nil _ _, ?_⟩
    split at h
    · next hallowed =>
      cases h
      exact ⟨rfl, (if_pos hallowed).symm⟩
    · next hallowed =>
      cases h
      exact ⟨rfl, (if_neg hallowed).symm⟩

/-- What the file holds after a call: the rule is among its rules. -/
theorem FileHolds.step (h : FileHolds shlexSplit host eval commands st calls builder)
    {start : Str} (heval : EvaluatesRules eval start commands) (hcommand : command ∈ commands)
    (hstep : appendAmendmentAndUpdate host st command = .ok st') :
    ∃ calls' builder', FileHolds shlexSplit host eval commands st' calls' builder' ∧
      ∀ entry, entry ∈ builder'.rulesByProgram.entries ↔
        entry ∈ builder.rulesByProgram.entries ∨ entry = allowEntry command := by
  obtain ⟨hne, hfile, hpolicy⟩ := appendAmendmentAndUpdate_eq_ok hstep
  have hmemory : ∀ builder' : PolicyBuilder,
      builder'.hostExecutablesByName = builder.hostExecutablesByName →
      (∀ entry, entry ∈ builder'.rulesByProgram.entries ↔
        entry ∈ builder.rulesByProgram.entries ∨ entry = allowEntry command) →
      Extends st'.policy builder'.build := by
    intro builder' htable hentries
    rw [hpolicy]
    split
    · refine ⟨htable.trans h.memory.table, fun entry hmem => ?_, fun entry hentry hmem => ?_⟩
      · exact (hentries entry).2 (.inl (h.memory.kept entry hmem))
      · rcases (hentries entry).1 hentry with hold | rfl
        · exact h.memory.extra entry hold hmem
        · rfl
    · refine ⟨htable.trans h.memory.table, fun entry hmem => ?_, fun entry hentry hmem => ?_⟩
      · rcases Policy.mem_amend.1 hmem with hmem | hnew
        · exact (hentries entry).2 (.inl (h.memory.kept entry hmem))
        · exact (hentries entry).2 (.inr hnew)
      · rcases (hentries entry).1 hentry with hold | rfl
        · exact h.memory.extra entry hold fun hin => hmem (Policy.mem_amend.2 (.inl hin))
        · rfl
  by_cases hline : amendmentLine command ∈ lines st.file
  · -- the line is there, and so is its rule
    have hsame : st'.file = st.file := by rw [hfile, appendLockedLine, if_pos hline]
    have hcall := h.present command hcommand
      (mem_lines_terminated (amendmentLine_getLast command) hline)
    have hentry := mem_of_allowCall_mem hne h.fills (.inl hcall)
    have hentries : ∀ entry, entry ∈ builder.rulesByProgram.entries ↔
        entry ∈ builder.rulesByProgram.entries ∨ entry = allowEntry command := by
      refine fun entry => ⟨.inl, ?_⟩
      rintro (hold | rfl)
      · exact hold
      · exact hentry
    exact ⟨calls, builder, ⟨hsame ▸ h.evaluates, h.fills, h.valid, hsame ▸ h.present,
      hmemory builder rfl hentries⟩, hentries⟩
  · have hnew : st'.file = terminated st.file ++ amendmentLine command ++ ['\n'] := by
      rw [hfile, appendLockedLine, if_neg hline]
      rfl
    refine ⟨calls ++ [allowCall command], builder.amend command,
      ⟨?_, ?_, validatePendingExamples_amend h.valid, ?_, hmemory _ rfl fun _ => mem_amend⟩,
      fun _ => mem_amend⟩
    · rw [hnew]
      exact heval.appended _ _ h.evaluates command hcommand
    · rw [foldlM_append, h.fills, ok_bind, foldlM_cons,
        applyCall_allowCall builder hne]
      rfl
    · intro command' hcommand' hline'
      rw [hnew, lines_append_line (newline_not_mem_amendmentLine command)
        (amendmentLine_getLast command)] at hline'
      rcases mem_append.1 hline' with hold | hline'
      · exact mem_append_left _ (h.present command' hcommand' hold)
      · -- the two commands are spelled alike, and Starlark reads one call
        have heq := heval.appended _ _ h.evaluates command hcommand
        rw [← mem_singleton.1 hline', heval.appended _ _ h.evaluates command' hcommand']
          at heq
        exact Option.some.inj heq ▸ mem_append_right _ (mem_singleton_self _)

/-- **A call keeps the agreement exactly when it meets its condition.** -/
theorem FileHolds.agrees_step_iff (h : FileHolds shlexSplit host eval commands st calls builder)
    {start : Str} (heval : EvaluatesRules eval start commands) (hcommand : command ∈ commands)
    (ha : FileAgrees shlexSplit host eval st)
    (hstep : appendAmendmentAndUpdate host st command = .ok st') :
    FileAgrees shlexSplit host eval st' ↔ AmendmentKept host st.policy command := by
  obtain ⟨calls', builder', h', hentries⟩ := h.step heval hcommand hstep
  obtain ⟨hne, -, hpolicy⟩ := appendAmendmentAndUpdate_eq_ok hstep
  rw [h'.agrees_iff]
  rw [h.agrees_iff] at ha
  by_cases hallowed : alreadyAllowed host st.policy command = true
  · rw [if_pos hallowed] at hpolicy
    rw [amendmentKept_iff hne hallowed, hpolicy]
    constructor
    · intro hall
      by_cases hmem : allowEntry command ∈ st.policy.rulesByProgram.entries
      · exact redundant_of_mem hmem
      · exact hall _ ((hentries _).2 (.inr rfl)) hmem
    · intro hred entry hentry hmem
      rcases (hentries entry).1 hentry with hold | rfl
      · exact ha entry hold hmem
      · exact hred
  · refine iff_of_true (fun entry hentry hmem => ?_) (fun hcon => absurd hcon hallowed)
    rw [if_neg hallowed] at hpolicy
    rw [hpolicy] at hmem ⊢
    have hgrow := st.policy.extends_amend command
    rcases (hentries entry).1 hentry with hold | rfl
    · exact (ha entry hold fun hin => hmem (hgrow.kept entry hin)).extends hgrow
    · exact absurd (Policy.mem_amend.2 (.inr rfl)) hmem

end

/-! ## Runs -/

/-- **The rules file and the memory decide every command alike in every state of a run exactly when
every call of the run meets its condition.** -/
theorem amendments_agree_iff {start : Str}
    (hstart : parsePolicy shlexSplit host eval start = .ok policy)
    (heval : EvaluatesRules eval start commands)
    (hrun : runAmendments host ⟨start, policy⟩ commands = .ok st) :
    (∀ pre post s, commands = pre ++ post → runAmendments host ⟨start, policy⟩ pre = .ok s →
        FileAgrees shlexSplit host eval s) ↔
      ∀ pre command post s, commands = pre ++ command :: post →
        runAmendments host ⟨start, policy⟩ pre = .ok s → AmendmentKept host s.policy command := by
  obtain ⟨calls, builder, hcalls, hfills, hvalid, rfl⟩ := parsePolicy_eq_ok hstart
  have hinit : FileHolds shlexSplit host eval commands ⟨start, builder.build⟩ calls builder :=
    ⟨hcalls, hfills, hvalid, heval.present calls hcalls,
      ⟨rfl, fun _ h => h, fun _ h hnot => absurd h hnot⟩⟩
  refine good_run_iff (fun st => ∃ calls builder, FileHolds shlexSplit host eval commands st calls
    builder) ?_ ?_ (fun _ h => h) ⟨calls, builder, hinit⟩ ⟨_, hstart, fun _ _ => rfl⟩ hrun
  · rintro s command s' hcommand ⟨calls, builder, h⟩ ha hs
    exact h.agrees_step_iff heval hcommand ha hs
  · rintro s command s' hcommand ⟨calls, builder, h⟩ - hs -
    obtain ⟨calls', builder', h', -⟩ := h.step heval hcommand hs
    exact ⟨calls', builder', h'⟩

/-! ## Files with one call on a line -/

/-- A module each of whose lines is evaluated by itself. -/
def lineModule (line : Str → Option (List BuiltinCall)) : StarlarkModule := fun contents =>
  ((lines (terminated contents)).mapM line).map List.flatten

theorem mem_of_mapM {line : Str → Option (List BuiltinCall)} {ls : List Str}
    {callss : List (List BuiltinCall)} {l : Str} {cs : List BuiltinCall}
    (h : ls.mapM line = some callss) (hl : l ∈ ls) (hcs : line l = some cs) : cs ∈ callss := by
  induction ls generalizing callss with
  | nil => exact absurd hl not_mem_nil
  | cons l' ls ih =>
    rw [mapM_cons] at h
    obtain ⟨cs', hcs', h⟩ := Option.bind_eq_some_iff.1 h
    obtain ⟨callss', hrest, h⟩ := Option.bind_eq_some_iff.1 h
    cases h
    rcases mem_cons.1 hl with rfl | hl
    · rw [hcs] at hcs'
      cases hcs'
      exact mem_cons_self
    · exact mem_cons_of_mem _ (ih hrest hl)

theorem lineModule_evaluatesRules {line : Str → Option (List BuiltinCall)}
    (h : ∀ command ∈ commands, line (amendmentLine command) = some [allowCall command])
    (start : Str) : EvaluatesRules (lineModule line) start commands := by
  refine ⟨fun contents calls hcalls command hcommand => ?_, fun calls hcalls command hcommand
    hline => ?_⟩
  · obtain ⟨callss, hmap, rfl⟩ := Option.map_eq_some_iff.1 hcalls
    have hnew : (lines (terminated contents) ++ [amendmentLine command]).mapM line =
        some (callss ++ [[allowCall command]]) := by
      rw [mapM_append, hmap, mapM_cons, h command hcommand]
      rfl
    rw [lineModule, lines_append_line (newline_not_mem_amendmentLine command)
      (amendmentLine_getLast command), hnew]
    simp
  · obtain ⟨callss, hmap, rfl⟩ := Option.map_eq_some_iff.1 hcalls
    exact mem_flatten.2 ⟨_, mem_of_mapM hmap hline (h command hcommand),
      mem_singleton_self _⟩

/-! ## A rule that is skipped and makes a difference -/

def words (l : List String) : List Str := l.map String.toList

def gitStatus : List Str := words ["/usr/bin/git", "status"]

def forbidCall (command : List Str) : BuiltinCall :=
  .prefixRule (command.map .str) (some "forbidden".toList) none none none

def forbidLine : Str :=
  "prefix_rule(pattern=[\"git\", \"status\", \"--foo\"], decision=\"forbidden\")".toList

/-- Starlark on the lines of the example. -/
def gitLine (line : Str) : Option (List BuiltinCall) :=
  if line = amendmentLine (words ["git"]) then some [allowCall (words ["git"])]
  else if line = forbidLine then some [forbidCall (words ["git", "status", "--foo"])]
  else if line = amendmentLine gitStatus then some [allowCall gitStatus]
  else none

/-- `git` is allowed, except for one option of `git status`. -/
def gitFile : Str := unlines [amendmentLine (words ["git"]), forbidLine] []

/-- The decision on `/usr/bin/git status --foo`. -/
def decideFoo (policy : Policy) : Option Decision :=
  (policy.checkWithOptions bareHost (words ["/usr/bin/git", "status", "--foo"]) (fun _ => .prompt)
    resolving).map (·.decision)

/-- `/usr/bin/git status` is allowed by the rule for `git`, so that memory skips its amendment. In
the file, the new rule hides the one that forbids `git status --foo`. -/
theorem skipped_amendment_forgets_forbidden :
    ∃ policy st, parsePolicy (fun _ => none) bareHost (lineModule gitLine) gitFile = .ok policy ∧
      EvaluatesRules (lineModule gitLine) gitFile [gitStatus] ∧
      runAmendments bareHost ⟨gitFile, policy⟩ [gitStatus] = .ok st ∧
      ¬ FileAgrees (fun _ => none) bareHost (lineModule gitLine) st := by
  have hline : ∀ command ∈ [gitStatus], gitLine (amendmentLine command) =
      some [allowCall command] := by
    intro command hcommand
    rw [mem_singleton.1 hcommand]
    have h₁ : amendmentLine gitStatus ≠ amendmentLine (words ["git"]) := by decide +kernel
    have h₂ : amendmentLine gitStatus ≠ forbidLine := by decide +kernel
    rw [gitLine, if_neg h₁, if_neg h₂, if_pos rfl]
  have hrun : ((parsePolicy (fun _ => none) bareHost (lineModule gitLine) gitFile).toOption.bind
      fun policy => (runAmendments bareHost ⟨gitFile, policy⟩ [gitStatus]).toOption.map fun st =>
        (decideFoo st.policy, (parsePolicy (fun _ => none) bareHost (lineModule gitLine)
          st.file).toOption.map decideFoo)) =
      some (some .forbidden, some (some .allow)) := by
    decide +kernel
  obtain ⟨policy, hpolicy, hrun⟩ := Option.bind_eq_some_iff.1 hrun
  obtain ⟨st, hst, hpair⟩ := Option.map_eq_some_iff.1 hrun
  obtain ⟨hmemory, hfile⟩ := Prod.mk.inj hpair
  refine ⟨policy, st, ?_, lineModule_evaluatesRules hline gitFile, ?_, ?_⟩
  · exact toOption_eq_some.1 hpolicy
  · exact toOption_eq_some.1 hst
  rintro ⟨policy', hpolicy', hsame⟩
  rw [hpolicy'] at hfile
  have hdiff : decideFoo policy' = decideFoo st.policy := (hsame _ _).symm
  rw [hmemory, Option.some.inj hfile] at hdiff
  exact absurd hdiff (by decide)

/-- An amendment for a command that no rule matches reaches the file and the memory. -/
theorem agrees_new_amendment :
    ∃ st, runAmendments bareHost ⟨[], {}⟩ [words ["ls"]] = .ok st ∧
      FileAgrees (fun _ => none) bareHost
        (lineModule fun _ => some [allowCall (words ["ls"])]) st := by
  have hisOk : (runAmendments bareHost ⟨[], {}⟩ [words ["ls"]]).isOk = true := by decide +kernel
  cases hrun : runAmendments bareHost ⟨[], {}⟩ [words ["ls"]] with
  | error e => rw [hrun] at hisOk; cases hisOk
  | ok st =>
    have heval : EvaluatesRules (lineModule fun _ => some [allowCall (words ["ls"])]) []
        [words ["ls"]] :=
      lineModule_evaluatesRules (fun command h => by rw [mem_singleton.1 h]) []
    refine ⟨st, rfl, (amendments_agree_iff rfl heval hrun).2 ?_ _ [] st (by simp) hrun⟩
    intro pre command post s h hs
    rcases pre with _ | ⟨c, pre⟩
    · obtain ⟨rfl, -⟩ := List.cons.inj h
      cases hs
      intro hallowed
      exact absurd hallowed (by decide +kernel)
    · simp at h

end Codex.ExecPolicy
