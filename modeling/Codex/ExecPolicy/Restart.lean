import Codex.ExecPolicy.Compiled
import Codex.ExecPolicy.RulesFile

/-!
# What survives a restart

The policy in memory takes every rule; the rules file takes a line only once, and
the host is normalised again when the file is read. `agrees_iff_kept` says for
every run of calls when the file and the memory agree in every state: no call
may repeat a line unless the rule changes nothing, and no host may change when
it is normalised a second time.
-/

namespace Codex.ExecPolicy

open List Codex.Text

/-! ## Lines of the rules file -/

theorem newline_not_mem_line (args : RuleArgs) : '\n' ∉ args.line := by
  have hjson := newline_not_mem_jsonString
  have harg : ∀ (key : Str) (value : Str), '\n' ∉ key → '\n' ∉ key ++ jsonString value := by
    intro key value hk
    rw [mem_append, not_or]
    exact ⟨hk, hjson value⟩
  rw [RuleArgs.line, mem_append, mem_append, not_or, not_or]
  refine ⟨⟨by decide, newline_not_mem_joinArgs fun a ha => ?_⟩, by decide⟩
  rcases mem_append.1 ha with ha | ha
  · simp only [mem_cons, not_mem_nil, or_false] at ha
    rcases ha with rfl | rfl | rfl
    · exact harg _ _ (by decide)
    · exact harg _ _ (by decide)
    · exact harg _ _ (by decide)
  · obtain ⟨j, -, rfl⟩ := Option.map_eq_some_iff.1 (Option.mem_toList.1 ha)
    exact harg _ _ (by decide)

theorem line_getLast (args : RuleArgs) : args.line.getLast? = some ')' := by
  rw [RuleArgs.line]
  exact getLast?_concat

variable {ws : List Str}

theorem appendLockedLine_terminated {line : Str} (h : ∀ w ∈ ws, '\n' ∉ w ∧ w.getLast? ≠ some '\r') :
    appendLockedLine (unlines ws []) line =
      if line ∈ ws then unlines ws [] else unlines (ws ++ [line]) [] := by
  have hend : (!(unlines ws []).isEmpty && !endsWithNewline (unlines ws [])) = false := by
    rcases eq_nil_or_concat' ws with rfl | ⟨init, last, rfl⟩
    · rfl
    · rw [unlines_concat]
      simp [endsWithNewline]
  rw [appendLockedLine, lines_terminated h, hend, unlines_concat]
  rfl

/-! ## One call -/

variable {eval : Starlark} {st st' : ManagerState} {call : NetworkRuleCall}

/-- The rule a call adds, given its normalised host. -/
def NetworkRuleCall.rule (call : NetworkRuleCall) (host : Str) : NetworkRule :=
  ⟨host, call.protocol, call.decision, call.justification⟩

theorem appendNetworkRuleAndUpdate_eq_ok (h : appendNetworkRuleAndUpdate st call = .ok st') :
    ∃ host, normalizeNetworkRuleHost call.host = .ok host ∧
      justificationOk call.justification = true ∧
      st' = { file := appendLockedLine st.file (call.args host).line,
              rules := st.rules ++ [call.rule host] } := by
  obtain ⟨file, hfile, h⟩ := bind_eq_ok.1 h
  unfold blockingAppendNetworkRule at hfile
  split at hfile
  · cases hfile
  · cases hfile
  · next host hhost =>
    split at hfile
    · next hj =>
      cases hfile
      refine ⟨host, hhost, hj, ?_⟩
      have hadd : addNetworkRule st.rules call.host call.protocol call.decision
          call.justification = .ok (st.rules ++ [call.rule host]) := by
        simp only [addNetworkRule, hhost, hj, ok_bind, ↓reduceIte]
        rfl
      rw [hadd] at h
      exact (Except.ok.inj h).symm
    · cases hfile

theorem protocol_parse_asPolicyString (protocol : NetworkRuleProtocol) :
    NetworkRuleProtocol.parse protocol.asPolicyString = .ok protocol := by
  cases protocol <;> decide

theorem parse_ruleString (decision : Decision) :
    parseNetworkRuleDecision decision.ruleString = .ok decision := by
  cases decision <;> decide

theorem ruleString_injective {d d' : Decision} (h : d.ruleString = d'.ruleString) : d = d' := by
  have hd := parse_ruleString d
  rw [h, parse_ruleString d'] at hd
  exact (Except.ok.inj hd).symm

/-- Reading a written rule normalises its host again and leaves the rest as it was. -/
theorem networkRule_args (hj : justificationOk call.justification = true) (host : Str) :
    networkRule (call.args host) =
      (normalizeNetworkRuleHost host).map fun h => call.rule h := by
  simp only [networkRule, NetworkRuleCall.args, protocol_parse_asPolicyString, parse_ruleString,
    ok_bind, hj, ↓reduceIte]
  cases normalizeNetworkRuleHost host <;> rfl

/-! ## Agreement -/

/-- The rules file can be read, and the policy read from it compiles to the same domains as the
policy in memory. -/
def Agrees (eval : Starlark) (st : ManagerState) : Prop :=
  ∃ rules, readRules eval st.file = .ok rules ∧
    compiledNetworkDomains rules = compiledNetworkDomains st.rules

/-- The written host can be normalised again, and stays the same if the rule decides it. -/
def HostKept (call : NetworkRuleCall) (host : Str) : Prop :=
  ∃ host', normalizeNetworkRuleHost host = .ok host' ∧ (call.decision = .prompt ∨ host' = host)

/-- The condition on a call and the state before it: the host survives a second normalisation, and
the line is not in the file yet, unless the rule decides nothing or its host is settled. -/
def CallKept (st : ManagerState) (call : NetworkRuleCall) : Prop :=
  ∃ host, normalizeNetworkRuleHost call.host = .ok host ∧ HostKept call host ∧
    (call.decision = .prompt ∨ (call.args host).line ∉ lines st.file ∨
      Settled st.rules host call.decision)

/-- The file consists of the lines `ws`, whose hosts all survive. -/
structure Recorded (eval : Starlark) (st : ManagerState) (ws : List Str) : Prop where
  file : st.file = unlines ws []
  isLine : ∀ w ∈ ws, '\n' ∉ w ∧ w.getLast? ≠ some '\r'
  kept : ∀ w ∈ ws, ∀ (call : NetworkRuleCall) (host : Str), eval w = some (call.args host) →
    HostKept call host

theorem mapM_concat {ε α β : Type} (f : α → Except ε β) (l : List α) (a : α) :
    (l ++ [a]).mapM f = l.mapM f >>= fun bs => (f a).map fun b => bs ++ [b] := by
  rw [mapM_append]
  cases l.mapM f with
  | error e => rfl
  | ok bs =>
    simp only [mapM_cons, mapM_nil]
    cases f a <;> rfl

/-- Two rules with the same decision added to the same domains give the same result exactly when
their hosts are the same, or when the decision is a prompt. -/
theorem compileRule_congr {acc : List Str × List Str} {r r' : NetworkRule}
    (hd : r.decision = r'.decision) :
    compileRule acc r = compileRule acc r' ↔ r.decision = .prompt ∨ r.host = r'.host := by
  have hup : ∀ l : List Str, upsertDomain l r.host = upsertDomain l r'.host ↔ r.host = r'.host := by
    intro l
    constructor
    · intro h
      exact (append_singleton_inj.1 h).2
    · intro h
      rw [h]
  unfold compileRule
  rw [← hd]
  cases hr : r.decision with
  | prompt => simp
  | allow =>
    simp only [Prod.mk.injEq, hup, reduceCtorEq, false_or]
    exact ⟨fun h => h.1, fun h => ⟨h, by rw [h]⟩⟩
  | forbidden =>
    simp only [Prod.mk.injEq, hup, reduceCtorEq, false_or]
    exact ⟨fun h => h.2, fun h => ⟨by rw [h], h⟩⟩

/-- Starlark evaluates the line the call writes to the strings that were serialised. -/
def EvaluatesTo (eval : Starlark) (call : NetworkRuleCall) : Prop :=
  ∀ host, normalizeNetworkRuleHost call.host = .ok host →
    eval (call.args host).line = some (call.args host)

variable {host : Str}

theorem readRule_line (hj : justificationOk call.justification = true)
    (heval : eval (call.args host).line = some (call.args host)) :
    readRule eval (call.args host).line =
      (normalizeNetworkRuleHost host).map fun h => call.rule h := by
  rw [readRule, heval]
  exact networkRule_args hj host

/-- A line that is in the file already: memory takes the rule, the file stays. -/
theorem agrees_repeated_iff (hr : Recorded eval st ws) (ha : Agrees eval st)
    (hline : (call.args host).line ∈ ws) :
    Agrees eval { file := appendLockedLine st.file (call.args host).line,
                  rules := st.rules ++ [call.rule host] } ↔
      call.decision = .prompt ∨ Settled st.rules host call.decision := by
  obtain ⟨rules, hread, hcomp⟩ := ha
  have hfile : appendLockedLine st.file (call.args host).line = st.file := by
    rw [hr.file, appendLockedLine_terminated hr.isLine, if_pos hline]
  have hstep : Agrees eval { file := appendLockedLine st.file (call.args host).line,
                             rules := st.rules ++ [call.rule host] } ↔
      compileRule (compiledNetworkDomains st.rules) (call.rule host) =
        compiledNetworkDomains st.rules := by
    rw [hfile]
    constructor
    · rintro ⟨rules', hread', hcomp'⟩
      rw [hread] at hread'
      cases hread'
      rw [compiledNetworkDomains_concat, hcomp] at hcomp'
      exact hcomp'.symm
    · intro h
      exact ⟨rules, hread, by rw [compiledNetworkDomains_concat, h, hcomp]⟩
  rw [hstep]
  by_cases hp : call.decision = .prompt
  · simp [hp, compileRule, NetworkRuleCall.rule]
  · rw [compileRule_eq_self hp rfl]
    simp [hp, NetworkRuleCall.rule]

/-- A new line: both take the rule, the file with the host normalised once more. -/
theorem agrees_new_iff (hr : Recorded eval st ws) (ha : Agrees eval st)
    (hline : (call.args host).line ∉ ws) (hj : justificationOk call.justification = true)
    (heval : eval (call.args host).line = some (call.args host)) :
    Agrees eval { file := appendLockedLine st.file (call.args host).line,
                  rules := st.rules ++ [call.rule host] } ↔ HostKept call host := by
  obtain ⟨rules, hread, hcomp⟩ := ha
  have hisLine : ∀ w ∈ ws ++ [(call.args host).line], '\n' ∉ w ∧ w.getLast? ≠ some '\r' := by
    intro w hw
    rcases mem_append.1 hw with hw | hw
    · exact hr.isLine w hw
    · rw [mem_singleton.1 hw, line_getLast]
      exact ⟨newline_not_mem_line _, by decide⟩
  have hread' : readRules eval (appendLockedLine st.file (call.args host).line) =
      (normalizeNetworkRuleHost host).map fun h => rules ++ [call.rule h] := by
    have hold : ws.mapM (readRule eval) = .ok rules := by
      rw [← hread, hr.file, readRules, lines_terminated hr.isLine]
    rw [hr.file, appendLockedLine_terminated hr.isLine, if_neg hline, readRules,
      lines_terminated hisLine, mapM_concat, hold, ok_bind, readRule_line hj heval]
    cases normalizeNetworkRuleHost host <;> rfl
  have hcongr : ∀ host', compileRule (compiledNetworkDomains st.rules) (call.rule host') =
      compileRule (compiledNetworkDomains st.rules) (call.rule host) ↔
        call.decision = .prompt ∨ host' = host := fun host' => compileRule_congr rfl
  unfold Agrees HostKept
  rw [hread']
  constructor
  · rintro ⟨rules', hrules', hcomp'⟩
    obtain ⟨host', hhost', rfl⟩ := map_eq_ok.1 hrules'
    rw [compiledNetworkDomains_concat, compiledNetworkDomains_concat, hcomp] at hcomp'
    exact ⟨host', hhost', (hcongr host').1 hcomp'⟩
  · rintro ⟨host', hhost', hkept⟩
    refine ⟨_, map_eq_ok.2 ⟨host', hhost', rfl⟩, ?_⟩
    rw [compiledNetworkDomains_concat, compiledNetworkDomains_concat, hcomp]
    exact (hcongr host').2 hkept

/-- **A call keeps the agreement exactly when it meets its condition.** -/
theorem agrees_step_iff (hr : Recorded eval st ws) (ha : Agrees eval st)
    (heval : EvaluatesTo eval call) (h : appendNetworkRuleAndUpdate st call = .ok st') :
    Agrees eval st' ↔ CallKept st call := by
  obtain ⟨host, hhost, hj, rfl⟩ := appendNetworkRuleAndUpdate_eq_ok h
  have hlines : lines st.file = ws := by rw [hr.file, lines_terminated hr.isLine]
  unfold CallKept
  rw [hlines, hhost]
  by_cases hline : (call.args host).line ∈ ws
  · have hkept := hr.kept _ hline call host (heval host hhost)
    rw [agrees_repeated_iff hr ha hline]
    constructor
    · rintro (hp | hs)
      · exact ⟨host, rfl, hkept, .inl hp⟩
      · exact ⟨host, rfl, hkept, .inr (.inr hs)⟩
    · rintro ⟨_, ⟨rfl⟩, -, hp | hnew | hs⟩
      · exact .inl hp
      · exact absurd hline hnew
      · exact .inr hs
  · rw [agrees_new_iff hr ha hline hj (heval host hhost)]
    constructor
    · exact fun hkept => ⟨host, rfl, hkept, .inr (.inl hline)⟩
    · rintro ⟨_, ⟨rfl⟩, hkept, -⟩
      exact hkept

theorem recorded_step (hr : Recorded eval st ws) (hk : CallKept st call)
    (heval : EvaluatesTo eval call) (h : appendNetworkRuleAndUpdate st call = .ok st') :
    ∃ ws', Recorded eval st' ws' := by
  obtain ⟨host, hhost, -, rfl⟩ := appendNetworkRuleAndUpdate_eq_ok h
  obtain ⟨host', hhost', hkept, -⟩ := hk
  rw [hhost] at hhost'
  cases hhost'
  by_cases hline : (call.args host).line ∈ ws
  · refine ⟨ws, ?_, hr.isLine, hr.kept⟩
    rw [hr.file, appendLockedLine_terminated hr.isLine, if_pos hline]
  · refine ⟨ws ++ [(call.args host).line], ?_, fun w hw => ?_, fun w hw call' host' he => ?_⟩
    · rw [hr.file, appendLockedLine_terminated hr.isLine, if_neg hline]
    · rcases mem_append.1 hw with hw | hw
      · exact hr.isLine w hw
      · rw [mem_singleton.1 hw, line_getLast]
        exact ⟨newline_not_mem_line _, by decide⟩
    · rcases mem_append.1 hw with hw | hw
      · exact hr.kept w hw call' host' he
      · -- the line determines the host and the decision
        rw [mem_singleton.1 hw, heval host hhost] at he
        have hargs := Option.some.inj he
        obtain rfl : host = host' := congrArg RuleArgs.host hargs
        have hd := ruleString_injective (congrArg RuleArgs.decision hargs)
        obtain ⟨h₂, hn, hd'⟩ := hkept
        exact ⟨h₂, hn, by rwa [hd] at hd'⟩

/-! ## Runs -/

/-- **The rules file and the memory agree in every state of a run exactly when every call of the
run meets its condition.** -/
theorem agrees_iff_kept {calls : List NetworkRuleCall} (hrun : runCalls {} calls = .ok st)
    (heval : ∀ call ∈ calls, EvaluatesTo eval call) :
    (∀ pre post s, calls = pre ++ post → runCalls {} pre = .ok s → Agrees eval s) ↔
      ∀ pre call post s, calls = pre ++ call :: post → runCalls {} pre = .ok s →
        CallKept s call := by
  refine good_run_iff (fun st => ∃ ws, Recorded eval st ws) ?_ ?_ heval
    ⟨[], ⟨rfl, by simp, by simp⟩⟩ ⟨[], rfl, rfl⟩ hrun
  · rintro s call s' hcall ⟨ws, hr⟩ ha hs
    exact agrees_step_iff hr ha hcall hs
  · rintro s call s' hcall ⟨ws, hr⟩ - hs hk
    exact recorded_step hr hk hcall hs

/-! ## A host that is allowed, denied and allowed again -/

def exampleCall (decision : Decision) : NetworkRuleCall :=
  ⟨"example.com".toList, .https, decision, none⟩

def exampleArgs (decision : Decision) : RuleArgs :=
  (exampleCall decision).args "example.com".toList

/-- Starlark on the lines of the example. -/
def exampleEval : Starlark := fun line =>
  if line = (exampleArgs .allow).line then some (exampleArgs .allow)
  else if line = (exampleArgs .forbidden).line then some (exampleArgs .forbidden)
  else none

def repeatedCalls : List NetworkRuleCall :=
  [exampleCall .allow, exampleCall .forbidden, exampleCall .allow]

theorem exampleEval_evaluatesTo {decision : Decision} (hd : decision ≠ .prompt) :
    EvaluatesTo exampleEval (exampleCall decision) := by
  intro host hhost
  have hnorm : normalizeNetworkRuleHost (exampleCall decision).host =
      .ok "example.com".toList := by
    cases decision <;> decide +kernel
  rw [hnorm] at hhost
  cases hhost
  cases decision with
  | prompt => exact absurd rfl hd
  | allow => decide +kernel
  | forbidden => decide +kernel

/-- The third call is not written again: after a restart the host is denied. -/
theorem last_allow_lost :
    ∃ st, runCalls {} repeatedCalls = .ok st ∧
      (∀ call ∈ repeatedCalls, EvaluatesTo exampleEval call) ∧
      compiledNetworkDomains st.rules = (["example.com".toList], []) ∧
      ¬ Agrees exampleEval st := by
  have hevals : ∀ call ∈ repeatedCalls, EvaluatesTo exampleEval call := by
    intro call hcall
    simp only [repeatedCalls, mem_cons, not_mem_nil, or_false] at hcall
    rcases hcall with rfl | rfl | rfl
    · exact exampleEval_evaluatesTo (by decide)
    · exact exampleEval_evaluatesTo (by decide)
    · exact exampleEval_evaluatesTo (by decide)
  have hrun : (runCalls {} repeatedCalls).map (fun st => (compiledNetworkDomains st.rules,
      (readRules exampleEval st.file).map compiledNetworkDomains)) =
      .ok ((["example.com".toList], []), .ok ([], ["example.com".toList])) := by
    decide +kernel
  obtain ⟨st, hst, hpair⟩ := map_eq_ok.1 hrun
  obtain ⟨hmem, hread⟩ := Prod.mk.inj hpair
  refine ⟨st, hst, hevals, hmem, ?_⟩
  rintro ⟨rules, hrules, hcomp⟩
  rw [hrules] at hread
  rw [hmem] at hcomp
  have hdenied := (Except.ok.inj hread).symm.trans hcomp
  revert hdenied
  decide

/-- An allow and a later deny survive the restart. -/
theorem agrees_allow_deny :
    ∃ st, runCalls {} [exampleCall .allow, exampleCall .forbidden] = .ok st ∧
      Agrees exampleEval st := by
  have hkept : ∀ decision, HostKept (exampleCall decision) "example.com".toList := fun decision =>
    ⟨"example.com".toList, by decide +kernel, .inr rfl⟩
  have hevals : ∀ call ∈ [exampleCall .allow, exampleCall .forbidden],
      EvaluatesTo exampleEval call := by
    intro call hcall
    simp only [mem_cons, not_mem_nil, or_false] at hcall
    rcases hcall with rfl | rfl
    · exact exampleEval_evaluatesTo (by decide)
    · exact exampleEval_evaluatesTo (by decide)
  have hisOk : (runCalls {} [exampleCall .allow, exampleCall .forbidden]).isOk = true := by
    decide +kernel
  cases hrun : runCalls {} [exampleCall .allow, exampleCall .forbidden] with
  | error e => rw [hrun] at hisOk; cases hisOk
  | ok st =>
    refine ⟨st, rfl, (agrees_iff_kept hrun hevals).2 ?_ _ [] st (by simp) hrun⟩
    intro pre call post s h hs
    rcases pre with _ | ⟨c₁, _ | ⟨c₂, pre⟩⟩
    · obtain ⟨rfl, -⟩ := List.cons.inj h
      cases hs
      exact ⟨_, by decide +kernel, hkept .allow, .inr (.inl (by decide +kernel))⟩
    · obtain ⟨rfl, h₂⟩ := List.cons.inj h
      obtain ⟨rfl, -⟩ := List.cons.inj h₂
      refine ⟨_, by decide +kernel, hkept .forbidden, .inr (.inl ?_)⟩
      have hnew : (runCalls {} [exampleCall .allow]).map (fun s => decide
          (((exampleCall .forbidden).args "example.com".toList).line ∉ lines s.file)) =
          .ok true := by
        decide +kernel
      rw [hs] at hnew
      exact of_decide_eq_true (Except.ok.inj hnew)
    · simp at h

end Codex.ExecPolicy
