import Codex.ExecServer.ProcessRuns
import Mathlib.Data.List.Nodup

/-!
# Paging through the output

A client that reads the output of a process page by page (`exec_read` in
`exec-server/src/local_process.rs`): it starts at zero and asks for what comes after
`next_seq - 1` of the answer before, each time with a limit of its choice, while the tasks
of the process go on. The position never goes back and the pages have every chunk that is
still retained when they come to it, once and in order (`chunks_returned_once`).
-/

namespace Codex.ExecServer

/-- A call and the process it was answered from: after its last wait, under the lock. -/
structure Page where
  process : RunningProcess
  afterSeq : ℕ
  maxBytes : Option ℕ
  deriving DecidableEq

namespace Page

def response (page : Page) : ReadResponse := execRead page.process page.afterSeq page.maxBytes

/-- The position that the client asks for next. -/
def position (page : Page) : ℕ := page.response.nextSeq - 1

/-- The page is the one on which the client passes a number. -/
def Reaches (page : Page) (seq : ℕ) : Prop := page.afterSeq < seq ∧ seq ≤ page.position

end Page

structure Paging where
  process : RunningProcess
  afterSeq : ℕ := 0
  pages : List Page := []
  deriving DecidableEq

inductive PagingAction where
  | process (action : ProcessAction)
  | read (maxBytes : Option ℕ)
  deriving DecidableEq

namespace Paging

def start (tty sandboxed : Bool) : Paging where
  process := RunningProcess.start tty sandboxed

def step (s : Paging) : PagingAction → Option Paging
  | .process action => (s.process.step action).map fun process => { s with process := process }
  | .read maxBytes =>
    let page : Page := ⟨s.process, s.afterSeq, maxBytes⟩
    some { s with afterSeq := page.position, pages := s.pages ++ [page] }

/-- What the client has been given, in the order of the pages. -/
def returned (s : Paging) : List ProcessOutputChunk := s.pages.flatMap fun page => page.response.chunks

/-! ## What every step keeps -/

/-- The positions only grow, the client has been given chunks of the process up to where it stands,
and each number up to there was passed on a page. -/
structure Sound (s : Paging) : Prop where
  process : s.process.Steady
  afterSeq_lt : s.afterSeq < s.process.nextSeq
  positions : (s.pages.map Page.afterSeq ++ [s.afterSeq]).Pairwise (· ≤ ·)
  pageOf : ∀ page ∈ s.pages, page.response.PageOf page.process page.afterSeq
  returned_mem : ∀ chunk ∈ s.returned, chunk.seq ≤ s.afterSeq ∧
    eventAt s.process.events chunk.seq = some (.output chunk)
  sorted : s.returned.Pairwise fun chunk chunk' => chunk.seq < chunk'.seq
  reached : ∀ seq, 0 < seq → seq ≤ s.afterSeq → ∃ page ∈ s.pages, page.Reaches seq

theorem sound_start (tty sandboxed : Bool) : (start tty sandboxed).Sound where
  process := RunningProcess.steady_start tty sandboxed
  afterSeq_lt := Nat.zero_lt_one
  positions := List.pairwise_singleton _ _
  pageOf := nofun
  returned_mem := nofun
  sorted := List.Pairwise.nil
  reached _ hpos hle := absurd hle (Nat.not_le.2 hpos)

theorem Sound.process_step {s : Paging} (h : s.Sound) {action : ProcessAction}
    {process : RunningProcess} (hstep : s.process.step action = some process) :
    ({ s with process := process } : Paging).Sound := by
  obtain ⟨hsteady, more, hmore⟩ := h.process.step hstep
  refine { h with process := hsteady, afterSeq_lt := ?_, returned_mem := ?_ }
  · have hbefore := h.process.1.nextSeq_eq
    have hafter := hsteady.1.nextSeq_eq
    rw [← hmore, List.length_append] at hafter
    have hlt := h.afterSeq_lt
    show s.afterSeq < process.nextSeq
    omega
  · intro chunk hmem
    obtain ⟨hle, hevent⟩ := h.returned_mem chunk hmem
    exact ⟨hle, hmore ▸ eventAt_append hevent more⟩

theorem Sound.read {s : Paging} (h : s.Sound) (maxBytes : Option ℕ) {page : Page}
    (hpage : page = ⟨s.process, s.afterSeq, maxBytes⟩) :
    ({ s with afterSeq := page.position, pages := s.pages ++ [page] } : Paging).Sound := by
  have hpageOf : page.response.PageOf page.process page.afterSeq := by
    subst hpage
    exact execRead_pageOf h.process s.afterSeq maxBytes
  have hprocess : page.process = s.process := by rw [hpage]
  have hafter : page.afterSeq = s.afterSeq := by rw [hpage]
  have hforward : s.afterSeq ≤ page.position := by
    have hlt := hpageOf.lt_nextSeq (by rw [hprocess, hafter]; exact h.afterSeq_lt)
    rw [hafter] at hlt
    exact Nat.le_sub_one_of_lt hlt
  have hchunk : ∀ chunk ∈ page.response.chunks, s.afterSeq < chunk.seq ∧ chunk.seq ≤ page.position ∧
      chunk ∈ s.process.output := by
    intro chunk hmem
    have hlt := hpageOf.chunk_lt chunk hmem
    obtain ⟨hretained, hgt⟩ := mem_retainedAfter.1 (hpageOf.chunks_prefix.subset hmem)
    rw [hafter] at hgt
    exact ⟨hgt, Nat.le_sub_one_of_lt hlt, hprocess ▸ hretained⟩
  constructor
  · exact h.process
  · have hle := hpageOf.nextSeq_le
    have hlt := h.afterSeq_lt
    rw [hprocess] at hle
    show page.response.nextSeq - 1 < s.process.nextSeq
    omega
  · show ((s.pages ++ [page]).map Page.afterSeq ++ [page.position]).Pairwise (· ≤ ·)
    rw [List.map_append, List.map_singleton, hafter]
    refine List.pairwise_append.2 ⟨h.positions, List.pairwise_singleton _ _, ?_⟩
    intro a ha b hb
    rw [List.mem_singleton.1 hb]
    rcases List.mem_append.1 ha with ha | ha
    · have hle := (List.pairwise_append.1 h.positions).2.2 a ha s.afterSeq List.mem_cons_self
      exact hle.trans hforward
    · rw [List.mem_singleton.1 ha]
      exact hforward
  · intro page' hmem
    rcases List.mem_append.1 hmem with hmem | hmem
    · exact h.pageOf page' hmem
    · rw [List.mem_singleton.1 hmem]
      exact hpageOf
  · intro chunk hmem
    rw [returned, List.flatMap_append, List.flatMap_singleton, List.mem_append] at hmem
    rcases hmem with hmem | hmem
    · obtain ⟨hle, hevent⟩ := h.returned_mem chunk hmem
      exact ⟨hle.trans hforward, hevent⟩
    · obtain ⟨-, hle, hretained⟩ := hchunk chunk hmem
      exact ⟨hle, h.process.1.output_mem chunk hretained⟩
  · show (returned _).Pairwise _
    rw [returned, List.flatMap_append, List.flatMap_singleton]
    refine List.pairwise_append.2 ⟨h.sorted, ?_, ?_⟩
    · have hsub := hpageOf.chunks_prefix.sublist.trans List.filter_sublist
      rw [hprocess] at hsub
      exact h.process.1.output_sorted.sublist hsub
    · intro chunk hmem chunk' hmem'
      exact lt_of_le_of_lt (h.returned_mem chunk hmem).1 (hchunk chunk' hmem').1
  · intro seq hpos hle
    by_cases hpassed : seq ≤ s.afterSeq
    · obtain ⟨page', hmem, hreaches⟩ := h.reached seq hpos hpassed
      exact ⟨page', List.mem_append_left _ hmem, hreaches⟩
    · refine ⟨page, List.mem_append_right _ List.mem_cons_self, ?_, hle⟩
      rw [hafter]
      exact Nat.lt_of_not_le hpassed

/-- **One step** of a task of the process or of the client. -/
theorem Sound.step {s t : Paging} {a : PagingAction} (h : s.Sound) (hstep : s.step a = some t) :
    t.Sound := by
  cases a with
  | process action =>
    obtain ⟨process, hprocess, rfl⟩ := Option.map_eq_some_iff.1 hstep
    exact h.process_step hprocess
  | read maxBytes =>
    cases hstep
    exact h.read maxBytes rfl

/-- What is retained when its page comes is on the page. -/
theorem Sound.mem_returned {s : Paging} (h : s.Sound) {page : Page} (hpage : page ∈ s.pages)
    {chunk : ProcessOutputChunk} (hreaches : page.Reaches chunk.seq)
    (hretained : chunk ∈ page.process.output) : chunk ∈ s.returned := by
  obtain ⟨hgt, hle⟩ := hreaches
  have hlt : chunk.seq < page.response.nextSeq := by
    unfold Page.position at hle
    omega
  have hmem := (h.pageOf page hpage).complete chunk (mem_retainedAfter.2 ⟨hretained, hgt⟩) hlt
  exact List.mem_flatMap.2 ⟨page, hpage, hmem⟩

/-- **Every chunk is returned once.** In every run of a process and a client that pages through its
output, the position of the client never goes back, what it has been given are chunks of the process
in the order of their numbers, and each number up to its position was passed on a page: a chunk that
was still retained when that page came has been given to it exactly once. A call that finds a chunk
retained after its position returns at least one. -/
theorem chunks_returned_once {tty sandboxed : Bool} {acts : List PagingAction} {s : Paging}
    (hrun : Machine.run step (start tty sandboxed) acts = some s) :
    (s.pages.map Page.afterSeq ++ [s.afterSeq]).Pairwise (· ≤ ·) ∧
    (s.returned.Pairwise fun chunk chunk' => chunk.seq < chunk'.seq) ∧
    (∀ chunk ∈ s.returned, eventAt s.process.events chunk.seq = some (.output chunk)) ∧
    (∀ seq, 0 < seq → seq ≤ s.afterSeq → ∃ page ∈ s.pages, page.Reaches seq) ∧
    (∀ page ∈ s.pages, ∀ chunk ∈ page.process.output, page.Reaches chunk.seq →
      s.returned.count chunk = 1) ∧
    ∀ page ∈ s.pages, (∃ chunk ∈ page.process.output, page.afterSeq < chunk.seq) →
      page.response.chunks ≠ [] := by
  have hsound : s.Sound :=
    Machine.run_invariant (fun _ _ _ h hstep => h.step hstep) (sound_start tty sandboxed) hrun
  have hnodup : s.returned.Nodup := by
    refine hsound.sorted.imp ?_
    rintro chunk _ hlt rfl
    exact Nat.lt_irrefl _ hlt
  refine ⟨hsound.positions, hsound.sorted, fun chunk hmem => (hsound.returned_mem chunk hmem).2,
    hsound.reached, ?_, ?_⟩
  · intro page hpage chunk hretained hreaches
    exact List.count_eq_one_of_mem hnodup (hsound.mem_returned hpage hreaches hretained)
  · rintro page hpage ⟨chunk, hretained, hgt⟩ hnil
    have hempty := (hsound.pageOf page hpage).nonempty hnil
    have hmem := mem_retainedAfter.2 ⟨hretained, hgt⟩
    rw [hempty] at hmem
    cases hmem

/-- The exit takes a number between two chunks, and a page without room gives one of them. -/
def exitBetweenPages : List PagingAction :=
  [.process (.output .stdout [97, 98]), .read (some 0), .process (.exit 0 false), .read (some 1),
    .process (.output .stderr [99]), .read none]

theorem chunks_returned_once_exit_between :
    ∃ s, Machine.run step (start false false) exitBetweenPages = some s ∧
      s.returned = [⟨1, .stdout, [97, 98]⟩, ⟨3, .stderr, [99]⟩] ∧ s.afterSeq = 3 ∧
      s.returned.Pairwise fun chunk chunk' => chunk.seq < chunk'.seq := by
  have hrun : (Machine.run step (start false false) exitBetweenPages).map
      (fun s => (s.returned, s.afterSeq)) =
        some ([⟨1, .stdout, [97, 98]⟩, ⟨3, .stderr, [99]⟩], 3) := by
    decide +kernel
  obtain ⟨s, hs, hreached⟩ := Option.map_eq_some_iff.1 hrun
  obtain ⟨hreturned, hafter⟩ := Prod.mk.inj hreached
  exact ⟨s, hs, hreturned, hafter, (chunks_returned_once hs).2.1⟩

end Paging

end Codex.ExecServer
