import Mathlib.Data.List.Basic

/-!
# Requests and answers in a log

A log holds requests and answers under keys. `answered` puts an answer right
after each request that has none, `matched` drops the answers whose request is
missing. Together they give a closed log, and a closed log stays as it is.
-/

namespace Codex

open List

/-- How the items of a log pair up: the key that an item requests, the key that
it answers, and the answer that is made up for a request. Some answers stand
without their request. -/
structure Pairing (ι κ : Type) where
  request : ι → Option κ
  answer : ι → Option κ
  standsAlone : ι → Bool
  makeUp : ι → κ → ι
  request_of_answer : ∀ {item key}, answer item = some key → request item = none
  answer_makeUp : ∀ item key, answer (makeUp item key) = some key

namespace Pairing

variable {ι κ : Type} (pairing : Pairing ι κ) {items log : List ι} {item : ι} {key : κ}

def requests (items : List ι) : List κ := items.filterMap pairing.request

def answers (items : List ι) : List κ := items.filterMap pairing.answer

/-- An answer that needs its request and does not have it. -/
def Orphan (items : List ι) (item : ι) : Prop :=
  ∃ key, pairing.answer item = some key ∧ pairing.standsAlone item = false ∧
    key ∉ pairing.requests items

/-- Every request is answered and every answer that needs a request has one. -/
structure Closed (items : List ι) : Prop where
  answered : ∀ item ∈ items, ∀ key, pairing.request item = some key →
    ∃ other ∈ items, pairing.answer other = some key
  matched : ∀ item ∈ items, ∀ key, pairing.answer item = some key →
    pairing.standsAlone item = false → ∃ other ∈ items, pairing.request other = some key

theorem mem_requests : key ∈ pairing.requests items ↔
    ∃ item ∈ items, pairing.request item = some key := mem_filterMap

theorem mem_answers : key ∈ pairing.answers items ↔
    ∃ item ∈ items, pairing.answer item = some key := mem_filterMap

variable {pairing}

theorem not_orphan_of_request (h : pairing.request item = some key) :
    ¬pairing.Orphan items item := by
  rintro ⟨key', hanswer, -, -⟩
  rw [pairing.request_of_answer hanswer] at h
  cases h

theorem answer_of_request (h : pairing.request item = some key) : pairing.answer item = none := by
  rw [Option.eq_none_iff_forall_ne_some]
  intro key' hanswer
  rw [pairing.request_of_answer hanswer] at h
  cases h

/-- Items may be rewritten as long as they pair up as before. -/
theorem Closed.map {f : ι → ι} (h : pairing.Closed items)
    (hrequest : ∀ item, pairing.request (f item) = pairing.request item)
    (hanswer : ∀ item, pairing.answer (f item) = pairing.answer item)
    (halone : ∀ item, pairing.standsAlone (f item) = pairing.standsAlone item) :
    pairing.Closed (items.map f) := by
  refine ⟨fun item hitem key hkey => ?_, fun item hitem key hkey hneeds => ?_⟩
  · obtain ⟨item, hmem, rfl⟩ := mem_map.1 hitem
    rw [hrequest] at hkey
    obtain ⟨other, hother, hother'⟩ := h.answered item hmem key hkey
    exact ⟨f other, mem_map_of_mem hother, (hanswer other).trans hother'⟩
  · obtain ⟨item, hmem, rfl⟩ := mem_map.1 hitem
    rw [hanswer] at hkey
    rw [halone] at hneeds
    obtain ⟨other, hother, hother'⟩ := h.matched item hmem key hkey hneeds
    exact ⟨f other, mem_map_of_mem hother, (hrequest other).trans hother'⟩

/-! ## The two passes -/

variable [DecidableEq κ]

variable (pairing) in
/-- What is made up for an item of a log: an answer when it is a request that
nothing in the log answers. -/
def missing (log : List ι) (item : ι) : Option ι :=
  match pairing.request item with
  | some key => if key ∈ pairing.answers log then none else some (pairing.makeUp item key)
  | none => none

variable (pairing) in
/-- The items, each request without an answer in `log` followed by one. -/
def withMissing (log items : List ι) : List ι :=
  items.flatMap fun item => item :: (pairing.missing log item).toList

variable (pairing) in
/-- The item has its request in `log`, when it needs one. -/
def isKept (log : List ι) (item : ι) : Bool :=
  match pairing.answer item with
  | some key => pairing.standsAlone item || decide (key ∈ pairing.requests log)
  | none => true

variable (pairing) in
def withoutOrphans (log items : List ι) : List ι := items.filter (pairing.isKept log)

theorem isKept_of_answer (h : pairing.answer item = some key) :
    pairing.isKept log item = true ↔
      pairing.standsAlone item = true ∨ key ∈ pairing.requests log := by
  unfold isKept
  rw [h]
  simp

theorem isKept_iff : pairing.isKept log item = true ↔ ¬pairing.Orphan log item := by
  unfold isKept
  split
  · next key hkey => simp [Orphan, hkey, or_iff_not_imp_left]
  · next hnone => simp [Orphan, hnone]

theorem mem_withoutOrphans :
    item ∈ pairing.withoutOrphans log items ↔ item ∈ items ∧ ¬pairing.Orphan log item := by
  rw [withoutOrphans, mem_filter, isKept_iff]

theorem missing_eq_some {made : ι} (h : pairing.missing log item = some made) :
    ∃ key, pairing.request item = some key ∧ key ∉ pairing.answers log ∧
      made = pairing.makeUp item key := by
  unfold missing at h
  split at h
  · next key hkey =>
    split at h
    · cases h
    · next hmem => exact ⟨key, hkey, hmem, (Option.some.inj h).symm⟩
  · cases h

theorem missing_of_notMem (hkey : pairing.request item = some key)
    (hmem : key ∉ pairing.answers log) :
    pairing.missing log item = some (pairing.makeUp item key) := by
  unfold missing
  rw [hkey]
  exact if_neg hmem

theorem missing_of_mem (hkey : pairing.request item = some key) (hmem : key ∈ pairing.answers log) :
    pairing.missing log item = none := by
  unfold missing
  rw [hkey]
  exact if_pos hmem

/-- What is made up is not a request. -/
theorem request_of_missing {made : ι} (h : pairing.missing log item = some made) :
    pairing.request made = none := by
  obtain ⟨key, -, -, rfl⟩ := missing_eq_some h
  exact pairing.request_of_answer (pairing.answer_makeUp item key)

theorem mem_withMissing : item ∈ pairing.withMissing log items ↔
    item ∈ items ∨ ∃ call ∈ items, pairing.missing log call = some item := by
  unfold withMissing
  simp only [mem_flatMap, mem_cons, Option.mem_toList]
  constructor
  · rintro ⟨call, hcall, rfl | hmade⟩
    · exact .inl hcall
    · exact .inr ⟨call, hcall, hmade⟩
  · rintro (hmem | ⟨call, hcall, hmade⟩)
    · exact ⟨item, hmem, .inl rfl⟩
    · exact ⟨call, hcall, .inr hmade⟩

theorem mem_requests_withMissing :
    key ∈ pairing.requests (pairing.withMissing log items) ↔ key ∈ pairing.requests items := by
  rw [mem_requests, mem_requests]
  constructor
  · rintro ⟨item, hmem, hkey⟩
    rcases mem_withMissing.1 hmem with hmem | ⟨call, -, hmade⟩
    · exact ⟨item, hmem, hkey⟩
    · rw [request_of_missing hmade] at hkey
      cases hkey
  · rintro ⟨item, hmem, hkey⟩
    exact ⟨item, mem_withMissing.2 (.inl hmem), hkey⟩

theorem isKept_withMissing :
    pairing.isKept (pairing.withMissing log items) item = pairing.isKept items item := by
  unfold isKept
  simp only [mem_requests_withMissing]

/-- An orphan is no request, and what is made up for a request is no orphan. -/
theorem filter_isKept_missing (hmem : item ∈ items) :
    (item :: (pairing.missing log item).toList).filter (pairing.isKept items) =
      if pairing.isKept items item then item :: (pairing.missing log item).toList else [] := by
  cases hmissing : pairing.missing log item with
  | none => simp [filter_cons]
  | some made =>
    obtain ⟨key, hkey, -, rfl⟩ := missing_eq_some hmissing
    have hitem : pairing.isKept items item = true := isKept_iff.2 (not_orphan_of_request hkey)
    have hmade : pairing.isKept items (pairing.makeUp item key) = true := by
      refine isKept_iff.2 ?_
      rintro ⟨key', hanswer, -, hnot⟩
      rw [pairing.answer_makeUp] at hanswer
      cases hanswer
      exact hnot (pairing.mem_requests.2 ⟨item, hmem, hkey⟩)
    simp [hitem, hmade]

/-- One pass after the other: what is made up survives the second. -/
theorem withoutOrphans_withMissing (items : List ι) :
    pairing.withoutOrphans (pairing.withMissing items items) (pairing.withMissing items items) =
      pairing.withMissing items (pairing.withoutOrphans items items) := by
  -- Induction over a part of the log, since both passes look at the whole of it.
  suffices h : ∀ part : List ι, part ⊆ items →
      (pairing.withMissing items part).filter (pairing.isKept items) =
        pairing.withMissing items (part.filter (pairing.isKept items)) by
    unfold withoutOrphans
    rw [← h items (List.Subset.refl items)]
    exact filter_congr fun item _ => isKept_withMissing
  intro part hpart
  induction part with
  | nil => rfl
  | cons item part ih =>
    rw [cons_subset] at hpart
    have hcons : pairing.withMissing items (item :: part) =
        (item :: (pairing.missing items item).toList) ++ pairing.withMissing items part :=
      flatMap_cons
    rw [hcons, filter_append, filter_isKept_missing hpart.1, ih hpart.2, filter_cons]
    split
    · rfl
    · rfl

/-- The two passes give a closed log. -/
theorem closed_withMissing_withoutOrphans (items : List ι) :
    pairing.Closed (pairing.withMissing items (pairing.withoutOrphans items items)) := by
  have hkept : ∀ {item}, item ∈ items → ¬pairing.Orphan items item →
      item ∈ pairing.withMissing items (pairing.withoutOrphans items items) := fun hmem hnot =>
    mem_withMissing.2 (.inl (mem_withoutOrphans.2 ⟨hmem, hnot⟩))
  refine ⟨fun item hitem key hkey => ?_, fun item hitem key hkey hneeds => ?_⟩
  · rcases mem_withMissing.1 hitem with hmem | ⟨call, -, hmade⟩
    · by_cases hanswer : key ∈ pairing.answers items
      · obtain ⟨other, hother, hother'⟩ := pairing.mem_answers.1 hanswer
        refine ⟨other, hkept hother ?_, hother'⟩
        rintro ⟨key', hkey', -, hnot⟩
        rw [hother'] at hkey'
        cases hkey'
        exact hnot (pairing.mem_requests.2 ⟨item, (mem_withoutOrphans.1 hmem).1, hkey⟩)
      · exact ⟨_, mem_withMissing.2 (.inr ⟨item, hmem, missing_of_notMem hkey hanswer⟩),
          pairing.answer_makeUp item key⟩
    · rw [request_of_missing hmade] at hkey
      cases hkey
  · rcases mem_withMissing.1 hitem with hmem | ⟨call, hcall, hmade⟩
    · obtain ⟨-, hnot⟩ := mem_withoutOrphans.1 hmem
      have hrequest : key ∈ pairing.requests items := by
        by_contra hcon
        exact hnot ⟨key, hkey, hneeds, hcon⟩
      obtain ⟨other, hother, hother'⟩ := pairing.mem_requests.1 hrequest
      exact ⟨other, hkept hother (not_orphan_of_request hother'), hother'⟩
    · obtain ⟨key', hkey', -, rfl⟩ := missing_eq_some hmade
      rw [pairing.answer_makeUp] at hkey
      cases hkey
      exact ⟨call, mem_withMissing.2 (.inl hcall), hkey'⟩

/-! ## A closed log stays as it is -/

theorem Closed.withMissing_eq (h : pairing.Closed items) : pairing.withMissing items items = items := by
  have hnone : ∀ item ∈ items, pairing.missing items item = none := by
    intro item hmem
    rw [Option.eq_none_iff_forall_ne_some]
    intro made hmade
    obtain ⟨key, hkey, hnot, -⟩ := missing_eq_some hmade
    exact hnot (pairing.mem_answers.2 (h.answered item hmem key hkey))
  unfold withMissing
  rw [flatMap_congr fun item hmem => by rw [hnone item hmem]]
  exact flatMap_singleton' items

theorem Closed.withoutOrphans_eq (h : pairing.Closed items) :
    pairing.withoutOrphans items items = items := by
  refine filter_eq_self.2 fun item hmem => isKept_iff.2 ?_
  rintro ⟨key, hkey, hneeds, hnot⟩
  exact hnot (pairing.mem_requests.2 (h.matched item hmem key hkey hneeds))

/-! ## Every key once on either side -/

variable (pairing) in
/-- Every key that occurs is requested once and answered once. -/
def Exact (items : List ι) : Prop :=
  ∀ key, key ∈ pairing.requests items ∨ key ∈ pairing.answers items →
    (pairing.requests items).count key = 1 ∧ (pairing.answers items).count key = 1

theorem count_filterMap_eq (f : ι → Option κ) (items : List ι) (key : κ) :
    (items.filterMap f).count key = items.countP fun item => f item = some key := by
  rw [count_filterMap]
  exact countP_congr fun item _ => by simp

theorem exact_iff : pairing.Exact items ↔ ∀ key,
    (∃ item ∈ items, pairing.request item = some key ∨ pairing.answer item = some key) →
      items.countP (fun item => pairing.request item = some key) = 1 ∧
        items.countP (fun item => pairing.answer item = some key) = 1 := by
  refine forall_congr' fun key => ?_
  rw [requests, answers, count_filterMap_eq, count_filterMap_eq, mem_filterMap,
    mem_filterMap]
  simp only [and_or_left, exists_or]

/-- Where a key that counts once comes from. -/
theorem exists_unique_of_count {f : ι → Option κ} (h : (items.filterMap f).count key = 1) :
    ∃ before other after, items = before ++ other :: after ∧ f other = some key ∧
      ∀ item ∈ before ++ after, f item ≠ some key := by
  have hmem : key ∈ items.filterMap f := count_pos_iff.1 (by omega)
  obtain ⟨other, hother, hkey⟩ := mem_filterMap.1 hmem
  obtain ⟨before, after, rfl⟩ := append_of_mem hother
  refine ⟨before, other, after, rfl, hkey, fun item hitem hitem' => ?_⟩
  rw [filterMap_append, filterMap_cons_some hkey, count_append, count_cons_self]
    at h
  have hnone : ((before ++ after).filterMap f).count key = 0 := by
    rw [filterMap_append, count_append]
    omega
  exact count_eq_zero.1 hnone (mem_filterMap.2 ⟨item, hitem, hitem'⟩)

theorem Exact.perm (h : pairing.Exact items) (hperm : items.Perm log) : pairing.Exact log := by
  have hrequests : (pairing.requests items).Perm (pairing.requests log) := hperm.filterMap _
  have hanswers : (pairing.answers items).Perm (pairing.answers log) := hperm.filterMap _
  intro key hkey
  rw [← hrequests.count_eq, ← hanswers.count_eq]
  exact h key (hkey.imp hrequests.mem_iff.2 hanswers.mem_iff.2)

/-- The request of a pair is answered among the other items. -/
theorem Exact.exists_answer (h : pairing.Exact (item :: items))
    (hkey : pairing.request item = some key) :
    ∃ before other after, items = before ++ other :: after ∧ pairing.answer other = some key ∧
      ∀ item ∈ before ++ after, pairing.answer item ≠ some key := by
  refine exists_unique_of_count ?_
  have hmem : key ∈ pairing.requests (item :: items) :=
    pairing.mem_requests.2 ⟨item, mem_cons_self, hkey⟩
  have hcount := (h key (.inl hmem)).2
  rwa [answers, filterMap_cons_none (answer_of_request hkey)] at hcount

theorem Exact.exists_request (h : pairing.Exact (item :: items))
    (hkey : pairing.answer item = some key) :
    ∃ before other after, items = before ++ other :: after ∧ pairing.request other = some key ∧
      ∀ item ∈ before ++ after, pairing.request item ≠ some key := by
  refine exists_unique_of_count ?_
  have hmem : key ∈ pairing.answers (item :: items) :=
    pairing.mem_answers.2 ⟨item, mem_cons_self, hkey⟩
  have hcount := (h key (.inr hmem)).1
  rwa [requests, filterMap_cons_none (pairing.request_of_answer hkey)] at hcount

/-- An item that is on neither side may leave. -/
theorem Exact.of_unkeyed (h : pairing.Exact (item :: items)) (hrequest : pairing.request item = none)
    (hanswer : pairing.answer item = none) : pairing.Exact items := by
  unfold Exact requests answers at *
  rwa [filterMap_cons_none hrequest, filterMap_cons_none hanswer] at h

/-- A request and its answer may leave together. -/
theorem Exact.of_pair {other : ι} (h : pairing.Exact (item :: other :: items))
    (hrequest : pairing.request item = some key) (hanswer : pairing.answer other = some key) :
    pairing.Exact items := by
  have hrequests : pairing.requests (item :: other :: items) = key :: pairing.requests items := by
    unfold requests
    rw [filterMap_cons_some hrequest,
      filterMap_cons_none (pairing.request_of_answer hanswer)]
  have hanswers : pairing.answers (item :: other :: items) = key :: pairing.answers items := by
    unfold answers
    rw [filterMap_cons_none (answer_of_request hrequest), filterMap_cons_some hanswer]
  unfold Exact at h
  rw [hrequests, hanswers] at h
  intro key' hkey'
  by_cases heq : key' = key
  · subst heq
    obtain ⟨hone, hone'⟩ := h key' (.inl mem_cons_self)
    rw [count_cons_self] at hone hone'
    rcases hkey' with hmem | hmem
    · exact absurd hmem (count_eq_zero.1 (by omega))
    · exact absurd hmem (count_eq_zero.1 (by omega))
  · have hcount := h key' (hkey'.imp (mem_cons_of_mem _) (mem_cons_of_mem _))
    rwa [count_cons_of_ne (Ne.symm heq), count_cons_of_ne (Ne.symm heq)] at hcount

end Pairing

/-! ## Insertion from the back -/

theorem insertIdx_after {ι : Type} (past rest : List ι) (item output : ι) :
    (past ++ item :: rest).insertIdx (past.length + 1) output = past ++ item :: output :: rest := by
  induction past with
  | nil => rfl
  | cons first past ih =>
    show (first :: (past ++ item :: rest)).insertIdx (past.length + 1 + 1) output = _
    rw [insertIdx_succ_cons, ih]
    rfl

/-- Items that are inserted behind those they belong to, from the last to the
first, so that no index shifts. -/
theorem foldr_insertIdx_eq_flatMap {ι : Type} (made : ι → Option ι) (items : List ι) :
    ((items.zipIdx.filterMap fun (item, idx) => (made item).map (idx, ·)).foldr
      (fun (idx, output) items => items.insertIdx (idx + 1) output) items) =
      items.flatMap fun item => item :: (made item).toList := by
  suffices h : ∀ (past : List ι),
      (((items.zipIdx past.length).filterMap fun (item, idx) => (made item).map (idx, ·)).foldr
        (fun (idx, output) items => items.insertIdx (idx + 1) output) (past ++ items)) =
        past ++ items.flatMap fun item => item :: (made item).toList from h []
  induction items with
  | nil => exact fun past => rfl
  | cons item items ih =>
    intro past
    have hrest := ih (past ++ [item])
    rw [length_append, length_singleton, List.append_assoc, singleton_append,
      List.append_assoc, singleton_append] at hrest
    rw [zipIdx_cons, flatMap_cons]
    cases hmade : made item with
    | none =>
      rw [filterMap_cons_none (by simp [hmade]), hrest]
      rfl
    | some output =>
      rw [filterMap_cons_some (by simp [hmade]; rfl), foldr_cons, hrest]
      exact insertIdx_after past _ item output

end Codex
