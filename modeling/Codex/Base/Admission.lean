import Mathlib.Data.List.Basic
import Mathlib.Data.List.Induction
import Mathlib.Data.List.Pairwise

/-!
# First come, first served

`admitted r l` goes through `l` and keeps what does not clash with anything
kept before. With two ways to clash, `r` and `q`, an element that is refused
only for `q` leaves room for a later one that clashes with it by `r`:
`admitted_or_subset_iff` says exactly when this happens.
-/

namespace Codex

open scoped List

variable {α : Type} {r : α → α → Prop} [DecidableRel r] {l pre post : List α} {a b c : α}

def admitted (r : α → α → Prop) [DecidableRel r] (l : List α) : List α :=
  l.foldl (fun kept a => if ∃ k ∈ kept, r k a then kept else kept ++ [a]) []

@[simp] theorem admitted_nil : admitted r [] = [] := rfl

theorem admitted_concat (l : List α) (a : α) :
    admitted r (l ++ [a]) =
      if ∃ k ∈ admitted r l, r k a then admitted r l else admitted r l ++ [a] := by
  rw [admitted, List.foldl_append]
  rfl

theorem mem_admitted_concat :
    b ∈ admitted r (l ++ [a]) ↔
      b ∈ admitted r l ∨ (b = a ∧ ∀ k ∈ admitted r l, ¬ r k a) := by
  rw [admitted_concat]
  split
  · next h =>
    obtain ⟨k, hk, hka⟩ := h
    exact ⟨.inl, fun hb => hb.resolve_right fun hb => hb.2 k hk hka⟩
  · next h =>
    push Not at h
    simp only [List.mem_append, List.mem_singleton]
    exact or_congr_right ⟨fun hb => ⟨hb, h⟩, And.left⟩

theorem admitted_append_mono (l l' : List α) : admitted r l ⊆ admitted r (l ++ l') := by
  induction l' using List.reverseRecOn with
  | nil => simp
  | append_singleton l' a ih =>
    rw [← List.append_assoc]
    intro b hb
    exact mem_admitted_concat.2 (.inl (ih hb))

theorem admitted_subset (l : List α) : admitted r l ⊆ l := by
  induction l using List.reverseRecOn with
  | nil => simp
  | append_singleton l a ih =>
    intro b hb
    rcases mem_admitted_concat.1 hb with hb | ⟨rfl, -⟩
    · exact List.mem_append_left _ (ih hb)
    · simp

theorem admitted_pairwise (l : List α) : (admitted r l).Pairwise fun a b => ¬ r a b := by
  induction l using List.reverseRecOn with
  | nil => simp
  | append_singleton l a ih =>
    rw [admitted_concat]
    split
    · exact ih
    · next h =>
      push Not at h
      rw [List.pairwise_append]
      refine ⟨ih, by simp, fun k hk b hb => ?_⟩
      rw [List.mem_singleton.1 hb]
      exact h k hk

/-- What is refused clashes with something kept before it. -/
theorem exists_clash_of_notMem (ha : a ∈ l) (hn : a ∉ admitted r l) :
    ∃ c, [c, a] <+ l ∧ c ∈ admitted r l ∧ r c a := by
  induction l using List.reverseRecOn with
  | nil => simp at ha
  | append_singleton l b ih =>
    simp only [mem_admitted_concat, not_or, not_and, not_forall, not_not] at hn
    by_cases hal : a ∈ l
    · obtain ⟨c, hsub, hc, hca⟩ := ih hal hn.1
      exact ⟨c, hsub.trans (List.sublist_append_left _ _), mem_admitted_concat.2 (.inl hc), hca⟩
    · obtain rfl : a = b := by simpa [hal] using ha
      obtain ⟨k, hk, hka⟩ := hn.2 rfl
      refine ⟨k, ?_, mem_admitted_concat.2 (.inl hk), hka⟩
      have hkl : [k] <+ l := List.singleton_sublist.2 (admitted_subset l hk)
      exact hkl.append (List.Sublist.refl [a])

/-- Everything is either kept or clashes with something kept. -/
theorem mem_or_exists_clash (ha : a ∈ l) :
    a ∈ admitted r l ∨ ∃ k ∈ admitted r l, r k a := by
  by_cases h : a ∈ admitted r l
  · exact .inl h
  · obtain ⟨k, -, hk, hka⟩ := exists_clash_of_notMem ha h
    exact .inr ⟨k, hk, hka⟩

theorem notMem_admitted (htrans : ∀ a b c, r a b → r b c → r a c) (hl : l.Nodup) (hsub : [c, a] <+ l)
    (hca : r c a) : a ∉ admitted r l := by
  obtain ⟨l₁, l₂, rfl, hc, ha⟩ := List.cons_sublist_iff.1 hsub
  obtain ⟨s, t, rfl⟩ := List.append_of_mem (List.singleton_sublist.1 ha)
  have hfront : a ∉ admitted r ((l₁ ++ s) ++ [a]) := by
    rw [mem_admitted_concat]
    rintro (h | ⟨-, h⟩)
    · have := admitted_subset _ h
      rw [← List.append_assoc, List.nodup_append] at hl
      exact hl.2.2 a this a (by simp) rfl
    · rcases mem_or_exists_clash (r := r) (List.mem_append_left s hc) with hk | ⟨k, hk, hkc⟩
      · exact h c hk hca
      · exact h k hk (htrans _ _ _ hkc hca)
  have hrest : ∀ u, a ∉ u → a ∉ admitted r (((l₁ ++ s) ++ [a]) ++ u) := by
    intro u
    induction u using List.reverseRecOn with
    | nil => intro _; rwa [List.append_nil]
    | append_singleton u b ih =>
      intro hu h
      simp only [List.mem_append, List.mem_singleton, not_or] at hu
      rw [← List.append_assoc, mem_admitted_concat] at h
      rcases h with h | ⟨rfl, -⟩
      · exact ih hu.1 h
      · exact hu.2 rfl
  have ht : a ∉ t := by
    rw [← List.append_assoc, List.nodup_append] at hl
    exact (List.nodup_cons.1 hl.2.1).1
  have := hrest t ht
  simpa using this

/-! ## Two ways to clash -/

section Two

variable {q : α → α → Prop} [DecidableRel q]

/-- Two elements kept with respect to `r` that clash by `r` are the same. -/
theorem admitted_unique (hr : Equivalence r) (ha : a ∈ admitted r l) (hb : b ∈ admitted r l)
    (hab : r a b) : a = b := by
  by_contra hne
  have : Std.Symm fun a b => ¬ r a b := ⟨fun _ _ h h' => h (hr.symm h')⟩
  exact (admitted_pairwise l).forall ha hb hne hab

theorem admitted_nodup (hr : Equivalence r) (l : List α) : (admitted r l).Nodup := by
  refine (admitted_pairwise (r := r) l).imp ?_
  rintro a b h rfl
  exact h (hr.refl a)

theorem admitted_or_subset_front (hr : Equivalence r)
    (h : admitted (fun a b => r a b ∨ q a b) (pre ++ post) ⊆ admitted r (pre ++ post)) :
    admitted (fun a b => r a b ∨ q a b) pre ⊆ admitted r pre := by
  intro s hs
  have hsl := h (admitted_append_mono _ _ hs)
  rcases mem_or_exists_clash (r := r) (admitted_subset _ hs) with hk | ⟨k, hk, hks⟩
  · exact hk
  · have heq := admitted_unique hr (admitted_append_mono _ post hk) hsl hks
    exact heq ▸ hk

/-- As long as the same elements survive `r`, the second way to clash only thins them out. -/
theorem admitted_or_eq (hr : Equivalence r)
    (h : admitted (fun a b => r a b ∨ q a b) l ⊆ admitted r l) :
    admitted (fun a b => r a b ∨ q a b) l = admitted q (admitted r l) := by
  induction l using List.reverseRecOn with
  | nil => rfl
  | append_singleton l b ih =>
    have hl := admitted_or_subset_front hr h
    have heq := ih hl
    by_cases hb : ∃ k ∈ admitted r l, r k b
    · have hF : admitted r (l ++ [b]) = admitted r l := by rw [admitted_concat, if_pos hb]
      rw [hF] at h ⊢
      rw [admitted_concat, if_pos, heq]
      by_contra hfree
      push Not at hfree
      have hbT : b ∈ admitted (fun a b => r a b ∨ q a b) (l ++ [b]) :=
        mem_admitted_concat.2
          (.inr ⟨rfl, fun k hk => not_or.2 ⟨(hfree k hk).1, (hfree k hk).2⟩⟩)
      rcases mem_or_exists_clash (r := q) (h hbT) with hk | ⟨k, hk, hkb⟩
      · exact (hfree b (heq ▸ hk)).1 (hr.refl b)
      · exact (hfree k (heq ▸ hk)).2 hkb
    · have hF : admitted r (l ++ [b]) = admitted r l ++ [b] := by rw [admitted_concat, if_neg hb]
      rw [hF, admitted_concat, admitted_concat, heq]
      have hiff : (∃ k ∈ admitted q (admitted r l), r k b ∨ q k b) ↔
          ∃ k ∈ admitted q (admitted r l), q k b := by
        refine ⟨?_, fun ⟨k, hk, h⟩ => ⟨k, hk, .inr h⟩⟩
        rintro ⟨k, hk, h | h⟩
        · exact absurd ⟨k, admitted_subset _ hk, h⟩ hb
        · exact ⟨k, hk, h⟩
      simp only [hiff]

/-- **When nothing slips through.** What is kept for both reasons is kept for `r` alone if and
only if, whenever a survivor `a` of `r` clashes by `q` with an earlier one, every later element
that clashes with `a` by `r` also clashes with a survivor by `q`. -/
theorem admitted_or_subset_iff (hr : Equivalence r) (htrans : ∀ a b c, q a b → q b c → q a c) :
    admitted (fun a b => r a b ∨ q a b) l ⊆ admitted r l ↔
      ∀ pre b post, l = pre ++ b :: post → ∀ c a, [c, a] <+ admitted r pre → q c a → r a b →
        ∃ d ∈ admitted r pre, q d b := by
  constructor
  · rintro h pre b post rfl c a hsub hca hab
    by_contra hno
    push Not at hno
    have heq := admitted_or_eq hr (admitted_or_subset_front hr h)
    have haF : a ∈ admitted r pre := hsub.subset (by simp)
    have hcF : c ∈ admitted r pre := hsub.subset (by simp)
    have hfree : ∀ k ∈ admitted (fun a b => r a b ∨ q a b) pre, ¬ (r k b ∨ q k b) := by
      rintro k hk (hkb | hkb)
      · rw [heq] at hk
        obtain rfl := admitted_unique hr (admitted_subset _ hk) haF
          (hr.trans hkb (hr.symm hab))
        exact notMem_admitted htrans (admitted_nodup hr pre) hsub hca hk
      · exact hno k (admitted_or_subset_front hr h hk) hkb
    have hsplit : pre ++ b :: post = pre ++ [b] ++ post := by simp
    rw [hsplit] at h
    have hbF := h (admitted_append_mono _ _ (mem_admitted_concat.2 (.inr ⟨rfl, hfree⟩)))
    rw [List.append_assoc] at hbF
    obtain rfl := admitted_unique hr (admitted_append_mono _ _ haF) hbF hab
    exact hno c hcF hca
  · induction l using List.reverseRecOn with
    | nil => simp
    | append_singleton l b ih =>
      intro h
      have hl := ih fun pre b' post heq =>
        h pre b' (post ++ [b]) (by rw [heq, List.append_assoc, List.cons_append])
      have heq := admitted_or_eq hr hl
      intro s hs
      rcases mem_admitted_concat.1 hs with hs | ⟨rfl, hfree⟩
      · exact admitted_append_mono _ _ (hl hs)
      · rw [mem_admitted_concat]
        by_contra hno
        simp only [not_or, true_and, not_forall, not_not] at hno
        obtain ⟨-, a, haF, has⟩ := hno
        rw [heq] at hfree
        have haT : a ∉ admitted q (admitted r l) := fun ha => hfree a ha (.inl has)
        obtain ⟨c, hsub, -, hca⟩ := exists_clash_of_notMem haF haT
        obtain ⟨d, hd, hds⟩ := h l s [] (by simp) c a hsub hca has
        rcases mem_or_exists_clash (r := q) hd with hk | ⟨k, hk, hkd⟩
        · exact hfree d hk (.inr hds)
        · exact hfree k hk (.inr (htrans _ _ _ hkd hds))

end Two

end Codex
