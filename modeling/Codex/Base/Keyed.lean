import Mathlib.Data.List.Basic
import Mathlib.Data.List.Nodup

/-!
# Lists with keys

`modify` changes the first element with a key, `upsert` also appends an element
if there is none. In-place changes at different keys do not disturb each other,
and neither does the removal of other keys.
-/

namespace Codex.Keyed

open List

variable {α κ : Type} [DecidableEq κ] {key : α → κ} {k j : κ} {fresh new : α} {f g : α → α}
  {l : List α}

def modify (key : α → κ) (k : κ) (f : α → α) : List α → List α
  | [] => []
  | a :: l => if key a = k then f a :: l else a :: modify key k f l

def upsert (key : α → κ) (k : κ) (fresh : α) (f : α → α) : List α → List α
  | [] => [fresh]
  | a :: l => if key a = k then f a :: l else a :: upsert key k fresh f l

@[simp] theorem modify_nil : modify key k f [] = [] := rfl

theorem modify_cons (a : α) (l : List α) :
    modify key k f (a :: l) = if key a = k then f a :: l else a :: modify key k f l := rfl

@[simp] theorem upsert_nil : upsert key k fresh f [] = [fresh] := rfl

theorem upsert_cons (a : α) (l : List α) :
    upsert key k fresh f (a :: l) = if key a = k then f a :: l else a :: upsert key k fresh f l := rfl

/-- `f` keeps the key `k`. -/
def Keeps (key : α → κ) (k : κ) (f : α → α) : Prop := ∀ a, key a = k → key (f a) = k

theorem upsert_of_mem (h : k ∈ l.map key) : upsert key k fresh f l = modify key k f l := by
  induction l with
  | nil => simp at h
  | cons a l ih =>
    simp only [modify_cons, upsert_cons]
    split
    · rfl
    · next hne =>
      simp only [map_cons, mem_cons] at h
      rw [ih (h.resolve_left (Ne.symm hne))]

theorem upsert_of_notMem (h : k ∉ l.map key) : upsert key k fresh f l = l ++ [fresh] := by
  induction l with
  | nil => rfl
  | cons a l ih =>
    simp only [map_cons, mem_cons, not_or] at h
    rw [upsert_cons, if_neg (Ne.symm h.1), ih h.2]
    rfl

theorem keys_modify (hf : Keeps key k f) : (modify key k f l).map key = l.map key := by
  induction l with
  | nil => rfl
  | cons a l ih =>
    simp only [modify_cons]
    split
    · next h => simp [hf a h, h]
    · simp [ih]

theorem map_modify {β : Type} {g : α → β}
    (h : ∀ a ∈ l.find? fun a => key a = k, g (f a) = g a) : (modify key k f l).map g = l.map g := by
  induction l with
  | nil => rfl
  | cons a l ih =>
    rw [find?_cons] at h
    simp only [modify_cons]
    split
    · next hkey =>
      simp only [hkey, decide_true] at h
      rw [map_cons, map_cons, h a rfl]
    · next hkey =>
      simp only [hkey, decide_false] at h
      rw [map_cons, map_cons, ih h]

/-- The element that is changed, between those that are not. -/
theorem exists_modify (h : k ∈ l.map key) (f : α → α) :
    ∃ before a after, key a = k ∧ l = before ++ a :: after ∧
      modify key k f l = before ++ f a :: after := by
  induction l with
  | nil => cases h
  | cons a l ih =>
    simp only [modify_cons]
    split
    · next heq => exact ⟨[], a, l, heq, rfl, rfl⟩
    · next hne =>
      rw [map_cons, mem_cons] at h
      obtain ⟨before, b, after, hkey, hl, hmodify⟩ := ih (h.resolve_left (Ne.symm hne))
      exact ⟨a :: before, b, after, hkey, by rw [hl, cons_append],
        by rw [hmodify, cons_append]⟩

section Renamed

variable {β μ : Type} [DecidableEq μ] {key' : β → μ} {rename : α → β} {m : κ → μ} {f' : β → β}

/-- Renamed elements with renamed keys are changed in the same place. -/
theorem modify_map (hm : Function.Injective m) (hkey : ∀ a, key' (rename a) = m (key a))
    (hf : ∀ a, rename (f a) = f' (rename a)) :
    (modify key k f l).map rename = modify key' (m k) f' (l.map rename) := by
  induction l with
  | nil => rfl
  | cons a l ih =>
    simp only [modify_cons, map_cons, hkey, hm.eq_iff]
    split
    · rw [map_cons, hf]
    · rw [map_cons, ih]

theorem upsert_map (hm : Function.Injective m) (hkey : ∀ a, key' (rename a) = m (key a))
    (hf : ∀ a, rename (f a) = f' (rename a)) :
    (upsert key k fresh f l).map rename = upsert key' (m k) (rename fresh) f' (l.map rename) := by
  induction l with
  | nil => rfl
  | cons a l ih =>
    simp only [upsert_cons, map_cons, hkey, hm.eq_iff]
    split
    · rw [map_cons, hf]
    · rw [map_cons, ih]

end Renamed

theorem modify_append_of_notMem {l' : List α} (h : k ∉ l.map key) :
    modify key k f (l ++ l') = l ++ modify key k f l' := by
  induction l with
  | nil => rfl
  | cons a l ih =>
    simp only [map_cons, mem_cons, not_or] at h
    rw [cons_append, modify_cons, if_neg (Ne.symm h.1), ih h.2]
    rfl

theorem modify_append_of_mem {l' : List α} (h : k ∈ l.map key) :
    modify key k f (l ++ l') = modify key k f l ++ l' := by
  induction l with
  | nil => simp at h
  | cons a l ih =>
    simp only [cons_append, modify_cons]
    split
    · rfl
    · next hne =>
      simp only [map_cons, mem_cons] at h
      rw [ih (h.resolve_left (Ne.symm hne)), cons_append]

theorem modify_congr (h : ∀ a ∈ l.find? fun a => key a = k, f a = g a) :
    modify key k f l = modify key k g l := by
  induction l with
  | nil => rfl
  | cons a l ih =>
    by_cases hk : key a = k
    · have hfg := h a (by simp [hk])
      simp [modify_cons, hk, hfg]
    · simp only [find?_cons, hk, decide_false] at h
      simp [modify_cons, hk, ih h]

theorem find?_modify (hf : Keeps key k f) :
    (modify key k f l).find? (fun a => key a = j) =
      if j = k then (l.find? fun a => key a = k).map f else l.find? fun a => key a = j := by
  induction l with
  | nil => simp
  | cons a l ih =>
    by_cases hk : key a = k
    · have hfa := hf a hk
      by_cases hj : j = k
      · simp [modify_cons, hk, hfa, hj]
      · simp [modify_cons, hk, hfa, hj, Ne.symm hj]
    · by_cases hj : j = k
      · subst hj
        simpa [modify_cons, hk] using ih
      · by_cases ha : key a = j
        · simp [modify_cons, ha, hj]
        · simpa [modify_cons, hk, ha, hj] using ih

theorem modify_modify (hg : Keeps key k g) :
    modify key k f (modify key k g l) = modify key k (f ∘ g) l := by
  induction l with
  | nil => rfl
  | cons a l ih =>
    simp only [modify_cons]
    split
    · next h => simp [modify_cons, hg a h]
    · next h => simp [modify_cons, h, ih]

theorem modify_comm (hkj : k ≠ j) (hf : Keeps key k f) (hg : Keeps key j g) :
    modify key k f (modify key j g l) = modify key j g (modify key k f l) := by
  induction l with
  | nil => rfl
  | cons a l ih =>
    by_cases hk : key a = k
    · simp [modify_cons, hk, hkj, hf a hk]
    · by_cases hj : key a = j
      · simp [modify_cons, hj, hg a hj, Ne.symm hkj]
      · simp [modify_cons, hj, hk, ih]

/-- A later `upsert` overwrites an earlier one. -/
theorem upsert_upsert (hf : Keeps key k f) (hfresh : key fresh = k) (hnew : g fresh = new)
    (hgf : ∀ a, g (f a) = g a) :
    upsert key k new g (upsert key k fresh f l) = upsert key k new g l := by
  induction l with
  | nil => simp [upsert_cons, hfresh, hnew]
  | cons a l ih =>
    by_cases hk : key a = k
    · simp [upsert_cons, hk, hf a hk, hgf]
    · simp [upsert_cons, hk, ih]

theorem mem_keys_upsert (hf : Keeps key k f) (hfresh : key fresh = k) :
    j ∈ (upsert key k fresh f l).map key ↔ j = k ∨ j ∈ l.map key := by
  by_cases hk : k ∈ l.map key
  · rw [upsert_of_mem hk, keys_modify hf]
    refine ⟨.inr, fun h => h.elim (fun h => h ▸ hk) id⟩
  · rw [upsert_of_notMem hk, map_append, mem_append, map_singleton,
      mem_singleton, hfresh]
    exact or_comm

/-- A change in place can be made before or after another key gets its element. -/
theorem upsert_comm_modify (hkj : k ≠ j) (hj : j ∈ l.map key) (hf : Keeps key k f)
    (hg : Keeps key j g) :
    modify key j g (upsert key k fresh f l) = upsert key k fresh f (modify key j g l) := by
  by_cases hk : k ∈ l.map key
  · have hk' : k ∈ (modify key j g l).map key := by rwa [keys_modify hg]
    rw [upsert_of_mem hk, upsert_of_mem hk', modify_comm (Ne.symm hkj) hg hf]
  · have hk' : k ∉ (modify key j g l).map key := by rwa [keys_modify hg]
    rw [upsert_of_notMem hk, upsert_of_notMem hk', modify_append_of_mem hj]

theorem filter_modify (keep : κ → Bool) (hf : Keeps key k f) :
    (modify key k f l).filter (fun a => keep (key a)) =
      if keep k then modify key k f (l.filter fun a => keep (key a))
      else l.filter fun a => keep (key a) := by
  induction l with
  | nil => simp
  | cons a l ih =>
    by_cases hk : key a = k
    · have hfa := hf a hk
      cases hkeep : keep k
      · simp [modify_cons, hk, hfa, hkeep]
      · simp [modify_cons, hk, hfa, hkeep]
    · cases hkeep : keep (key a)
      · simp [modify_cons, hk, hkeep, ih]
      · cases hk' : keep k
        · simp [modify_cons, hk, hkeep, ih, hk']
        · simp [modify_cons, hk, hkeep, ih, hk']

omit [DecidableEq κ] in
theorem mem_keys_filter (key : α → κ) (keep : κ → Bool) :
    k ∈ (l.filter fun a => keep (key a)).map key ↔ k ∈ l.map key ∧ keep k = true := by
  simp only [mem_map, mem_filter]
  constructor
  · rintro ⟨a, ⟨ha, hkeep⟩, rfl⟩
    exact ⟨⟨a, ha, rfl⟩, hkeep⟩
  · rintro ⟨⟨a, ha, rfl⟩, hkeep⟩
    exact ⟨a, ⟨ha, hkeep⟩, rfl⟩

theorem filter_upsert (keep : κ → Bool) (hf : Keeps key k f) (hfresh : key fresh = k) :
    (upsert key k fresh f l).filter (fun a => keep (key a)) =
      if keep k then upsert key k fresh f (l.filter fun a => keep (key a))
      else l.filter fun a => keep (key a) := by
  by_cases hk : k ∈ l.map key
  · rw [upsert_of_mem hk, filter_modify keep hf]
    split
    · next hkeep => rw [upsert_of_mem ((mem_keys_filter key keep).2 ⟨hk, hkeep⟩)]
    · rfl
  · rw [upsert_of_notMem hk, filter_append]
    cases hkeep : keep k
    · simp [hfresh, hkeep]
    · have hk' : k ∉ (l.filter fun a => keep (key a)).map key :=
        fun h => hk ((mem_keys_filter key keep).1 h).1
      simp [hfresh, hkeep, upsert_of_notMem hk']

end Codex.Keyed
