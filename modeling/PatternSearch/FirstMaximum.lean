import Mathlib.Data.List.MinMax
import Mathlib.Order.Basic

/-!
The first maximum of a list under a scoring function. An ascending scan with a strict
comparison, an argmax returning the smallest index, and a maximum over blocks followed by
a maximum inside the winning block all find it; the last is `IsFirstMax.flatMap`.
-/

namespace PatternSearch.FirstMaximum

variable {ι κ : Type*} [LinearOrder κ]

/-- `m` stands in the list, above everything before it and not below anything after it. -/
def IsFirstMax (f : ι → κ) (l : List ι) (m : ι) : Prop :=
  ∃ l₁ l₂, l = l₁ ++ m :: l₂ ∧ (∀ a ∈ l₁, f a < f m) ∧ ∀ a ∈ l₂, f a ≤ f m

namespace IsFirstMax

variable {f : ι → κ} {l : List ι} {m m' : ι}

theorem mem (h : IsFirstMax f l m) : m ∈ l := by
  obtain ⟨l₁, l₂, rfl, _, _⟩ := h
  simp

theorem le (h : IsFirstMax f l m) {a : ι} (ha : a ∈ l) : f a ≤ f m := by
  obtain ⟨l₁, l₂, rfl, hbefore, hafter⟩ := h
  rcases List.mem_append.mp ha with ha | ha
  · exact le_of_lt (hbefore a ha)
  · rcases List.mem_cons.mp ha with rfl | ha
    · exact le_rfl
    · exact hafter a ha

theorem singleton (a : ι) : IsFirstMax f [a] a :=
  ⟨[], [], rfl, by simp, by simp⟩

/-- An entry in front of the list takes over unless the old maximum is strictly larger. -/
theorem cons_of_lt {a : ι} (h : IsFirstMax f l m) (ha : f a < f m) :
    IsFirstMax f (a :: l) m := by
  obtain ⟨l₁, l₂, rfl, hbefore, hafter⟩ := h
  refine ⟨a :: l₁, l₂, rfl, ?_, hafter⟩
  intro b hb
  rcases List.mem_cons.mp hb with rfl | hb
  · exact ha
  · exact hbefore b hb

theorem cons_of_le {a : ι} (h : IsFirstMax f l m) (ha : f m ≤ f a) :
    IsFirstMax f (a :: l) a :=
  ⟨[], l, rfl, by simp, fun _ hb => le_trans (h.le hb) ha⟩

/-- An entry behind the list takes over only when it is strictly larger. -/
theorem concat_of_lt {a : ι} (h : IsFirstMax f l m) (ha : f m < f a) :
    IsFirstMax f (l ++ [a]) a :=
  ⟨l, [], rfl, fun _ hb => lt_of_le_of_lt (h.le hb) ha, by simp⟩

theorem append_of_le {l' : List ι} (h : IsFirstMax f l m) (h' : ∀ a ∈ l', f a ≤ f m) :
    IsFirstMax f (l ++ l') m := by
  obtain ⟨l₁, l₂, rfl, hbefore, hafter⟩ := h
  refine ⟨l₁, l₂ ++ l', by simp, hbefore, ?_⟩
  intro a ha
  rcases List.mem_append.mp ha with ha | ha
  · exact hafter a ha
  · exact h' a ha

theorem append_of_lt {l' : List ι} (h : IsFirstMax f l m) (h' : ∀ a ∈ l', f a < f m) :
    IsFirstMax f (l' ++ l) m := by
  obtain ⟨l₁, l₂, rfl, hbefore, hafter⟩ := h
  refine ⟨l' ++ l₁, l₂, by simp, ?_, hafter⟩
  intro a ha
  rcases List.mem_append.mp ha with ha | ha
  · exact h' a ha
  · exact hbefore a ha

theorem unique (h : IsFirstMax f l m) (h' : IsFirstMax f l m') : m = m' := by
  have heq : f m = f m' := le_antisymm (h'.le h.mem) (h.le h'.mem)
  obtain ⟨l₁, l₂, rfl, hbefore, _⟩ := h
  obtain ⟨k₁, k₂, hk, hbefore', _⟩ := h'
  -- The shorter of the two prefixes cannot contain the other maximum.
  rcases List.append_eq_append_iff.mp hk with ⟨t, rfl, ht⟩ | ⟨t, rfl, ht⟩
  · cases t with
    | nil => exact (List.cons.inj ht).1
    | cons b t =>
      obtain ⟨rfl, _⟩ := List.cons.inj ht
      exact absurd (hbefore' m (by simp)) (by rw [heq]; exact lt_irrefl _)
  · cases t with
    | nil => exact (List.cons.inj ht).1.symm
    | cons b t =>
      obtain ⟨rfl, _⟩ := List.cons.inj ht
      exact absurd (hbefore m' (by simp)) (by rw [heq]; exact lt_irrefl _)

/-- The maximum stays the first one when other entries are left out. -/
theorem of_sublist {l' : List ι} (h : IsFirstMax f l m) (hsub : l'.Sublist l) (hl : l.Nodup)
    (hm : m ∈ l') : IsFirstMax f l' m := by
  obtain ⟨l₁, l₂, rfl, hbefore, hafter⟩ := h
  obtain ⟨k₁, k₂, rfl, hk₁, hk₂⟩ := List.sublist_append_iff.mp hsub
  have hnotin : m ∉ k₁ := fun hmem => lt_irrefl _ (hbefore m (hk₁.subset hmem))
  have hmem : m ∈ k₂ := (List.mem_append.mp hm).resolve_left hnotin
  have hfresh : m ∉ l₂ := (List.nodup_cons.mp (List.nodup_append.mp hl).2.1).1
  cases hk₂ with
  | cons _ hrest => exact absurd (hrest.subset hmem) hfresh
  | cons_cons _ hrest =>
    exact ⟨k₁, _, rfl, fun a ha => hbefore a (hk₁.subset ha),
      fun a ha => hafter a (hrest.subset ha)⟩

/-- An entry that stands before the maximum is strictly below it. -/
theorem lt_of_before {a : ι} (h : IsFirstMax f l m) (hl : l.Nodup) (ha : [a, m].Sublist l) :
    f a < f m := by
  obtain ⟨l₁, l₂, rfl, hbefore, -⟩ := h
  have hfresh : m ∉ l₂ := (List.nodup_cons.mp (List.nodup_append.mp hl).2.1).1
  obtain ⟨k₁, k₂, hk, hk₁, hk₂⟩ := List.sublist_append_iff.mp ha
  cases k₁ with
  | nil =>
    rw [List.nil_append] at hk
    subst hk
    cases hk₂ with
    | cons _ hrest => exact absurd (hrest.subset (by simp)) hfresh
    | cons_cons _ hrest => exact absurd (hrest.subset (by simp)) hfresh
  | cons b k₁ =>
    rw [List.cons_append] at hk
    obtain ⟨rfl, -⟩ := List.cons.inj hk
    exact hbefore _ (hk₁.subset (List.mem_cons_self ..))

/-- Another scoring that compares every entry with the maximum in the same way
has the same first maximum. -/
theorem transfer {κ' : Type*} [LinearOrder κ'] {g : ι → κ'} (h : IsFirstMax f l m)
    (hlt : ∀ a ∈ l, f a < f m → g a < g m) (hle : ∀ a ∈ l, f a ≤ f m → g a ≤ g m) :
    IsFirstMax g l m := by
  obtain ⟨l₁, l₂, rfl, hbefore, hafter⟩ := h
  refine ⟨l₁, l₂, rfl, fun a ha => ?_, fun a ha => ?_⟩
  · exact hlt a (by simp [ha]) (hbefore a ha)
  · exact hle a (by simp [ha]) (hafter a ha)

theorem congr {g : ι → κ} (h : IsFirstMax f l m) (hfg : ∀ a ∈ l, f a = g a) :
    IsFirstMax g l m := by
  have hm := hfg m h.mem
  apply h.transfer
  · intro a ha hlt
    rwa [hfg a ha, hm] at hlt
  · intro a ha hle
    rwa [hfg a ha, hm] at hle

theorem map {ι' : Type*} {g : ι' → κ} {e : ι → ι'} (h : IsFirstMax (fun a => g (e a)) l m) :
    IsFirstMax g (l.map e) (e m) := by
  obtain ⟨l₁, l₂, rfl, hbefore, hafter⟩ := h
  refine ⟨l₁.map e, l₂.map e, by simp, ?_, ?_⟩
  · simpa using hbefore
  · simpa using hafter

/-- The two-level search: the first maximum inside the first block whose best score is
largest is the first maximum of the concatenated blocks. -/
theorem flatMap {ρ : Type*} {best : ρ → κ} {blocks : List ρ} {block : ρ → List ι} {r : ρ}
    (hr : IsFirstMax best blocks r) (hm : IsFirstMax f (block r) m) (hbest : best r = f m)
    (hbound : ∀ s ∈ blocks, ∀ a ∈ block s, f a ≤ best s) :
    IsFirstMax f (blocks.flatMap block) m := by
  obtain ⟨b₁, b₂, rfl, hbefore, hafter⟩ := hr
  rw [List.flatMap_append, List.flatMap_cons]
  apply append_of_lt
  · apply hm.append_of_le
    intro a ha
    obtain ⟨s, hs, has⟩ := List.mem_flatMap.mp ha
    rw [← hbest]
    exact le_trans (hbound s (by simp [hs]) a has) (hafter s hs)
  · intro a ha
    obtain ⟨s, hs, has⟩ := List.mem_flatMap.mp ha
    rw [← hbest]
    exact lt_of_le_of_lt (hbound s (by simp [hs]) a has) (hbefore s hs)

end IsFirstMax

/-- The executable search. -/
def firstMax (f : ι → κ) (l : List ι) : Option ι := l.argmax f

theorem isFirstMax_firstMax (f : ι → κ) (l : List ι) (m : ι) (h : firstMax f l = some m) :
    IsFirstMax f l m := by
  unfold firstMax at h
  induction l generalizing m with
  | nil => cases h
  | cons a l ih =>
    rw [List.argmax_cons] at h
    cases hl : l.argmax f with
    | none =>
      rw [hl] at h
      obtain rfl := Option.some.inj h
      rw [List.argmax_eq_none.mp hl]
      exact IsFirstMax.singleton a
    | some c =>
      rw [hl] at h
      have hc := ih c hl
      by_cases hac : f a < f c
      · simp only [hac, if_true, Option.some.injEq] at h
        subst m
        exact hc.cons_of_lt hac
      · simp only [hac, if_false, Option.some.injEq] at h
        subst m
        exact hc.cons_of_le (not_lt.mp hac)

theorem firstMax_eq_none_iff {f : ι → κ} {l : List ι} : firstMax f l = none ↔ l = [] :=
  List.argmax_eq_none

theorem firstMax_eq_some_iff (f : ι → κ) (l : List ι) (m : ι) :
    firstMax f l = some m ↔ IsFirstMax f l m := by
  constructor
  · exact isFirstMax_firstMax f l m
  · intro h
    cases hl : firstMax f l with
    | none =>
      have hmem := h.mem
      rw [firstMax_eq_none_iff.mp hl] at hmem
      cases hmem
    | some c => rw [h.unique (isFirstMax_firstMax f l c hl)]

theorem exists_isFirstMax (f : ι → κ) {l : List ι} (hl : l ≠ []) : ∃ m, IsFirstMax f l m := by
  cases h : firstMax f l with
  | none => exact absurd (firstMax_eq_none_iff.mp h) hl
  | some m => exact ⟨m, isFirstMax_firstMax f l m h⟩

end PatternSearch.FirstMaximum
