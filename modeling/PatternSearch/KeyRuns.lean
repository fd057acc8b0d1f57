import Mathlib.Data.List.TakeWhile
import PatternSearch.SortedLists

/-!
Runs of equal keys in a sequence of key-value pairs, found by scanning ahead while the key
stays the same. On a sequence sorted by key there is one run for every key, in ascending
order, and it lists the key's values in their order in the sequence.
-/

namespace PatternSearch.KeyRuns

open SortedLists

variable {κ ν : Type} [LinearOrder κ]

def runsByKey : List (κ × ν) → List (κ × List ν)
  | [] => []
  | (k, v) :: rest =>
    (k, v :: (rest.takeWhile fun x => x.1 = k).map Prod.snd) ::
      runsByKey (rest.dropWhile fun x => x.1 = k)
termination_by l => l.length
decreasing_by
  have h := (List.dropWhile_suffix (l := rest) fun x => x.1 = k).length_le
  simp only [List.length_cons]
  omega

/-- The values recorded under one key. -/
def valuesOf (l : List (κ × ν)) (k : κ) : List ν :=
  (l.filter fun x => x.1 = k).map Prod.snd

theorem mem_keys_runsByKey (l : List (κ × ν)) (k : κ) :
    k ∈ (runsByKey l).map Prod.fst ↔ k ∈ l.map Prod.fst := by
  induction l using runsByKey.induct with
  | case1 => rw [runsByKey]; rfl
  | case2 k' v rest ih =>
    have hsplit := List.takeWhile_append_dropWhile (p := fun x : κ × ν => x.1 = k')
      (l := rest)
    have htake : ∀ x ∈ rest.takeWhile fun x => x.1 = k', x.1 = k' := fun x hx => by
      simpa using List.mem_takeWhile_imp hx
    rw [runsByKey, List.map_cons, List.mem_cons, ih, List.map_cons, List.mem_cons]
    constructor
    · rintro (rfl | hk)
      · exact Or.inl rfl
      · refine Or.inr ?_
        rw [← hsplit, List.map_append]
        exact List.mem_append_right _ hk
    · rintro (rfl | hk)
      · exact Or.inl rfl
      · rw [← hsplit, List.map_append, List.mem_append] at hk
        rcases hk with hk | hk
        · obtain ⟨x, hx, rfl⟩ := List.mem_map.mp hk
          exact Or.inl (htake x hx)
        · exact Or.inr hk

/-- No run is empty. -/
theorem ne_nil_of_mem_runsByKey (l : List (κ × ν)) {run : κ × List ν} (h : run ∈ runsByKey l) :
    run.2 ≠ [] := by
  induction l using runsByKey.induct with
  | case1 =>
    rw [runsByKey] at h
    cases h
  | case2 k v rest ih =>
    rw [runsByKey, List.mem_cons] at h
    rcases h with rfl | h
    · exact List.cons_ne_nil _ _
    · exact ih h

/-- Together the runs hold as many values as the sequence has pairs. -/
theorem length_flatMap_runsByKey (l : List (κ × ν)) :
    ((runsByKey l).flatMap Prod.snd).length = l.length := by
  induction l using runsByKey.induct with
  | case1 => rw [runsByKey]; rfl
  | case2 k v rest ih =>
    have hlen := congrArg List.length
      (List.takeWhile_append_dropWhile (p := fun x : κ × ν => x.1 = k) (l := rest))
    rw [List.length_append] at hlen
    rw [runsByKey, List.flatMap_cons, List.length_append, ih, List.length_cons, List.length_cons,
      List.length_map]
    omega

/-- Behind the first run of a sorted sequence every key is larger. -/
private theorem lt_of_mem_dropWhile {k : κ} {rest : List (κ × ν)}
    (h : rest.Pairwise fun x y => x.1 ≤ y.1) (hk : ∀ x ∈ rest, k ≤ x.1) :
    ∀ x ∈ rest.dropWhile (fun x => x.1 = k), k < x.1 := by
  induction rest with
  | nil => simp
  | cons y rest ih =>
    rw [List.pairwise_cons] at h
    by_cases hy : y.1 = k
    · rw [List.dropWhile_cons_of_pos (by simpa using hy)]
      exact ih h.2 fun x hx => hk x (List.mem_cons_of_mem _ hx)
    · rw [List.dropWhile_cons_of_neg (by simpa using hy)]
      have hlt : k < y.1 := lt_of_le_of_ne (hk y (List.mem_cons_self ..)) (Ne.symm hy)
      intro x hx
      rcases List.mem_cons.mp hx with rfl | hx
      · exact hlt
      · exact lt_of_lt_of_le hlt (h.1 x hx)

/-- The whole result on a sorted sequence. -/
theorem runsByKey_eq {l : List (κ × ν)} (h : l.Pairwise fun x y => x.1 ≤ y.1) :
    runsByKey l = (sortUnique (l.map Prod.fst)).map fun k => (k, valuesOf l k) := by
  induction l using runsByKey.induct with
  | case1 => rw [runsByKey]; rfl
  | case2 k v rest ih =>
    have hsplit := List.takeWhile_append_dropWhile (p := fun x : κ × ν => x.1 = k)
      (l := rest)
    have hcons := List.pairwise_cons.mp h
    have htail : (rest.dropWhile fun x => x.1 = k).Pairwise fun x y => x.1 ≤ y.1 :=
      hcons.2.sublist (List.dropWhile_sublist _)
    have htake : ∀ x ∈ rest.takeWhile fun x => x.1 = k, x.1 = k := fun x hx => by
      simpa using List.mem_takeWhile_imp hx
    have hdrop := lt_of_mem_dropWhile hcons.2 hcons.1
    have hkeys : sortUnique (((k, v) :: rest).map Prod.fst) =
        k :: sortUnique ((rest.dropWhile fun x => x.1 = k).map Prod.fst) := by
      apply eq_of_pairwise_lt_of_mem_iff (sortUnique_pairwise _)
      · refine List.pairwise_cons.mpr ⟨?_, sortUnique_pairwise _⟩
        intro a ha
        rw [mem_sortUnique] at ha
        obtain ⟨x, hx, rfl⟩ := List.mem_map.mp ha
        exact hdrop x hx
      · intro a
        have hmem := mem_keys_runsByKey ((k, v) :: rest) a
        rw [runsByKey, List.map_cons, List.mem_cons, mem_keys_runsByKey] at hmem
        rw [mem_sortUnique, List.mem_cons, mem_sortUnique]
        exact hmem.symm
    rw [runsByKey, ih htail, hkeys, List.map_cons]
    congr 1
    · have hrest : rest.filter (fun x => x.1 = k) =
          rest.takeWhile fun x => x.1 = k := by
        conv_lhs => rw [← hsplit]
        rw [List.filter_append, List.filter_eq_self.mpr fun x hx => by simpa using htake x hx,
          List.filter_eq_nil_iff.mpr fun x hx => by simpa using ne_of_gt (hdrop x hx),
          List.append_nil]
      rw [valuesOf, List.filter_cons_of_pos (by simp), hrest, List.map_cons]
    · apply List.map_congr_left
      intro a ha
      rw [mem_sortUnique] at ha
      obtain ⟨x, hx, rfl⟩ := List.mem_map.mp ha
      have hne : ¬ k = x.1 := ne_of_lt (hdrop x hx)
      have hfilter : ((k, v) :: rest).filter (fun y => y.1 = x.1) =
          (rest.dropWhile fun y => y.1 = k).filter fun y => y.1 = x.1 := by
        rw [List.filter_cons_of_neg (by simpa using hne)]
        conv_lhs => rw [← hsplit]
        rw [List.filter_append, List.filter_eq_nil_iff.mpr fun y hy => by
          simpa [htake y hy] using hne, List.nil_append]
      rw [valuesOf, valuesOf, hfilter]

section Pairs

/-- Pairs of numbers in the order of the first components, the second ones breaking ties. -/
def pairLe (a b : ℕ × ℕ) : Prop := a.1 < b.1 ∨ a.1 = b.1 ∧ a.2 ≤ b.2

instance : DecidableRel pairLe := fun a b =>
  inferInstanceAs (Decidable (a.1 < b.1 ∨ a.1 = b.1 ∧ a.2 ≤ b.2))

theorem pairwise_pairLe_insertionSort (l : List (ℕ × ℕ)) :
    (l.insertionSort pairLe).Pairwise pairLe := by
  have htrans : IsTrans (ℕ × ℕ) pairLe := ⟨fun a b c hab hbc => by
    unfold pairLe at *
    omega⟩
  have htotal : Std.Total (α := ℕ × ℕ) pairLe := ⟨fun a b => by
    unfold pairLe
    omega⟩
  exact List.pairwise_insertionSort pairLe l

/-- Sorting distinct pairs lists the values of every key in ascending order. -/
theorem pairwise_valuesOf_insertionSort {l : List (ℕ × ℕ)} (hl : l.Nodup) (k : ℕ) :
    (valuesOf (l.insertionSort pairLe) k).Pairwise (· < ·) := by
  have hnodup := (List.perm_insertionSort pairLe l).nodup_iff.mpr hl
  have hboth := (pairwise_pairLe_insertionSort l).and hnodup
  rw [valuesOf, List.pairwise_map]
  refine (hboth.filter _).imp_of_mem ?_
  intro a b ha hb hab
  have hak : a.1 = k := by simpa using (List.mem_filter.mp ha).2
  have hbk : b.1 = k := by simpa using (List.mem_filter.mp hb).2
  obtain ⟨hle, hne⟩ := hab
  have hsnd : a.2 ≠ b.2 := fun h => hne (Prod.ext (hak.trans hbk.symm) h)
  unfold pairLe at hle
  omega

theorem mem_valuesOf_insertionSort (l : List (ℕ × ℕ)) (k v : ℕ) :
    v ∈ valuesOf (l.insertionSort pairLe) k ↔ (k, v) ∈ l := by
  have hperm := List.perm_insertionSort pairLe l
  simp only [valuesOf, List.mem_map, List.mem_filter, decide_eq_true_eq]
  constructor
  · rintro ⟨⟨a, b⟩, ⟨ha, rfl⟩, rfl⟩
    exact hperm.mem_iff.mp ha
  · intro h
    exact ⟨(k, v), ⟨hperm.mem_iff.mpr h, rfl⟩, rfl⟩

end Pairs

end PatternSearch.KeyRuns
