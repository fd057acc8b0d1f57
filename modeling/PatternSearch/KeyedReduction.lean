import Mathlib.Algebra.GroupWithZero.Nat
import Mathlib.Order.Bounds.Basic
import PatternSearch.KeyRuns

/-!
Sorting pairs by key and reducing the runs of equal keys. The sort is stable, so a run lists
the values of its key in their order before the sort, and the two calls in a row compute for
every key, in ascending order, the fold of its values. A fold with min is the least value
of the run.
-/

namespace PatternSearch.KeyedReduction

open SortedLists KeyRuns

variable {κ ν : Type} [LinearOrder κ]

/-- The stable sort of key-value pairs by key. -/
def sortPairs (l : List (κ × ν)) : List (κ × ν) := l.insertionSort fun a b => a.1 ≤ b.1

/-- The fold of a run from its first value; there are no empty runs. -/
def reduceRun [Inhabited ν] (op : ν → ν → ν) : List ν → ν
  | [] => default
  | v :: vs => vs.foldl op v

/-- Every run of equal keys becomes one pair. -/
def reduceByKey [Inhabited ν] (op : ν → ν → ν) (l : List (κ × ν)) : List (κ × ν) :=
  (runsByKey l).map fun run => (run.1, reduceRun op run.2)

theorem perm_sortPairs (l : List (κ × ν)) : (sortPairs l).Perm l := List.perm_insertionSort _ l

theorem length_sortPairs (l : List (κ × ν)) : (sortPairs l).length = l.length :=
  (perm_sortPairs l).length_eq

theorem pairwise_sortPairs (l : List (κ × ν)) : (sortPairs l).Pairwise fun a b => a.1 ≤ b.1 := by
  have htrans : IsTrans (κ × ν) fun a b => a.1 ≤ b.1 := ⟨fun _ _ _ hab hbc => le_trans hab hbc⟩
  have htotal : Std.Total (α := κ × ν) fun a b => a.1 ≤ b.1 := ⟨fun a b => le_total a.1 b.1⟩
  exact List.pairwise_insertionSort _ l

/-- Pairs in key order keep their order in the sequence. -/
theorem sublist_sortPairs {l c : List (κ × ν)} (hkeys : c.Pairwise fun a b => a.1 ≤ b.1)
    (hsub : c.Sublist l) : c.Sublist (sortPairs l) := by
  have htrans : IsTrans (κ × ν) fun a b => a.1 ≤ b.1 := ⟨fun _ _ _ hab hbc => le_trans hab hbc⟩
  have htotal : Std.Total (α := κ × ν) fun a b => a.1 ≤ b.1 := ⟨fun a b => le_total a.1 b.1⟩
  exact List.sublist_insertionSort hkeys hsub

/-- The sort does not reorder the values of one key. -/
theorem valuesOf_sortPairs (l : List (κ × ν)) (k : κ) :
    valuesOf (sortPairs l) k = valuesOf l k := by
  have hperm := (perm_sortPairs l).filter fun x => x.1 = k
  have hkeys : (l.filter fun x => x.1 = k).Pairwise fun a b => a.1 ≤ b.1 := by
    rw [List.pairwise_iff_forall_sublist]
    intro a b hab
    have ha := hab.subset (List.mem_cons_self ..)
    have hb := hab.subset (List.mem_cons_of_mem _ (List.mem_cons_self ..))
    have hak : a.1 = k := by simpa using (List.mem_filter.mp ha).2
    have hbk : b.1 = k := by simpa using (List.mem_filter.mp hb).2
    exact le_of_eq (hak.trans hbk.symm)
  have hsub := (sublist_sortPairs hkeys List.filter_sublist).filter fun x => x.1 = k
  rw [List.filter_filter] at hsub
  simp only [Bool.and_self] at hsub
  rw [valuesOf, valuesOf, hsub.eq_of_length hperm.length_eq.symm]

/-- Values that ascend before the sort ascend in every run after it. -/
theorem pairwise_sortPairs_lex [LinearOrder ν] {l : List (κ × ν)}
    (hvalues : (l.map Prod.snd).Pairwise (· < ·)) :
    (sortPairs l).Pairwise fun a b => a.1 < b.1 ∨ a.1 = b.1 ∧ a.2 < b.2 := by
  rw [List.pairwise_iff_forall_sublist]
  intro a b hab
  have hle : a.1 ≤ b.1 := List.pairwise_iff_forall_sublist.mp (pairwise_sortPairs l) hab
  rcases lt_or_eq_of_le hle with hlt | heq
  · exact Or.inl hlt
  · have hrun : [a.2, b.2].Sublist (valuesOf (sortPairs l) b.1) := by
      have hfilter := (hab.filter fun x => x.1 = b.1).map Prod.snd
      simpa [heq, valuesOf] using hfilter
    have hascending : (valuesOf l b.1).Pairwise (· < ·) :=
      hvalues.sublist (List.filter_sublist.map Prod.snd)
    rw [valuesOf_sortPairs] at hrun
    exact Or.inr ⟨heq, List.pairwise_iff_forall_sublist.mp hascending hrun⟩

/-- The values ride along with their keys. -/
theorem sortPairs_map {ω : Type} (f : ν → ω) (l : List (κ × ν)) :
    sortPairs (l.map fun x => (x.1, f x.2)) = (sortPairs l).map fun x => (x.1, f x.2) :=
  (List.map_insertionSort (fun a b : κ × ν => a.1 ≤ b.1) (fun a b : κ × ω => a.1 ≤ b.1)
    (fun x => (x.1, f x.2)) l fun _ _ _ _ => Iff.rfl).symm

/-- Gathering values by the sorted positions is sorting the values themselves. -/
theorem sortPairs_positions {ε : Type} (entries : List ε) (key : ε → κ) (value : ε → ν) (k₀ : κ)
    (v₀ : ν) :
    (sortPairs ((List.range entries.length).map fun i => ((entries.map key).getD i k₀, i))).map
        (fun x => (x.1, (entries.map value).getD x.2 v₀)) =
      sortPairs (entries.map fun e => (key e, value e)) := by
  rw [← sortPairs_map fun i => (entries.map value).getD i v₀, List.map_map]
  congr 1
  apply List.ext_getElem
  · simp
  · intro i hi _
    have hlt : i < entries.length := by simpa using hi
    simp [hlt]

/-- Both calls in a row. -/
theorem reduceByKey_sortPairs [Inhabited ν] (op : ν → ν → ν) (l : List (κ × ν)) :
    reduceByKey op (sortPairs l) =
      (sortUnique (l.map Prod.fst)).map fun k => (k, reduceRun op (valuesOf l k)) := by
  have hkeys : sortUnique ((sortPairs l).map Prod.fst) = sortUnique (l.map Prod.fst) :=
    sortUnique_congr fun _ => ((perm_sortPairs l).map Prod.fst).mem_iff
  rw [reduceByKey, runsByKey_eq (pairwise_sortPairs l), hkeys, List.map_map]
  apply List.map_congr_left
  intro k _
  rw [Function.comp_apply, valuesOf_sortPairs]

theorem mem_valuesOf {l : List (κ × ν)} {k : κ} {v : ν} : v ∈ valuesOf l k ↔ (k, v) ∈ l := by
  simp only [valuesOf, List.mem_map, List.mem_filter, decide_eq_true_eq]
  constructor
  · rintro ⟨⟨a, b⟩, ⟨h, rfl⟩, rfl⟩
    exact h
  · intro h
    exact ⟨(k, v), ⟨h, rfl⟩, rfl⟩

theorem valuesOf_ne_nil {l : List (κ × ν)} {k : κ} : valuesOf l k ≠ [] ↔ k ∈ l.map Prod.fst := by
  constructor
  · intro h
    obtain ⟨v, hv⟩ := List.exists_mem_of_ne_nil _ h
    exact List.mem_map.mpr ⟨(k, v), mem_valuesOf.mp hv, rfl⟩
  · intro h
    obtain ⟨⟨k, v⟩, hkv, rfl⟩ := List.mem_map.mp h
    exact List.ne_nil_of_mem (mem_valuesOf.mpr hkv)

section Min

variable [LinearOrder ν]

theorem foldl_min_isLeast (vs : List ν) (v : ν) :
    IsLeast {w | w ∈ v :: vs} (vs.foldl min v) := by
  induction vs generalizing v with
  | nil => simp
  | cons w vs ih =>
    obtain ⟨hmem, hle⟩ := ih (min v w)
    rw [List.foldl_cons]
    constructor
    · rcases List.mem_cons.mp hmem with heq | hmem
      · rw [heq]
        rcases min_choice v w with h | h <;> simp [h]
      · exact List.mem_cons_of_mem _ (List.mem_cons_of_mem _ hmem)
    · intro u hu
      have hmin := hle (List.mem_cons_self ..)
      rcases List.mem_cons.mp hu with rfl | hu
      · exact le_trans hmin (min_le_left _ _)
      · rcases List.mem_cons.mp hu with rfl | hu
        · exact le_trans hmin (min_le_right _ _)
        · exact hle (List.mem_cons_of_mem _ hu)

variable [Inhabited ν]

theorem reduceRun_min_isLeast {vs : List ν} (h : vs ≠ []) :
    IsLeast {w | w ∈ vs} (reduceRun min vs) := by
  cases vs with
  | nil => exact absurd rfl h
  | cons v vs => exact foldl_min_isLeast vs v

theorem reduceRun_min_eq {vs : List ν} {v : ν} (h : IsLeast {w | w ∈ vs} v) :
    reduceRun min vs = v :=
  (reduceRun_min_isLeast (List.ne_nil_of_mem h.1)).unique h

/-- Reducing the parts first changes nothing. -/
theorem reduceRun_min_flatMap {ι : Type} (parts : List ι) (f : ι → List ν)
    (hne : ∀ i ∈ parts, f i ≠ []) :
    reduceRun min (parts.map fun i => reduceRun min (f i)) = reduceRun min (parts.flatMap f) := by
  cases parts with
  | nil => rfl
  | cons i parts =>
    apply reduceRun_min_eq
    have hfirst : f i ≠ [] := hne i (List.mem_cons_self ..)
    have hall : (i :: parts).flatMap f ≠ [] := by
      rw [List.flatMap_cons]
      exact List.append_ne_nil_of_left_ne_nil hfirst _
    obtain ⟨hmem, hle⟩ := reduceRun_min_isLeast hall
    obtain ⟨j, hj, hmin⟩ := List.mem_flatMap.mp hmem
    have hlow : ∀ j ∈ i :: parts, reduceRun min ((i :: parts).flatMap f) ≤ reduceRun min (f j) :=
      fun j hj => hle (List.mem_flatMap.mpr ⟨j, hj, (reduceRun_min_isLeast (hne j hj)).1⟩)
    constructor
    · refine List.mem_map.mpr ⟨j, hj, ?_⟩
      exact le_antisymm ((reduceRun_min_isLeast (hne j hj)).2 hmin) (hlow j hj)
    · intro w hw
      obtain ⟨j, hj, rfl⟩ := List.mem_map.mp hw
      exact hlow j hj

end Min

/-- A fold whose steps add modulo m, over values that add up to less. -/
theorem reduceRun_add_mod {m : ℕ} {vs : List ℕ} (h : vs.sum < m) :
    reduceRun (fun a b => (a + b) % m) vs = vs.sum := by
  have aux : ∀ (vs : List ℕ) (a : ℕ), a + vs.sum < m →
      vs.foldl (fun a b => (a + b) % m) a = a + vs.sum := by
    intro vs
    induction vs with
    | nil => simp
    | cons v vs ih =>
      intro a ha
      rw [List.sum_cons] at ha ⊢
      rw [List.foldl_cons, Nat.mod_eq_of_lt (by omega), ih (a + v) (by omega)]
      omega
  cases vs with
  | nil => rfl
  | cons v vs =>
    rw [List.sum_cons] at h ⊢
    exact aux vs v h

end PatternSearch.KeyedReduction
