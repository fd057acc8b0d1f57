import Mathlib.Order.Lattice.Nat
import PatternSearch.HashMapping
import PatternSearch.RegularSampling

/-!
The balance of the sample sort. A rank's sample marks positions of its hashes that lie at most
a 127th of them apart, and a target's hashes start at its splitter. So no target is sent more
than the samples between two splitters account for.
-/

namespace PatternSearch.SampleSort

open Machine Collectives SortedLists Csr HashMapping RegularSampling

section Sample

/-- The positions of a rank's hashes that its sample is taken from. -/
def sampledPositions (n : ℕ) : Finset ℕ :=
  if n ≤ kSamplesPerRank then Finset.range n
  else (Finset.range kSamplesPerRank).image fun i => i * (n - 1) / (kSamplesPerRank - 1)

theorem dense_sampledPositions {n width : ℕ} (hwidth : 0 < width)
    (hn : n - 1 ≤ (kSamplesPerRank - 1) * width) : Dense (sampledPositions n) n width := by
  intro q hq
  unfold sampledPositions
  by_cases hsmall : n ≤ kSamplesPerRank
  · rw [if_pos hsmall]
    exact ⟨q, Finset.mem_range.mpr (by omega), le_refl q, by omega⟩
  · rw [if_neg hsmall]
    unfold kSamplesPerRank at *
    -- The first sample at or behind q; the one before it lies in front of q.
    obtain ⟨i, hi⟩ : ∃ i, i = (127 * q + (n - 1) - 1) / (n - 1) := ⟨_, rfl⟩
    have hpos : 0 < n - 1 := by omega
    have hmod := Nat.div_add_mod (127 * q + (n - 1) - 1) (n - 1)
    have hlt := Nat.mod_lt (127 * q + (n - 1) - 1) hpos
    rw [← hi, Nat.mul_comm] at hmod
    have hi_lt : i < 128 := by
      rw [hi, Nat.div_lt_iff_lt_mul hpos]
      omega
    refine ⟨i * (n - 1) / 127, Finset.mem_image.mpr ⟨i, Finset.mem_range.mpr hi_lt, rfl⟩, ?_, ?_⟩
    · rw [Nat.le_div_iff_mul_le (by decide)]
      omega
    · rw [Nat.div_lt_iff_lt_mul (by decide)]
      omega

theorem getElem_mem_localSample {l : List Hash} {p : ℕ} (hp : p ∈ sampledPositions l.length)
    (hlt : p < l.length) : l[p] ∈ localSample l := by
  unfold sampledPositions at hp
  unfold localSample
  rw [List.mem_map]
  have hne : ¬ l.length = 0 := by omega
  by_cases hsmall : l.length ≤ kSamplesPerRank
  · refine ⟨p, List.mem_range.mpr (by omega), ?_⟩
    rw [if_neg hne, if_pos hsmall, Nat.min_eq_left (by omega), List.getD_eq_getElem _ _ hlt]
  · rw [if_neg hsmall] at hp
    obtain ⟨i, hi, rfl⟩ := Finset.mem_image.mp hp
    refine ⟨i, List.mem_range.mpr (Finset.mem_range.mp hi), ?_⟩
    rw [if_neg hne, if_neg hsmall, List.getD_eq_getElem _ _ hlt]

end Sample

section Splitters

variable {size : ℕ} {allSamples : List Hash}

/-- Between a target's splitter and the next one lie as many sorted samples as a rank draws;
further samples of the target are copies of its splitter. -/
theorem countP_target_le (hlen : allSamples.length = size * kSamplesPerRank) (t : ℕ) :
    allSamples.countP (fun a => targetRankForHash (pickSplitters size allSamples) a = t ∧
      a ≠ (allSamples.insertionSort (· ≤ ·)).getD (t * kSamplesPerRank) 0) ≤ kSamplesPerRank := by
  have hperm := List.perm_insertionSort (· ≤ ·) allSamples
  have hsorted := List.pairwise_iff_getElem.mp (List.pairwise_insertionSort (· ≤ ·) allSamples)
  have hsortedLen : (allSamples.insertionSort (· ≤ ·)).length = size * kSamplesPerRank :=
    hperm.length_eq.trans hlen
  rw [← hperm.countP_eq]
  apply countP_le_of_between (t * kSamplesPerRank)
  intro k hk hclass
  simp only [decide_eq_true_eq] at hclass
  obtain ⟨htarget, hne⟩ := hclass
  have hupper : upperBound (pickSplitters size allSamples)
      (allSamples.insertionSort (· ≤ ·))[k] = t := htarget
  have hsplitters := length_pickSplitters size allSamples
  have hbound := upperBound_le_length (pickSplitters size allSamples)
    (allSamples.insertionSort (· ≤ ·))[k]
  have hget : ∀ i (hi : i < (pickSplitters size allSamples).length),
      (pickSplitters size allSamples)[i] =
        (allSamples.insertionSort (· ≤ ·)).getD ((i + 1) * kSamplesPerRank) 0 := by
    intro i hi
    simp [pickSplitters]
  unfold kSamplesPerRank at *
  constructor
  · by_contra hbefore
    obtain ⟨s, rfl⟩ := Nat.exists_eq_succ_of_ne_zero (show t ≠ 0 by omega)
    have hlt : s < (pickSplitters size allSamples).length := by omega
    have hle := getElem_le_of_lt_upperBound (show s < upperBound _ _ by rw [hupper]; omega) hlt
    have hplace : (s + 1) * 128 < (allSamples.insertionSort (· ≤ ·)).length := by omega
    rw [hget s hlt, List.getD_eq_getElem _ _ hplace] at hle
    rw [List.getD_eq_getElem _ _ hplace] at hne
    exact hne (le_antisymm (hsorted k _ hk hplace (by omega)) hle)
  · by_contra hafter
    have hlt : upperBound (pickSplitters size allSamples)
        (allSamples.insertionSort (· ≤ ·))[k] < (pickSplitters size allSamples).length := by
      rw [hupper]
      omega
    have habove := lt_getElem_upperBound hlt
    have hplace : (t + 1) * 128 < (allSamples.insertionSort (· ≤ ·)).length := by omega
    rw [hget _ hlt] at habove
    simp only [hupper, List.getD_eq_getElem _ _ hplace] at habove
    rcases Nat.lt_or_ge ((t + 1) * 128) k with hlater | hnow
    · exact absurd habove (not_lt.mpr (hsorted _ k hplace hk hlater))
    · obtain rfl : k = (t + 1) * 128 := by omega
      exact absurd habove (lt_irrefl _)

end Splitters

section Balance

variable {P : ℕ}

/-- The largest number of hashes on a rank. -/
def maxLength (uniq : Fin P → List Hash) : ℕ := Finset.univ.sup fun r => (uniq r).length

/-- `max(1, ceil((max n - 1) / 127))`. -/
def spacing (uniq : Fin P → List Hash) : ℕ :=
  max 1 ((maxLength uniq - 1 + (kSamplesPerRank - 1) - 1) / (kSamplesPerRank - 1))

/-- The splitters are sorted and the same on all ranks, and no target is sent more hashes by
all ranks together than the bound of the regular sampling. -/
theorem sample_sort_balanced (hP : 2 ≤ P) (uniq : Fin P → List Hash)
    (huniq : ∀ r, (uniq r).Pairwise (· < ·)) :
    ∃ splitters : List Hash, computeSplitters uniq = .ok (fun _ => splitters) ∧
      splitters.length = P - 1 ∧ splitters.Pairwise (· ≤ ·) ∧
      ∀ t, ∑ r, ((uniq r).filter fun h => targetRankForHash splitters h = t).length ≤
        (kSamplesPerRank + 2 * P) * spacing uniq := by
  have hlen : (gather fun r => localSample (uniq r)).length = P * kSamplesPerRank := by
    rw [length_gather, displacement_last]
    simp [length_localSample]
  have hsorted := pairwise_pickSplitters P (gather fun r => localSample (uniq r))
    (le_of_eq hlen.symm)
  refine ⟨pickSplitters P (gather fun r => localSample (uniq r)), ?_, length_pickSplitters _ _,
    hsorted, fun t => ?_⟩
  · unfold computeSplitters
    rw [if_neg (by omega), allgatherv_eq_ok fun _ _ => (length_localSample _).symm, ok_bind]
    rfl
  · have hwidth : 0 < spacing uniq := Nat.lt_of_lt_of_le Nat.one_pos (le_max_left ..)
    have hdense : ∀ r, Dense (sampledPositions (uniq r).length) (uniq r).length (spacing uniq) := by
      intro r
      apply dense_sampledPositions hwidth
      have hmax : (uniq r).length ≤ maxLength uniq :=
        Finset.le_sup (f := fun r => (uniq r).length) (Finset.mem_univ r)
      have hceil := le_max_right 1
        ((maxLength uniq - 1 + (kSamplesPerRank - 1) - 1) / (kSamplesPerRank - 1))
      unfold spacing kSamplesPerRank at *
      omega
    have hrank := fun r => length_class_le (huniq r)
      (fun a b hab => upperBound_mono hsorted hab) (hdense r) hwidth
      (fun p hp hlt => getElem_mem_localSample hp hlt) t
      (((gather fun r => localSample (uniq r)).insertionSort (· ≤ ·)).getD (t * kSamplesPerRank) 0)
    have hsamples := countP_target_le hlen t
    rw [gather, List.countP_flatten, List.map_ofFn, List.sum_ofFn] at hsamples
    refine le_trans (Finset.sum_le_sum fun r _ => hrank r) ?_
    rw [← Finset.sum_mul, Finset.sum_add_distrib, Finset.sum_const, Finset.card_univ,
      Fintype.card_fin, nsmul_eq_mul, Nat.mul_comm _ 2]
    exact Nat.mul_le_mul_right _ (Nat.add_le_add_right hsamples _)

/-- A rank without hashes contributes placeholders only. -/
theorem sample_sort_balanced_empty_rank :
    ∃ splitters : List Hash, computeSplitters ![[3, 5, 9], []] = .ok (fun _ => splitters) ∧
      ∀ t, ∑ r, ((![[3, 5, 9], []] r : List Hash).filter fun h =>
        targetRankForHash splitters h = t).length ≤ 132 := by
  obtain ⟨splitters, hsplitters, -, -, hbound⟩ :=
    sample_sort_balanced (P := 2) (by decide) ![[3, 5, 9], []] (by decide)
  exact ⟨splitters, hsplitters, hbound⟩

end Balance

end PatternSearch.SampleSort
