import PatternSearch.Csr
import PatternSearch.KeyRuns

/-!
The transpose of a patch CSR: for every element that occurs, the patches containing it.
It is looked up in two places, by std::lower_bound on the host and by a hand-written binary
search in the score kernels. Over ascending rows both return the same ascending list.
-/

namespace PatternSearch.Transpose

open Csr KeyRuns SortedLists

structure InvertedIndex where
  keys : List ElementId
  offsets : List ℕ
  data : List PatchId
  deriving DecidableEq, Repr

def patchesOf (inv : InvertedIndex) (e : ElementId) : List PatchId :=
  let k := lowerBound inv.keys e
  if inv.keys[k]? = some e then
    let b := inv.offsets.getD k 0
    let n := inv.offsets.getD (k + 1) 0 - b
    (inv.data.drop b).take n
  else []

def incidences (patches : PatchCsr) : List (ElementId × PatchId) :=
  (List.range patches.M).flatMap fun p => (patches.patch p).map fun e => (e, p)

/-- The universe size that the source also passes only enters an assertion. -/
def buildInvertedIndex (patches : PatchCsr) : InvertedIndex :=
  if patches.data.length = 0 then { keys := [], offsets := [0], data := [] }
  else
    let runs := runsByKey ((incidences patches).insertionSort pairLe)
    { keys := runs.map Prod.fst
      offsets := (runs.map fun run => run.2.length).scanl (· + ·) 0
      data := runs.flatMap Prod.snd }

/-- The kernels' lower_bound over the sorted keys. -/
def search (keys : List ElementId) (id : ElementId) (lo hi : ℕ) : ℕ :=
  if lo < hi then
    let mid := lo + (hi - lo) / 2
    if keys.getD mid 0 < id then search keys id (mid + 1) hi else search keys id lo mid
  else lo
termination_by hi - lo

/-- `s_start` and `s_end`: the range of the element's patches, empty when it is absent. -/
def resolveRange (inv : InvertedIndex) (id : ElementId) : ℕ × ℕ :=
  let lo := search inv.keys id 0 inv.keys.length
  if lo < inv.keys.length ∧ inv.keys.getD lo 0 = id then
    (inv.offsets.getD lo 0, inv.offsets.getD (lo + 1) 0)
  else (0, 0)

/-- The patches a block of the score kernels visits for one element. -/
def affectedPatches (inv : InvertedIndex) (id : ElementId) : List PatchId :=
  let range := resolveRange inv id
  (inv.data.drop range.1).take (range.2 - range.1)

theorem search_eq_lowerBound {keys : List ElementId} (hkeys : keys.Pairwise (· < ·))
    (id : ElementId) (lo hi : ℕ) (hle : lo ≤ hi) (hlen : hi ≤ keys.length)
    (hbefore : ∀ (i : ℕ) (hi : i < keys.length), i < lo → keys[i] < id)
    (hafter : ∀ (i : ℕ) (hlt : i < keys.length), hi ≤ i → id ≤ keys[i]) :
    search keys id lo hi = lowerBound keys id := by
  have hsorted := List.pairwise_iff_getElem.mp hkeys
  induction lo, hi using search.induct keys id with
  | case1 lo hi hlt mid hmid ih =>
    have hmidlen : mid < keys.length := by omega
    rw [List.getD_eq_getElem _ _ hmidlen] at hmid
    rw [search, if_pos hlt]
    simp only [List.getD_eq_getElem _ _ hmidlen, mid] at hmid ⊢
    rw [if_pos hmid]
    refine ih (by omega) hlen (fun i hi him => ?_) hafter
    rcases Nat.lt_or_eq_of_le (Nat.le_of_lt_succ him) with hlt | rfl
    · exact lt_trans (hsorted i _ hi hmidlen hlt) hmid
    · exact hmid
  | case2 lo hi hlt mid hmid ih =>
    have hmidlen : mid < keys.length := by omega
    rw [List.getD_eq_getElem _ _ hmidlen] at hmid
    rw [search, if_pos hlt]
    simp only [List.getD_eq_getElem _ _ hmidlen, mid] at hmid ⊢
    rw [if_neg hmid]
    refine ih (by omega) (by omega) hbefore (fun i hi hmi => ?_)
    rcases Nat.lt_or_eq_of_le hmi with hlt | rfl
    · exact le_trans (not_lt.mp hmid) (le_of_lt (hsorted _ i hmidlen hi hlt))
    · exact not_lt.mp hmid
  | case3 lo hi hge =>
    obtain rfl : lo = hi := by omega
    rw [search, if_neg hge]
    exact (lowerBound_unique hlen hbefore fun hk => hafter lo hk (le_refl lo)).symm

/-- Both lookups agree on any index with ascending keys. -/
theorem affectedPatches_eq_patchesOf {inv : InvertedIndex} (hkeys : inv.keys.Pairwise (· < ·))
    (id : ElementId) : affectedPatches inv id = patchesOf inv id := by
  have hsearch : search inv.keys id 0 inv.keys.length = lowerBound inv.keys id :=
    search_eq_lowerBound hkeys id 0 _ (Nat.zero_le _) le_rfl (fun i _ h => by omega)
      (fun i h hge => by omega)
  have hiff : (lowerBound inv.keys id < inv.keys.length ∧
      inv.keys.getD (lowerBound inv.keys id) 0 = id) ↔
      inv.keys[lowerBound inv.keys id]? = some id := by
    rw [List.getElem?_eq_some_iff]
    constructor
    · rintro ⟨hlt, heq⟩
      exact ⟨hlt, by rwa [List.getD_eq_getElem _ _ hlt] at heq⟩
    · rintro ⟨hlt, heq⟩
      exact ⟨hlt, by rwa [List.getD_eq_getElem _ _ hlt]⟩
  unfold affectedPatches patchesOf resolveRange
  simp only [hsearch, hiff]
  by_cases h : inv.keys[lowerBound inv.keys id]? = some id
  · simp only [if_pos h]
  · simp [if_neg h]

/-- The patches that contain an element, ascending. -/
def owners (patches : PatchCsr) (e : ElementId) : List PatchId :=
  (List.range patches.M).filter fun p => e ∈ patches.patch p

variable {patches : PatchCsr}

theorem mem_incidences {e : ElementId} {p : PatchId} :
    (e, p) ∈ incidences patches ↔ p < patches.M ∧ e ∈ patches.patch p := by
  simp only [incidences, List.mem_flatMap, List.mem_range, List.mem_map, Prod.mk.injEq]
  constructor
  · rintro ⟨q, hq, a, ha, rfl, rfl⟩
    exact ⟨hq, ha⟩
  · rintro ⟨hp, he⟩
    exact ⟨p, hp, e, he, rfl, rfl⟩

theorem incidences_nodup (hrows : ∀ p, (patches.patch p).Nodup) : (incidences patches).Nodup := by
  refine List.nodup_flatMap.mpr ⟨fun p _ => ?_, ?_⟩
  · exact (hrows p).map fun a b h => (Prod.mk.inj h).1
  · refine List.nodup_range.imp fun hne => ?_
    intro x hx hy
    obtain ⟨a, _, rfl⟩ := List.mem_map.mp hx
    obtain ⟨b, _, hb⟩ := List.mem_map.mp hy
    exact hne (Prod.mk.inj hb).2.symm

/-- Grouping the sorted pairs by element lists every element's patches once, ascending. -/
theorem valuesOf_sorted_incidences (hrows : ∀ p, (patches.patch p).Nodup) (e : ElementId) :
    valuesOf ((incidences patches).insertionSort pairLe) e = owners patches e := by
  apply eq_of_pairwise_lt_of_mem_iff
  · exact pairwise_valuesOf_insertionSort (incidences_nodup hrows) e
  · exact List.pairwise_lt_range.filter _
  · intro p
    rw [mem_valuesOf_insertionSort, mem_incidences]
    simp [owners]

/-- The whole index: one entry for every element that occurs. -/
theorem buildInvertedIndex_eq (hrows : ∀ p, (patches.patch p).Nodup) :
    buildInvertedIndex patches =
      let keys := sortUnique ((incidences patches).map Prod.fst)
      let groups := buildPatchCsr (keys.map (owners patches))
      { keys, offsets := groups.offsets, data := groups.data } := by
  have hle : ((incidences patches).insertionSort pairLe).Pairwise fun a b => a.1 ≤ b.1 :=
    (pairwise_pairLe_insertionSort _).imp fun h => by
      unfold pairLe at h
      omega
  have hkeys : sortUnique (((incidences patches).insertionSort pairLe).map Prod.fst) =
      sortUnique ((incidences patches).map Prod.fst) :=
    sortUnique_congr fun a =>
      ((List.perm_insertionSort pairLe (incidences patches)).map Prod.fst).mem_iff
  have hruns : runsByKey ((incidences patches).insertionSort pairLe) =
      (sortUnique ((incidences patches).map Prod.fst)).map fun k => (k, owners patches k) := by
    rw [runsByKey_eq hle, hkeys]
    exact List.map_congr_left fun k _ => by rw [valuesOf_sorted_incidences hrows]
  unfold buildInvertedIndex
  split_ifs with hempty
  · have hnil : incidences patches = [] := by
      have hpatch : ∀ p, patches.patch p = [] := fun p => by
        rw [PatchCsr.patch, List.length_eq_zero_iff.mp hempty]
        simp
      simp [incidences, hpatch]
    rw [hnil]
    rfl
  · simp only [hruns, data_buildPatchCsr, List.map_map, List.flatMap_map]
    simp only [buildPatchCsr, List.map_map, Function.comp_def, List.map_id', List.flatMap_def]

variable (hrows : ∀ p, (patches.patch p).Nodup)
include hrows

theorem keys_buildInvertedIndex :
    (buildInvertedIndex patches).keys = sortUnique ((incidences patches).map Prod.fst) := by
  rw [buildInvertedIndex_eq hrows]

theorem mem_keys_buildInvertedIndex (e : ElementId) :
    e ∈ (buildInvertedIndex patches).keys ↔ ∃ p < patches.M, e ∈ patches.patch p := by
  rw [keys_buildInvertedIndex hrows, mem_sortUnique, List.mem_map]
  constructor
  · rintro ⟨⟨a, p⟩, h, rfl⟩
    exact ⟨p, mem_incidences.mp h⟩
  · rintro ⟨p, h⟩
    exact ⟨(e, p), mem_incidences.mpr h, rfl⟩

theorem patchesOf_buildInvertedIndex (e : ElementId) :
    patchesOf (buildInvertedIndex patches) e = owners patches e := by
  have hmem := mem_keys_buildInvertedIndex hrows e
  rw [buildInvertedIndex_eq hrows] at hmem ⊢
  set keys := sortUnique ((incidences patches).map Prod.fst) with hkeysdef
  have hkeys : keys.Pairwise (· < ·) := sortUnique_pairwise _
  unfold patchesOf
  by_cases he : e ∈ keys
  · have hget := getElem?_lowerBound hkeys he
    have hlt := lowerBound_lt_length hkeys he
    have hrow := patch_buildPatchCsr (keys.map (owners patches)) (lowerBound keys e)
      (by simpa using hlt)
    rw [List.getElem_map, (List.getElem?_eq_some_iff.mp hget).2] at hrow
    simp only [if_pos hget]
    exact hrow
  · have hnone : ¬ keys[lowerBound keys e]? = some e := fun h => he (List.mem_of_getElem? h)
    have howners : owners patches e = [] := by
      apply List.filter_eq_nil_iff.mpr
      intro p hp
      have hnot : e ∉ patches.patch p := fun hep =>
        he (hmem.mpr ⟨p, List.mem_range.mp hp, hep⟩)
      simpa using hnot
    simp only [if_neg hnone]
    exact howners.symm

/-- The block of the score kernels that handles an element visits exactly its patches. -/
theorem affectedPatches_buildInvertedIndex (e : ElementId) :
    affectedPatches (buildInvertedIndex patches) e = owners patches e := by
  have hkeys : (buildInvertedIndex patches).keys.Pairwise (· < ·) := by
    rw [keys_buildInvertedIndex hrows]
    exact sortUnique_pairwise _
  rw [affectedPatches_eq_patchesOf hkeys, patchesOf_buildInvertedIndex hrows]

end PatternSearch.Transpose
