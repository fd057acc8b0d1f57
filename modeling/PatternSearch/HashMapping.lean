import Mathlib.Algebra.Order.BigOperators.Group.Finset
import Mathlib.Data.List.GetD
import PatternSearch.Bucketing
import PatternSearch.Csr

/-!
The distributed hash to id mapping, steps 1 to 11 of map_hashes_to_element_ids. Hashes fly
to the rank that owns their bucket, every owner numbers its bucket after the buckets below,
and the numbers fly back along the same route. The splitters decide who owns what, and
nothing else: whatever values come out, the ids are the positions in the sorted list of all
hashes.
-/

namespace PatternSearch.HashMapping

open Machine Collectives Bucketing SortedLists Csr

structure IdMappedPatches where
  idPatches : List (List ElementId)
  N : ℕ
  shardHashes : List Hash
  shardStart : ℕ
  deriving DecidableEq, Repr

def kSamplesPerRank : ℕ := 128

/-- Evenly spaced entries of a rank's hashes, padded to a fixed count. -/
def localSample (localUniq : List Hash) : List Hash :=
  let n := localUniq.length
  (List.range kSamplesPerRank).map fun i =>
    if n = 0 then 0
    else if n ≤ kSamplesPerRank then localUniq.getD (min i (n - 1)) 0
    else localUniq.getD (i * (n - 1) / (kSamplesPerRank - 1)) 0

/-- Splitters at the positions 128, 2 * 128, ... of the sorted samples. -/
def pickSplitters (size : ℕ) (allSamples : List Hash) : List Hash :=
  let sorted := allSamples.insertionSort (· ≤ ·)
  (List.range (size - 1)).map fun i => sorted.getD ((i + 1) * kSamplesPerRank) 0

variable {P : ℕ}

def computeSplitters (uniq : Fin P → List Hash) : Except Fault (Fin P → List Hash) :=
  if P ≤ 1 then .ok fun _ => []
  else do
    let allSamples ← allgatherv (fun r => localSample (uniq r)) fun _ _ => kSamplesPerRank
    return fun r => pickSplitters P (allSamples r)

/-- Step 1: flatten and dedupe. -/
def localUniq (patches : List (List Hash)) : List Hash := sortUnique patches.flatten

def targetRankForHash (splitters : List Hash) (h : Hash) : ℕ := upperBound splitters h

/-- `emplace` keeps the entry that is already there. -/
def emplace (map : List (Hash × ElementId)) (entry : Hash × ElementId) :
    List (Hash × ElementId) :=
  if (map.lookup entry.1).isSome then map else entry :: map

/-- `hash_to_id.at(h)`. -/
def idOf (map : List (Hash × ElementId)) (h : Hash) : Except Fault ElementId :=
  match map.lookup h with
  | some id => .ok id
  | none => .error (.throws .outOfRange)

/-- What steps 2 to 4 leave on one rank. -/
structure HashExchange (P : ℕ) where
  sent : Plan Hash P
  recvcounts : Fin P → ℕ
  totalRecv : ℕ
  recvbuf : List Hash

/-- Steps 1 to 4: every distinct hash flies to its owner rank. -/
def exchangeHashes (rawPatches : Fin P → List (List Hash)) :
    Except Fault (Fin P → HashExchange P) := do
  let splitters ← computeSplitters fun r => localUniq (rawPatches r)
  let sent ← onRanks fun r => plan (targetRankForHash (splitters r)) (localUniq (rawPatches r))
  let allSendcounts := allgather fun r => (sent r).counts
  let recvcounts : Fin P → Fin P → ℕ := fun r s => allSendcounts r s r
  let totalRecv ← onRanks fun r => totalInt (List.ofFn (recvcounts r))
  let recvbuf ← alltoallv (fun r => (sent r).buffer) (fun r => (sent r).counts) recvcounts totalRecv
  return fun r =>
    { sent := sent r, recvcounts := recvcounts r, totalRecv := totalRecv r, recvbuf := recvbuf r }

/-- Steps 10 and 11: translate the patches of one rank. -/
def translate (sendbuf : List Hash) (idBack : List ElementId) (rawPatches : List (List Hash)) :
    Except Fault (List (List ElementId)) :=
  let hashToId := (sendbuf.zip idBack).foldl emplace []
  rawPatches.mapM fun src => do
    let dst ← src.mapM (idOf hashToId)
    return sortUnique dst

/-- Steps 5 to 11: the owners number their buckets and the ids fly back. -/
def assignIds (rawPatches : Fin P → List (List Hash)) (ex : Fin P → HashExchange P) :
    Except Fault (Fin P → IdMappedPatches) := do
  let bucket := fun r => sortUnique (ex r).recvbuf
  let globalIdStart := exscan fun r => (bucket r).length
  let nTotal ← bcastValue (fun _ : Fin P => P - 1) fun r =>
    if (r : ℕ) = P - 1 then globalIdStart r + (bucket r).length else 0
  let idResponse := fun r =>
    (ex r).recvbuf.map fun h => globalIdStart r + lowerBound (bucket r) h
  let idBack ← alltoallv idResponse (fun r => (ex r).recvcounts) (fun r => (ex r).sent.counts)
    fun r => (ex r).sent.buffer.length
  onRanks fun r => do
    let idPatches ← translate (ex r).sent.buffer (idBack r) (rawPatches r)
    return { idPatches, N := nTotal r, shardHashes := bucket r, shardStart := globalIdStart r }

def mapHashesToElementIds (rawPatches : Fin P → List (List Hash)) :
    Except Fault (Fin P → IdMappedPatches) := do
  let ex ← exchangeHashes rawPatches
  assignIds rawPatches ex

section Routing

variable (rawPatches : Fin P → List (List Hash))

/-- The distinct hashes over all ranks, ascending. -/
def globalUniq : List Hash := sortUnique (gather rawPatches).flatten

def splitters : List Hash :=
  pickSplitters P (gather fun r => localSample (localUniq (rawPatches r)))

def owner (h : Hash) : ℕ := targetRankForHash (splitters rawPatches) h

/-- The hashes rank s sends to rank r. -/
def routed (s r : Fin P) : List Hash := bucket (owner rawPatches) (localUniq (rawPatches s)) r

/-- The hashes rank r numbers. -/
def shard (r : Fin P) : List Hash := bucket (owner rawPatches) (globalUniq rawPatches) r

/-- Every rank's distinct hashes and every rank's arrivals can be counted in int. -/
structure CountsFit : Prop where
  sent : ∀ r, (localUniq (rawPatches r)).length ≤ intMax
  received : ∀ r, ∑ s, (routed rawPatches s r).length ≤ intMax

variable {rawPatches}

theorem length_pickSplitters (size : ℕ) (allSamples : List Hash) :
    (pickSplitters size allSamples).length = size - 1 := by
  simp [pickSplitters]

theorem pairwise_pickSplitters (size : ℕ) (allSamples : List Hash)
    (hlen : size * kSamplesPerRank ≤ allSamples.length) :
    (pickSplitters size allSamples).Pairwise (· ≤ ·) := by
  have hsorted := List.pairwise_iff_getElem.mp (List.pairwise_insertionSort (· ≤ ·) allSamples)
  rw [pickSplitters, List.pairwise_map]
  refine List.pairwise_lt_range.imp_of_mem ?_
  intro i j hi hj hij
  rw [List.mem_range] at hi hj
  unfold kSamplesPerRank at *
  have hilt : (i + 1) * 128 < (allSamples.insertionSort (· ≤ ·)).length := by
    rw [List.length_insertionSort]
    omega
  have hjlt : (j + 1) * 128 < (allSamples.insertionSort (· ≤ ·)).length := by
    rw [List.length_insertionSort]
    omega
  rw [List.getD_eq_getElem _ _ hilt, List.getD_eq_getElem _ _ hjlt]
  exact hsorted _ _ hilt hjlt (by omega)

theorem length_localSample (uniq : List Hash) : (localSample uniq).length = kSamplesPerRank := by
  simp [localSample]

theorem length_gather_samples :
    (gather fun r => localSample (localUniq (rawPatches r))).length = P * kSamplesPerRank := by
  rw [length_gather, displacement_last]
  simp [length_localSample]

theorem computeSplitters_eq (hP : 0 < P) :
    computeSplitters (fun r => localUniq (rawPatches r)) = .ok fun _ => splitters rawPatches := by
  unfold computeSplitters
  by_cases hone : P ≤ 1
  · obtain rfl : P = 1 := by omega
    rw [if_pos le_rfl]
    rfl
  · rw [if_neg hone, allgatherv_eq_ok fun _ _ => (length_localSample _).symm, ok_bind]
    rfl

theorem owner_lt (hP : 0 < P) (h : Hash) : owner rawPatches h < P := by
  have hle := upperBound_le_length (splitters rawPatches) h
  rw [splitters, length_pickSplitters] at hle
  unfold owner targetRankForHash splitters
  omega

theorem owner_mono (a b : Hash) (hab : a ≤ b) : owner rawPatches a ≤ owner rawPatches b :=
  upperBound_mono (pairwise_pickSplitters _ _ (le_of_eq length_gather_samples.symm)) hab

theorem globalUniq_pairwise : (globalUniq rawPatches).Pairwise (· < ·) := sortUnique_pairwise _

theorem mem_localUniq {patches : List (List Hash)} {h : Hash} :
    h ∈ localUniq patches ↔ ∃ patch ∈ patches, h ∈ patch := by
  simp [localUniq]

theorem mem_globalUniq {h : Hash} :
    h ∈ globalUniq rawPatches ↔ ∃ r, ∃ patch ∈ rawPatches r, h ∈ patch := by
  simp only [globalUniq, mem_sortUnique, List.mem_flatten, mem_gather]
  constructor
  · rintro ⟨patch, ⟨r, hr⟩, hh⟩
    exact ⟨r, patch, hr, hh⟩
  · rintro ⟨r, patch, hr, hh⟩
    exact ⟨patch, ⟨r, hr⟩, hh⟩

/-- Whatever arrives at a rank, its distinct values are the part of the universe it owns. -/
theorem sortUnique_arrivals (r : Fin P) :
    sortUnique (gather fun s => routed rawPatches s r) = shard rawPatches r := by
  apply eq_of_pairwise_lt_of_mem_iff (sortUnique_pairwise _)
  · exact bucket_pairwise globalUniq_pairwise r
  · intro h
    simp only [mem_sortUnique, mem_gather, routed, shard, mem_bucket, mem_localUniq, mem_globalUniq]
    exact exists_and_right

theorem gather_shard (hP : 0 < P) : gather (shard rawPatches) = globalUniq rawPatches :=
  gather_bucket globalUniq_pairwise owner_mono fun h _ => owner_lt hP h

/-- The number an owner gives to a hash is its position in the universe. -/
theorem shardStart_add_lowerBound (hP : 0 < P) (r : Fin P) {h : Hash}
    (hh : h ∈ shard rawPatches r) :
    displacement (fun s => (shard rawPatches s).length) r + lowerBound (shard rawPatches r) h =
      lowerBound (globalUniq rawPatches) h :=
  displacement_add_lowerBound globalUniq_pairwise owner_mono
    (fun h _ => owner_lt hP h) (mem_bucket.mp hh).1 r (mem_bucket.mp hh).2

theorem length_localUniq_le (patches : List (List Hash)) :
    (localUniq patches).length ≤ patches.flatten.length := length_sortUnique_le _

theorem length_routed_le (s r : Fin P) :
    (routed rawPatches s r).length ≤ (localUniq (rawPatches s)).length := List.length_filter_le _ _

/-- In particular the counts fit when all occurrences over all ranks can be counted in int. -/
theorem countsFit_of_total_le (h : (gather rawPatches).flatten.length ≤ intMax) :
    CountsFit rawPatches := by
  rw [length_flatten_gather] at h
  constructor
  · intro r
    have hone := Finset.single_le_sum (f := fun r => (rawPatches r).flatten.length)
      (fun s _ => Nat.zero_le _) (Finset.mem_univ r)
    have hlocal := length_localUniq_le (rawPatches r)
    omega
  · intro r
    have hsum : ∑ s, (routed rawPatches s r).length ≤ ∑ s, (rawPatches s).flatten.length :=
      Finset.sum_le_sum fun s _ => le_trans (length_routed_le s r) (length_localUniq_le _)
    omega

end Routing

section Consecutive

/-- The first n hashes. -/
def consecutiveHashes (n : ℕ) : List Hash := (List.range n).map (Fin.ofNat (2 ^ 64))

@[simp] theorem length_consecutiveHashes (n : ℕ) : (consecutiveHashes n).length = n := by
  rw [consecutiveHashes, List.length_map, List.length_range]

theorem injOn_ofNat {n : ℕ} (h : n ≤ 2 ^ 64) : Set.InjOn (Fin.ofNat (2 ^ 64)) (Finset.range n) := by
  intro a ha b hb hab
  have ha := Finset.mem_range.mp (Finset.mem_coe.mp ha)
  have hb := Finset.mem_range.mp (Finset.mem_coe.mp hb)
  have hval := congrArg Fin.val hab
  rw [Fin.val_ofNat, Fin.val_ofNat, Nat.mod_eq_of_lt (by omega),
    Nat.mod_eq_of_lt (by omega)] at hval
  exact hval

theorem card_consecutiveHashes {n : ℕ} (h : n ≤ 2 ^ 64) :
    (consecutiveHashes n).toFinset.card = n := by
  have himage : (consecutiveHashes n).toFinset =
      (Finset.range n).image (Fin.ofNat (2 ^ 64)) := by
    ext a
    simp [consecutiveHashes]
  rw [himage, Finset.card_image_of_injOn (injOn_ofNat h), Finset.card_range]

end Consecutive

end PatternSearch.HashMapping
