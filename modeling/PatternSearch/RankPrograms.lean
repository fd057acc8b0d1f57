import PatternSearch.PatternStats
import PatternSearch.RankCalls
import PatternSearch.Selector

/-!
The programs of one rank. A rank decides every branch, the end of a loop and the root and
count of a broadcast from what it holds itself; the other ranks show only in the replies to
its calls.
-/

namespace PatternSearch.RankPrograms

open Machine Csr Bucketing SortedLists Kernels Shards HashMapping Setup Selector PatternStats
  RankCalls

variable {P : ℕ} {C : Type}

section Mapping

def computeSplitters (uniq : List Hash) : RankM P C (List Hash) :=
  if P ≤ 1 then return []
  else do
    let allSamples ← allgatherv .hash (localSample uniq) fun _ => kSamplesPerRank
    return pickSplitters P allSamples

/-- `recvcounts[s] = all_sendcounts[s * size + rank]` with an index of type size_t. -/
def recvcountsOf (rank : Fin P) (allSendcounts : List ℕ) (s : Fin P) : ℕ :=
  allSendcounts.getD (s * P + rank) 0

/-- The same for all s with an index of type int. -/
def recvcountsOfInt (rank : Fin P) (allSendcounts : List ℕ) : Except Fault (Fin P → ℕ) :=
  onRanks fun s => do
    let index ← tableIndex P s rank
    return allSendcounts.getD index 0

def mapHashesToElementIds (rank : Fin P) (rawPatches : List (List Hash)) :
    RankM P C IdMappedPatches := do
  let splitters ← computeSplitters (localUniq rawPatches)
  let sent ← compute (plan (targetRankForHash splitters) (localUniq rawPatches))
  let allSendcounts ← allgatherv .word (List.ofFn sent.counts) fun _ => P
  let recvcounts := recvcountsOf rank allSendcounts
  let totalRecv ← compute (totalInt (List.ofFn recvcounts))
  let recvbuf ← alltoallv .hash sent.buffer sent.counts recvcounts totalRecv
  let bucket := sortUnique recvbuf
  let globalIdStart ← exscan bucket.length
  let nTotal ← bcast .word
    [if (rank : ℕ) = P - 1 then globalIdStart + bucket.length else 0] 1 (P - 1)
  let idResponse := recvbuf.map fun h => globalIdStart + lowerBound bucket h
  let idBack ← alltoallv .word idResponse recvcounts sent.counts sent.buffer.length
  let idPatches ← compute (translate sent.buffer idBack rawPatches)
  return {
    idPatches
    N := nTotal.getD 0 0
    shardHashes := bucket
    shardStart := globalIdStart }

end Mapping

namespace ByPatch

open PatternSearch.ByPatch

/-- One pass of the while loop, its condition included. -/
def selectStep (d : Device) (rank : Fin P) (ps : PatchSet) (globalIds : List PatchId)
    (st : RankState) : RankM P C (RankState ⊕ PatchSelection) :=
  if st.result.coveredCount < ps.N then do
    let best ← compute (localBest ps st)
    let maxloc ← allreduceMaxloc best.1
    if maxloc.1 ≤ 0 then return .inr st.result
    else do
      let isWinner := decide ((rank : ℕ) = maxloc.2)
      let offered ← compute (offerGlobalId globalIds isWinner best.2)
      let winnerGlobal ← bcast .word [offered] 1 maxloc.2
      let built ← compute (buildNewlyCovered d ps st isWinner best.2 maxloc.1.toNat)
      let shipped ← bcast .word built maxloc.1.toNat maxloc.2
      let next ← compute (applyNewlyCovered d ps st isWinner best.2
        { score := maxloc.1, globalId := winnerGlobal.getD 0 0 } shipped)
      return .inl next
  else return .inr st.result

/-- `UscPatchSelectorImpl::patch_select`, with the number of passes of its loop. -/
def patchSelect (d : Device) (fuel : ℕ) (rank : Fin P) (rawPatches : List (List Hash))
    (globalIds : List PatchId) : RankM P C (ℕ × PatchSelection) := do
  let mapped ← mapHashesToElementIds rank rawPatches
  Spmd.Prog.loop .outOfFuel (selectStep d rank (patchSetOf mapped) globalIds) fuel
    (initialState (patchSetOf mapped))

end ByPatch

namespace ByElement

open PatternSearch.ByElement

/-- The slots of the rank's patches and the replicated slot to patch id map. -/
def assignSlots (rank : Fin P) (mLocal : ℕ) (globalIds : List PatchId) : RankM P C Slots := do
  let slotStart ← exscan mLocal
  let total ← bcast .word [if (rank : ℕ) = P - 1 then slotStart + mLocal else 0] 1 (P - 1)
  let mGlobal := total.getD 0 0
  let _ ← compute (if intMax < mGlobal then .error slotRangeError else .ok ())
  let mcounts ← allgatherv .word [(toInt32 mLocal).toNat] fun _ => 1
  let slotToGid ← allgatherv .word (globalIds.take (toInt32 mLocal).toNat) fun s =>
    mcounts.getD s 0
  return { slotStart, mGlobal, slotToGid }

/-- The incidences that end up in the rank's shard: their slots and their elements. -/
def exchangeIncidences (rank : Fin P) (N slotStart : ℕ) (idPatches : List (List ElementId)) :
    RankM P C (List PatchId × List ElementId) := do
  let sent ← compute (plan (fun x : PatchId × ElementId => shardOwner N P x.2)
    (slotEntries slotStart idPatches))
  let allSendcounts ← allgatherv .word (List.ofFn sent.counts) fun _ => P
  let recvcounts ← compute (recvcountsOfInt rank allSendcounts)
  let totalRecv := (List.ofFn recvcounts).sum
  let recvSlots ← alltoallv .word (sent.buffer.map Prod.fst) sent.counts recvcounts totalRecv
  let recvElems ← alltoallv .word (sent.buffer.map Prod.snd) sent.counts recvcounts totalRecv
  return (recvSlots, recvElems)

/-- `if (M_global_)`: the one-time allreduce and the check of its sums. -/
def wireCheck (mGlobal : ℕ) (slotToGid : List PatchId) (init : List ℤ) : RankM P C Unit :=
  if 0 < mGlobal then do
    let sum64 ← allreduceSum .int64 init mGlobal
    let _ ← compute (checkSums P mGlobal slotToGid sum64)
    return ()
  else return ()

def prepare (rank : Fin P) (mapped : IdMappedPatches) (globalIds : List PatchId) :
    RankM P C ElemSetup := do
  let slots ← assignSlots rank mapped.idPatches.length globalIds
  let arrivals ← exchangeIncidences rank mapped.N slots.slotStart mapped.idPatches
  let sub := subCsr slots.mGlobal (shardBase mapped.N P rank) arrivals.1 arrivals.2
  let init := initScores slots.mGlobal sub.offsets
  let _ ← wireCheck slots.mGlobal slots.slotToGid init
  return {
    N := mapped.N
    mGlobal := slots.mGlobal
    slotToGid := slots.slotToGid
    shardExtent := shardExtent mapped.N P rank
    sub
    inv := Transpose.buildInvertedIndex sub
    maxSubLen := ((List.range slots.mGlobal).map (subLen sub.offsets)).foldl max 0
    initialScores := init }

/-- A single rank skips the allreduce. -/
def fullScores (su : ElemSetup) (st : RankState) : RankM P C (List ℤ) :=
  if 1 < P then allreduceSum .int32 st.scoresPartial su.mGlobal else return st.scoresPartial

def elemIteration (d : Device) (su : ElemSetup) (st : RankState) : RankM P C RankState := do
  let full ← fullScores su st
  compute (do
    let argmax ← argMax full (toInt32 su.mGlobal)
    commitAndUpdate d su st argmax)

/-- One batch and the look at the done flag. -/
def batchStep (d : Device) (su : ElemSetup) (st : RankState) :
    RankM P C (RankState ⊕ RankState) := do
  let final ← (List.range kBatch).foldlM (fun st _ => elemIteration d su st) st
  let _ ← barrier
  return if final.state.done then .inr final else .inl final

/-- The loop over batches with the number of its batches. -/
def select (d : Device) (fuel : ℕ) (su : ElemSetup) : RankM P C (ℕ × PatchSelection) :=
  if su.mGlobal = 0 ∨ su.N = 0 then
    return (0, { selected := [], coveredCount := 0, iterations := 0 })
  else do
    let left ← Spmd.Prog.loop .outOfFuel (batchStep d su) fuel (initialState d su)
    let selection ← compute (drain su left.2)
    return (left.1, selection)

/-- `UscElemPatchSelectorImpl::patch_select`, with the number of batches of its loop. -/
def patchSelect (d : Device) (fuel : ℕ) (rank : Fin P) (rawPatches : List (List Hash))
    (globalIds : List PatchId) : RankM P C (ℕ × PatchSelection) := do
  let mapped ← mapHashesToElementIds rank rawPatches
  let su ← prepare rank mapped globalIds
  select d fuel su

end ByElement

/-- `UscPatchSelector::patch_select` on one rank. -/
def patchSelect (mode : PartitionMode) (d : Device) (fuel : ℕ) (rank : Fin P)
    (rawPatches : List (List Hash)) (globalIds : List PatchId) :
    RankM P C (ℕ × PatchSelection) := do
  let _ ← compute (if globalIds.length ≠ rawPatches.length then
    .error (idCountError globalIds.length rawPatches.length) else .ok ())
  match mode with
  | .byElement => ByElement.patchSelect d fuel rank rawPatches globalIds
  | .byPatch => ByPatch.patchSelect d fuel rank rawPatches globalIds

/-- Stage F of the pattern statistics: the global merge of the ranks' candidates. -/
def mergeCandidates (k : ℕ) (c : Candidates C) : RankM P C (List (PatternStat C)) := do
  let candCounts ← allgatherv .word [c.hash.length] fun _ => 1
  let _ ← compute (checkCandidates k candCounts.sum)
  let counts := fun s : Fin P => candCounts.getD s 0
  let allHash ← allgatherv .hash c.hash counts
  let allCount ← allgatherv .word c.count counts
  let allX ← allgatherv .coord c.x counts
  let allY ← allgatherv .coord c.y counts
  return partialSort k (mergedStats allHash allCount allX allY)

/-- Stages E and F: the best patterns of the rank's shard go into the merge. -/
def topPatterns [Zero C] (k : ℕ) (shard : List Hash) (arrays : ShardArrays C) :
    RankM P C (List (PatternStat C)) := do
  let candidates ← compute (localTop k shard arrays)
  mergeCandidates k candidates

/-- Stage C: the rank's (id, degree, location) triples go to the ranks whose shards hold the
ids. -/
def routeToOwners (rank : Fin P) (ps : PatchSet) (minPts : List (Point C)) :
    RankM P C (Arrivals C) := do
  let starts ← allgatherv .word [ps.shardStart] fun _ => 1
  let sendcounts ← compute (tally (ownerOf P (starts ++ [ps.N])) ps.inv.keys)
  let all ← allgatherv .word (List.ofFn sendcounts) fun _ => P
  let recvcounts ← compute (recvcountsOfInt rank all)
  let totalRecv ← compute (totalInt (List.ofFn recvcounts))
  let sendcounts2 ← compute (doubled sendcounts)
  let recvcounts2 ← compute (doubled recvcounts)
  let ids ← alltoallv .word ps.inv.keys sendcounts recvcounts totalRecv
  let degs ← alltoallv .word (degrees ps.inv) sendcounts recvcounts totalRecv
  let points ← alltoallv .coord (packPoints minPts) sendcounts2 recvcounts2 (2 * totalRecv)
  return { ids, degrees := degs, points := unpackPoints points }

/-- The stages behind the PatchSet, from the check of the reduced occurrences on. -/
def statsStages [LinearOrder C] [Zero C] (d : Device) (rank : Fin P) (k : ℕ) (ps : PatchSet)
    (reduced : List (Hash × Point C)) : RankM P C (List (PatternStat C)) := do
  let _ ← compute (checkRuns reduced.length ps.inv.keys.length)
  let arrivals ← routeToOwners rank ps (reduced.map Prod.snd)
  let arrays ← compute (reduceArrivals d ps.shardHashes.length ps.shardStart arrivals)
  topPatterns k ps.shardHashes arrays

/-- `UpsPatternStats::Impl::run` without a path for the dump of all hashes. -/
def statsRun [LinearOrder C] [Zero C] (d : Device) (rank : Fin P) (located : LocatedPatches C)
    (k : ℕ) : RankM P C (List (PatternStat C)) := do
  let reduced ← compute (reduceOccurrences located.flatten)
  let mapped ← mapHashesToElementIds rank (located.map fun patch => patch.map Prod.fst)
  statsStages d rank k (patchSetOf mapped) reduced

/-- `UpsPatternStats::pattern_stats` on one rank. -/
def patternStats [LinearOrder C] [Zero C] (d : Device) (rank : Fin P) (patches : List (List Hash))
    (coords : List (List (Point (Option C)))) (k : ℕ) : RankM P C (List (PatternStat C)) := do
  let located ← compute (checkInput patches coords)
  statsRun d rank located k

end PatternSearch.RankPrograms
