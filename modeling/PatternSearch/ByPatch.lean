import PatternSearch.Kernels
import PatternSearch.Loops
import PatternSearch.Setup

/-!
PartitionMode::ByPatch. Every rank keeps its own patches with their scores and a replica of
the covered bitset. An iteration finds the winner by a local ArgMax and a MAXLOC over the
ranks, the winner's rank lists what it newly covers, and all ranks apply that list. The loop
is modelled in lock-step: a collective that the ranks enter with different arguments, or a
branch they take differently, stops the run.
-/

namespace PatternSearch.ByPatch

open Machine Collectives Csr Transpose WordBits Kernels Loops Setup

/-- The state of one rank at the head of the loop. -/
structure RankState where
  scores : List ℤ
  covered : List Word
  newlyCoveredIds : List ElementId
  result : PatchSelection

/-- What the ranks agree on in one iteration. -/
structure Winner where
  score : ℤ
  globalId : PatchId

variable {P : ℕ}

/-- The local best score and patch; a rank without patches offers the disabled score. -/
def localBest (ps : PatchSet) (st : RankState) : Except Fault (ℤ × PatchId) :=
  if 0 < ps.patches.M then argMax st.scores (toInt32 ps.patches.M)
  else .ok (kDisabledScore, 0)

/-- `winner_global` before the broadcast. -/
def offerGlobalId (globalIds : List PatchId) (isWinner : Bool) (localBestPatch : PatchId) :
    Except Fault PatchId :=
  if isWinner then
    match globalIds[localBestPatch]? with
    | some g => .ok g
    | none => .error .outOfBounds
  else .ok 0

/-- The sparse list before the broadcast: the winner writes it, everyone has room for it. -/
def buildNewlyCovered (d : Device) (ps : PatchSet) (st : RankState) (isWinner : Bool)
    (localBestPatch : PatchId) (winnerScore : ℕ) : Except Fault (List ElementId) := do
  let ids := if st.newlyCoveredIds.length < winnerScore
    then d.alloc st.result.iterations winnerScore else st.newlyCoveredIds
  if isWinner then
    let out ← d.launch st.result.iterations 0 (ps.patches.patch localBestPatch)
      (emitUncovered st.covered) { ids, count := 0 }
    return out.ids
  else return ids

/-- Fold the broadcast list into the covered bitset and the scores, then disable the winner. -/
def applyNewlyCovered (d : Device) (ps : PatchSet) (st : RankState) (isWinner : Bool)
    (localBestPatch : PatchId) (winner : Winner) (newlyCoveredIds : List ElementId) :
    Except Fault RankState := do
  let newly := newlyCoveredIds.take winner.score.toNat
  let covered ← d.launch st.result.iterations 1 newly writeBit st.covered
  let updated ← d.launch st.result.iterations 2 (scoreThreads ps.inv newly)
    (decrement toInt64) st.scores
  let scores := if isWinner then updated.set localBestPatch kDisabledScore else updated
  return {
    scores, covered, newlyCoveredIds
    result :=
      { selected := st.result.selected ++ [winner.globalId]
        coveredCount := st.result.coveredCount + winner.score.toNat
        iterations := st.result.iterations + 1 } }

/-- One pass through the while loop on all ranks. -/
def selectStep (dev : Fin P → Device) (ps : Fin P → PatchSet) (globalIds : Fin P → List PatchId)
    (st : Fin P → RankState) : Except Fault ((Fin P → RankState) ⊕ (Fin P → PatchSelection)) := do
  let more ← agree fun r => (st r).result.coveredCount < (ps r).N
  if more then
    let best ← onRanks fun r => localBest (ps r) (st r)
    let maxloc := allreduceMaxloc fun r => (best r).1
    let exhausted ← agree fun r => (maxloc r).1 ≤ 0
    if exhausted then return .inr fun r => (st r).result
    else
      let isWinner : Fin P → Bool := fun r => (r : ℕ) = (maxloc r).2
      let offered ← onRanks fun r => offerGlobalId (globalIds r) (isWinner r) (best r).2
      let winnerGlobal ← bcastValue (fun r => (maxloc r).2) offered
      let built ← onRanks fun r =>
        buildNewlyCovered (dev r) (ps r) (st r) (isWinner r) (best r).2 (maxloc r).1.toNat
      let shipped ← bcast (fun r => (maxloc r).2) (fun r => (maxloc r).1.toNat) built
      let next ← onRanks fun r =>
        applyNewlyCovered (dev r) (ps r) (st r) (isWinner r) (best r).2
          { score := (maxloc r).1, globalId := winnerGlobal r } (shipped r)
      return .inl next
  else return .inr fun r => (st r).result

/-- Initial scores are the patch sizes; nothing is covered. -/
def initialState (ps : PatchSet) : RankState where
  scores := (List.range ps.patches.M).map fun p => toInt64 (ps.patches.patchSize p)
  covered := List.replicate (wordsFor ps.N) 0#64
  newlyCoveredIds := []
  result := { selected := [], coveredCount := 0, iterations := 0 }

/-- `UscPatchSelectorImpl::patch_select`. -/
def patchSelect (dev : Fin P → Device) (fuel : ℕ) (rawPatches : Fin P → List (List Hash))
    (globalIds : Fin P → List PatchId) : Except Fault (Fin P → PatchSelection) := do
  let ps ← buildPatchSet rawPatches
  loop (selectStep dev ps globalIds) fuel fun r => initialState (ps r)

end PatternSearch.ByPatch
