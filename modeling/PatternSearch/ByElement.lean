import PatternSearch.Kernels
import PatternSearch.Loops
import PatternSearch.Setup
import PatternSearch.Shards

/-!
PartitionMode::ByElement. The element ids are sharded over the ranks; every rank holds, for
all patches of all ranks, the part inside its shard. Setup redistributes the incidences and
checks that the scores fit the int32 wire. The loop then runs on the device: an allreduce of
the partial scores, an ArgMax that all ranks compute alike, and a commit kernel that decides.
The host enqueues whole batches without knowing their outcome.
-/

namespace PatternSearch.ByElement

open Machine Collectives Bucketing Csr KeyRuns Transpose WordBits Kernels Loops Shards HashMapping

/-- The score of a slot that has been selected, on the int32 wire. -/
def kDisabledWireScore : ℤ := -1

def kBatch : ℕ := 128

/-- What setup leaves on one rank. -/
structure ElemSetup where
  N : ℕ
  mGlobal : ℕ
  slotToGid : List PatchId
  shardExtent : ℕ
  sub : PatchCsr
  inv : InvertedIndex
  maxSubLen : ℕ
  initialScores : List ℤ

variable {P : ℕ}

section Setup

/-- The global slots of a rank's patches and the replicated slot to patch id map. -/
structure Slots where
  slotStart : ℕ
  mGlobal : ℕ
  slotToGid : List PatchId

def slotRangeError : Fault :=
  .throws (.invalidArgument "ByElement mode: M_global exceeds CUB ArgMax's int index range")

/-- The slots of the ranks' patches start at the scanned counts; the last rank knows the total. -/
def countSlots (mLocal : Fin P → ℕ) : Except Fault (Fin P → ℕ) :=
  bcastValue (fun _ : Fin P => P - 1) fun r =>
    if (r : ℕ) = P - 1 then exscan mLocal r + mLocal r else 0

/-- The throw on too many slots for the int index of ArgMax. -/
def checkSlotRange (mGlobal : Fin P → ℕ) : Except Fault (Fin P → Unit) :=
  onRanks fun r => if intMax < mGlobal r then .error slotRangeError else .ok ()

/-- The replicated slot to patch id map. -/
def gatherSlotIds (mLocal : Fin P → ℕ) (globalIds : Fin P → List PatchId) :
    Except Fault (Fin P → List PatchId) :=
  allgatherv (fun r => (globalIds r).take (toInt32 (mLocal r)).toNat)
    (allgather fun r => (toInt32 (mLocal r)).toNat)

def assignSlots (mLocal : Fin P → ℕ) (globalIds : Fin P → List PatchId) :
    Except Fault (Fin P → Slots) := do
  let mGlobal ← countSlots mLocal
  let _ ← checkSlotRange mGlobal
  let slotToGid ← gatherSlotIds mLocal globalIds
  return fun r =>
    { slotStart := exscan mLocal r, mGlobal := mGlobal r, slotToGid := slotToGid r }

/-- The (slot, element) incidences of a rank's patches in the order they are sent. -/
def slotEntries (slotStart : ℕ) (idPatches : List (List ElementId)) :
    List (PatchId × ElementId) :=
  (List.range idPatches.length).flatMap fun p =>
    (idPatches.getD p []).map fun e => (slotStart + p, e)

structure IncidenceExchange (P : ℕ) where
  sent : Plan (PatchId × ElementId) P
  recvSlots : List PatchId
  recvElems : List ElementId

/-- The bookkeeping and the buffers of the senders. -/
def planIncidences (N slotStart : Fin P → ℕ) (idPatches : Fin P → List (List ElementId)) :
    Except Fault (Fin P → Plan (PatchId × ElementId) P) :=
  onRanks fun r =>
    plan (fun x : PatchId × ElementId => shardOwner (N r) P x.2)
      (slotEntries (slotStart r) (idPatches r))

/-- Every incidence flies to the owner of its element. -/
def exchangeIncidences (N slotStart : Fin P → ℕ) (idPatches : Fin P → List (List ElementId)) :
    Except Fault (Fin P → IncidenceExchange P) := do
  let sent ← planIncidences N slotStart idPatches
  let sendcounts : Fin P → Fin P → ℕ := fun r => (sent r).counts
  let allSendcounts := allgather sendcounts
  let recvcounts ← onRanks fun r => recvcountsInt (allSendcounts r) r
  let totalRecv := fun r => (List.ofFn (recvcounts r)).sum
  let recvSlots ← alltoallv (fun r => (sent r).buffer.map Prod.fst) sendcounts recvcounts totalRecv
  let recvElems ← alltoallv (fun r => (sent r).buffer.map Prod.snd) sendcounts recvcounts totalRecv
  return fun r => { sent := sent r, recvSlots := recvSlots r, recvElems := recvElems r }

/-- `++sub.offsets[x.slot + 1]` for every incidence. -/
def histogram (mGlobal : ℕ) (inc : List (PatchId × ElementId)) : List ℕ :=
  inc.foldl (fun offsets x => offsets.modify (x.1 + 1) (· + 1)) (List.replicate (mGlobal + 1) 0)

/-- `offsets[s + 1] += offsets[s]` for ascending s. -/
def prefixSums : List ℕ → List ℕ
  | [] => []
  | x :: rest => rest.scanl (· + ·) x

/-- The rows of all slots inside one shard, in shard-local ids. -/
def subCsr (mGlobal shardBase : ℕ) (recvSlots : List PatchId) (recvElems : List ElementId) :
    PatchCsr :=
  let inc := (recvSlots.zip (recvElems.map (· - shardBase))).insertionSort pairLe
  { data := inc.map Prod.snd, offsets := prefixSums (histogram mGlobal inc) }

/-- The incidences fly to their shards, whose sub CSRs they make up. -/
def shardIncidences (N slotStart mGlobal : Fin P → ℕ) (idPatches : Fin P → List (List ElementId)) :
    Except Fault (Fin P → PatchCsr) := do
  let ex ← exchangeIncidences N slotStart idPatches
  return fun r => subCsr (mGlobal r) (shardBase (N r) P r) (ex r).recvSlots (ex r).recvElems

/-- What the redistribution leaves on one rank. -/
structure Sharded where
  slots : Slots
  sub : PatchCsr

/-- `patch_select` from the mapping to the sub CSR. -/
def redistribute (mapped : Fin P → IdMappedPatches) (globalIds : Fin P → List PatchId) :
    Except Fault (Fin P → Sharded) := do
  let slots ← assignSlots (fun r => (mapped r).idPatches.length) globalIds
  let sub ← shardIncidences (fun r => (mapped r).N) (fun r => (slots r).slotStart)
    (fun r => (slots r).mGlobal) fun r => (mapped r).idPatches
  return fun r => { slots := slots r, sub := sub r }

def subLen (offsets : List ℕ) (s : ℕ) : ℕ := offsets.getD (s + 1) 0 - offsets.getD s 0

/-- `init[s] = static_cast<WireScore>(len)`. -/
def initScores (mGlobal : ℕ) (offsets : List ℕ) : List ℤ :=
  (List.range mGlobal).map fun s => toInt32 (subLen offsets s)

def wireMax (P : ℕ) : ℤ := intMax - P - 1

def wireError (gid : PatchId) (sum : ℤ) : Fault :=
  .throws (.invalidArgument
    ("ByElement mode: patch " ++ toString gid ++ " has " ++ toString sum ++
      " unique elements — exceeds the int32 score wire format"))

/-- The loop over the reduced sums on one rank. -/
def checkSums (P mGlobal : ℕ) (slotToGid : List PatchId) (sum64 : List ℤ) : Except Fault Unit :=
  match (List.range mGlobal).find? fun s => wireMax P < sum64.getD s 0 with
  | some s => .error (wireError (slotToGid.getD s 0) (sum64.getD s 0))
  | none => .ok ()

/-- What every rank concludes from the one-time host allreduce of its initial scores. -/
def wireVerdicts (mGlobal : Fin P → ℕ) (slotToGid : Fin P → List PatchId)
    (init : Fin P → List ℤ) : Except Fault (Fin P → Except Fault Unit) := do
  let sum64 ← allreduceSum toInt64 mGlobal init
  return fun r => checkSums P (mGlobal r) (slotToGid r) (sum64 r)

/-- The one-time check that every initial sum fits the wire. -/
def wireCheck (mGlobal : Fin P → ℕ) (slotToGid : Fin P → List PatchId) (init : Fin P → List ℤ) :
    Except Fault (Fin P → Unit) := do
  let verdicts ← wireVerdicts mGlobal slotToGid init
  onRanks verdicts

/-- Setup from the mapping to the device state. -/
def prepare (mapped : Fin P → IdMappedPatches) (globalIds : Fin P → List PatchId) :
    Except Fault (Fin P → ElemSetup) := do
  let sh ← redistribute mapped globalIds
  let init := fun r => initScores (sh r).slots.mGlobal (sh r).sub.offsets
  let nonempty ← agree fun r => 0 < (sh r).slots.mGlobal
  if nonempty then
    let _ ← wireCheck (fun r => (sh r).slots.mGlobal) (fun r => (sh r).slots.slotToGid) init
    pure ()
  return fun r =>
    { N := (mapped r).N
      mGlobal := (sh r).slots.mGlobal
      slotToGid := (sh r).slots.slotToGid
      shardExtent := shardExtent (mapped r).N P r
      sub := (sh r).sub
      inv := buildInvertedIndex (sh r).sub
      maxSubLen := ((List.range (sh r).slots.mGlobal).map (subLen (sh r).sub.offsets)).foldl max 0
      initialScores := init r }

end Setup

section Loop

/-- The device-resident loop state; only the commit kernel writes it. -/
structure ElemLoopState where
  coveredCount : ℕ
  numSelected : ℕ
  done : Bool

structure RankState where
  scoresPartial : List ℤ
  covered : List Word
  newlyIds : List ElementId
  selectedSlots : List PatchId
  state : ElemLoopState

/-- The commit kernel: append the winner, advance the count, resolve its range, disable it. -/
def commitWinner (su : ElemSetup) (argmax : ℤ × ℕ) (st : RankState) :
    Except Fault (RankState × ℕ × ℕ) :=
  if st.state.done then .ok (st, 0, 0)
  else if argmax.1 ≤ 0 then .ok ({ st with state := { st.state with done := true } }, 0, 0)
  else if st.state.numSelected < st.selectedSlots.length ∧
      argmax.2 < st.scoresPartial.length then
    let coveredCount := st.state.coveredCount + argmax.1.toNat
    .ok
      ({ st with
          selectedSlots := st.selectedSlots.set st.state.numSelected argmax.2
          scoresPartial := st.scoresPartial.set argmax.2 kDisabledWireScore
          state :=
            { coveredCount
              numSelected := st.state.numSelected + 1
              done := decide (su.N ≤ coveredCount) } },
        su.sub.offsets.getD argmax.2 0, su.sub.offsets.getD (argmax.2 + 1) 0)
  else .error .outOfBounds

/-- The three update kernels of one iteration. -/
def updateShard (d : Device) (iteration : ℕ) (su : ElemSetup) (st : RankState)
    (start stop : ℕ) : Except Fault RankState := do
  let out ← d.launch iteration 0 ((su.sub.data.drop start).take (stop - start))
    (emitUncovered st.covered) { ids := st.newlyIds, count := 0 }
  let newly := out.ids.take out.count
  let covered ← d.launch iteration 1 newly writeBit st.covered
  let scoresPartial ← d.launch iteration 2 (scoreThreads su.inv newly) (decrement toInt32)
    st.scoresPartial
  return { st with covered, scoresPartial, newlyIds := out.ids }

/-- The scores ArgMax reads. A single rank's partial scores are the full scores already. -/
def fullScores (su : Fin P → ElemSetup) (st : Fin P → RankState) :
    Except Fault (Fin P → List ℤ) :=
  if 1 < P then allreduceSum toInt32 (fun r => (su r).mGlobal) fun r => (st r).scoresPartial
  else .ok fun r => (st r).scoresPartial

/-- The allreduce into the buffer of the sums. With a single rank none is enqueued. -/
def allreduceScores (su : Fin P → ElemSetup) (scoresPartial scoresSum : Fin P → List ℤ) :
    Except Fault (Fin P → List ℤ) :=
  if 1 < P then allreduceSum toInt32 (fun r => (su r).mGlobal) scoresPartial else .ok scoresSum

/-- `d_full_scores`. -/
def dFullScores (P : ℕ) (scoresPartial scoresSum : List ℤ) : List ℤ :=
  if P = 1 then scoresPartial else scoresSum

/-- The commit kernel and the update kernels on one rank. -/
def commitAndUpdate (d : Device) (su : ElemSetup) (st : RankState) (argmax : ℤ × ℕ) :
    Except Fault RankState := do
  let (committed, start, stop) ← commitWinner su argmax st
  updateShard d st.state.numSelected su committed start stop

/-- One enqueued iteration. -/
def elemIteration (dev : Fin P → Device) (su : Fin P → ElemSetup) (st : Fin P → RankState) :
    Except Fault (Fin P → RankState) := do
  let full ← fullScores su st
  onRanks fun r => do
    let argmax ← argMax (full r) (toInt32 (su r).mGlobal)
    commitAndUpdate (dev r) (su r) (st r) argmax

/-- `slot_to_gid_[s]`. -/
def callerId (su : ElemSetup) (s : PatchId) : Except Fault PatchId :=
  match su.slotToGid[s]? with
  | some g => .ok g
  | none => .error .outOfBounds

/-- Selected slots to caller patch ids. -/
def drain (su : ElemSetup) (st : RankState) : Except Fault PatchSelection := do
  let selected ← (st.selectedSlots.take st.state.numSelected).mapM (callerId su)
  return {
    selected
    coveredCount := st.state.coveredCount
    iterations := st.state.numSelected }

/-- One batch, then the host looks at the done flags. -/
def batchStep (dev : Fin P → Device) (su : Fin P → ElemSetup) (st : Fin P → RankState) :
    Except Fault ((Fin P → RankState) ⊕ (Fin P → RankState)) := do
  let final ← (List.range kBatch).foldlM (fun st _ => elemIteration dev su st) st
  let done ← agree fun r => (final r).state.done
  return if done then .inr final else .inl final

def initialState (d : Device) (su : ElemSetup) : RankState where
  scoresPartial := su.initialScores
  covered := List.replicate (wordsFor su.shardExtent) 0#64
  newlyIds := d.alloc 0 (max su.maxSubLen 1)
  selectedSlots := d.alloc 1 su.mGlobal
  state := { coveredCount := 0, numSelected := 0, done := false }

def select (dev : Fin P → Device) (fuel : ℕ) (su : Fin P → ElemSetup) :
    Except Fault (Fin P → PatchSelection) := do
  let nothing ← agree fun r => (su r).mGlobal = 0 ∨ (su r).N = 0
  if nothing then return fun _ => { selected := [], coveredCount := 0, iterations := 0 }
  else
    let final ← loop (batchStep dev su) fuel fun r => initialState (dev r) (su r)
    onRanks fun r => drain (su r) (final r)

/-- `UscElemPatchSelectorImpl::patch_select`. -/
def patchSelect (dev : Fin P → Device) (fuel : ℕ) (rawPatches : Fin P → List (List Hash))
    (globalIds : Fin P → List PatchId) : Except Fault (Fin P → PatchSelection) := do
  let mapped ← mapHashesToElementIds rawPatches
  let su ← prepare mapped globalIds
  select dev fuel su

end Loop

end PatternSearch.ByElement
