import PatternSearch.Methods
import PatternSearch.Selector

/-!
The selector as an object that is constructed once and called many times. Its members keep
what the last call left in them, a call that threw included: a device buffer of unchanged
size is not reallocated, and the mirror of an empty host array is not touched at all.
-/

namespace PatternSearch.SelectorObject

open Machine Collectives Csr Transpose WordBits Kernels Loops Methods Shards HashMapping Setup
  Selector

section DeviceBuffer

variable {α : Type}

/-- The entries of a new allocation, whatever the memory held before. -/
def fresh (mem : Device) (member : ℕ) (word : ℕ → α) (count : ℕ) : List α :=
  (mem.alloc member count).map word

/-- `DeviceBuffer::resize` keeps the allocation and its contents when the size is the same. -/
def resize (mem : Device) (member : ℕ) (word : ℕ → α) (buf : List α) (count : ℕ) : List α :=
  if count = buf.length then buf else fresh mem member word count

/-- `DeviceBuffer::copy_from_host`. -/
def copyFromHost (buf src : List α) : Except Fault (List α) :=
  if src.length ≤ buf.length then .ok (src ++ buf.drop src.length) else .error .outOfBounds

/-- `DeviceBuffer::zero`. -/
def zero (z : α) (buf : List α) : List α := List.replicate buf.length z

/-- `if (!src.empty()) { buf.resize(src.size()); buf.copy_from_host(...); }` -/
def mirror (mem : Device) (member : ℕ) (word : ℕ → α) (buf src : List α) : Except Fault (List α) :=
  if src.isEmpty then .ok buf else copyFromHost (resize mem member word buf src.length) src

end DeviceBuffer

variable {P : ℕ}

def wordOf (x : ℕ) : Word := BitVec.ofNat 64 x

section ByPatch

/-- The members of `UscPatchSelectorImpl`. Every call builds its own PatchSet. -/
structure PatchObject where
  patchGlobalIds : List PatchId
  patchSet : Option PatchSet
  dScores : List ℤ
  dCovered : List Word

def PatchObject.new : PatchObject :=
  { patchGlobalIds := [], patchSet := none, dScores := [], dCovered := [] }

/-- `initial_scores` on the device; without patches nothing is copied. -/
def copyInitialScores (patches : PatchCsr) (buf : List ℤ) : Except Fault (List ℤ) :=
  if patches.M ≠ 0 then
    copyFromHost buf ((List.range patches.M).map fun p => toInt64 (patches.patchSize p))
  else .ok buf

/-- The device state of a call: initial scores, nothing covered. -/
def PatchObject.initState (mem : Device) (ps : PatchSet) (o : PatchObject) :
    Except Fault PatchObject := do
  let dScores ← copyInitialScores ps.patches
    (resize mem 0 (fun x => toInt64 x) o.dScores ps.patches.M)
  return { o with dScores, dCovered := zero 0#64 (resize mem 1 wordOf o.dCovered (wordsFor ps.N)) }

/-- The PatchSet the views of `select` refer to. -/
def PatchObject.views (o : PatchObject) : Except Fault PatchSet :=
  match o.patchSet with
  | some ps => .ok ps
  | none => .error .contract

/-- `UscPatchSelectorImpl::select` on the members. -/
def PatchObject.select (dev : Fin P → Device) (fuel : ℕ) :
    MethodM (Fin P → PatchObject) (Fin P → PatchSelection) := do
  let o ← get
  let ps ← compute (onRanks fun r => (o r).views)
  within
    (fun o r =>
      { scores := (o r).dScores
        covered := (o r).dCovered
        newlyCoveredIds := []
        result := { selected := [], coveredCount := 0, iterations := 0 } })
    (fun st o r => { o r with dScores := (st r).scores, dCovered := (st r).covered })
    (loopM (ByPatch.selectStep dev ps fun r => (o r).patchGlobalIds) fuel)

/-- `UscPatchSelectorImpl::patch_select` on the members. -/
def PatchObject.patchSelect (mem dev : Fin P → Device) (fuel : ℕ)
    (rawPatches : Fin P → List (List Hash)) (globalIds : Fin P → List PatchId) :
    MethodM (Fin P → PatchObject) (Fin P → PatchSelection) := do
  update fun o r => { o r with patchGlobalIds := globalIds r }
  let ps ← compute (buildPatchSet rawPatches)
  update fun o r => { o r with patchSet := some (ps r) }
  updateM fun o => onRanks fun r => (o r).initState (mem r) (ps r)
  PatchObject.select dev fuel

end ByPatch

section ByElement

open ByElement

/-- The members of `UscElemPatchSelectorImpl`. -/
structure ElemObject where
  N : ℕ
  mGlobal : ℕ
  shardBase : ℕ
  shardExtent : ℕ
  slotToGid : List PatchId
  inv : InvertedIndex
  maxSubLen : ℕ
  dPatchData : List ElementId
  dSubOffsets : List ℕ
  dInvKeys : List ElementId
  dInvOffsets : List ℕ
  dInvData : List PatchId
  dScoresPartial : List ℤ
  dScoresSum : List ℤ
  dCovered : List Word

namespace ElemObject

def new : ElemObject where
  N := 0
  mGlobal := 0
  shardBase := 0
  shardExtent := 0
  slotToGid := []
  inv := { keys := [], offsets := [], data := [] }
  maxSubLen := 0
  dPatchData := []
  dSubOffsets := []
  dInvKeys := []
  dInvOffsets := []
  dInvData := []
  dScoresPartial := []
  dScoresSum := []
  dCovered := []

section Setup

/-- The mirrors of the sub CSR's data and of the inverted index. -/
def mirrorIndex (mem : Device) (sub : PatchCsr) (o : ElemObject) : Except Fault ElemObject := do
  let dPatchData ← mirror mem 0 id o.dPatchData sub.data
  let dInvKeys ← mirror mem 1 id o.dInvKeys o.inv.keys
  let dInvOffsets ← mirror mem 2 id o.dInvOffsets o.inv.offsets
  let dInvData ← mirror mem 3 id o.dInvData o.inv.data
  return { o with dPatchData, dInvKeys, dInvOffsets, dInvData }

/-- The score buffers get the size of the call, with no contents yet. -/
def resizeScores (mem : Device) (o : ElemObject) : ElemObject :=
  { o with
    dScoresPartial := resize mem 4 (fun x => toInt32 x) o.dScoresPartial o.mGlobal
    dScoresSum := resize mem 5 (fun x => toInt32 x) o.dScoresSum o.mGlobal
    maxSubLen := 0 }

/-- The initial partial scores, the widest sub-patch and the offsets mirror. -/
def initScores (mem : Device) (sub : PatchCsr) (o : ElemObject) : Except Fault ElemObject := do
  let dScoresPartial ←
    copyFromHost o.dScoresPartial (ByElement.initScores o.mGlobal sub.offsets)
  let dSubOffsets ←
    copyFromHost (resize mem 6 id o.dSubOffsets sub.offsets.length) sub.offsets
  return {
    o with
    dScoresPartial, dSubOffsets
    maxSubLen := ((List.range o.mGlobal).map (subLen sub.offsets)).foldl max o.maxSubLen }

/-- Nothing is covered yet. -/
def clearCovered (mem : Device) (o : ElemObject) : ElemObject :=
  { o with dCovered := zero 0#64 (resize mem 7 wordOf o.dCovered (wordsFor o.shardExtent)) }

/-- From the patches to the shard's sub CSR and inverted index on the host. -/
def loadHost (rawPatches : Fin P → List (List Hash)) (globalIds : Fin P → List PatchId) :
    MethodM (Fin P → ElemObject) (Fin P → PatchCsr) := do
  let mapped ← compute (mapHashesToElementIds rawPatches)
  update fun o r => { o r with N := (mapped r).N }
  let mLocal := fun r => (mapped r).idPatches.length
  let mGlobal ← compute (countSlots mLocal)
  update fun o r => { o r with mGlobal := mGlobal r }
  let _ ← compute (checkSlotRange mGlobal)
  let slotToGid ← compute (gatherSlotIds mLocal globalIds)
  update fun o r => { o r with slotToGid := slotToGid r }
  update fun o r =>
    { o r with
      shardBase := Shards.shardBase (mapped r).N P r
      shardExtent := Shards.shardExtent (mapped r).N P r }
  let sub ← compute (shardIncidences (fun r => (mapped r).N) (exscan mLocal) mGlobal
    fun r => (mapped r).idPatches)
  update fun o r => { o r with inv := buildInvertedIndex (sub r) }
  return sub

/-- `if (M_global_)`: the contents of the score buffers and the wire check. -/
def startScores (mem : Fin P → Device) (sub : Fin P → PatchCsr) :
    MethodM (Fin P → ElemObject) Unit := do
  let o ← get
  let nonempty ← compute (agree fun r => 0 < (o r).mGlobal)
  if nonempty then
    updateM fun o => onRanks fun r => (o r).initScores (mem r) (sub r)
    let _ ← compute (wireCheck (fun r => (o r).mGlobal) (fun r => (o r).slotToGid) fun r =>
      ByElement.initScores (o r).mGlobal (sub r).offsets)
    return ()
  else return ()

/-- The device mirrors and the algorithm state. -/
def loadDevice (mem : Fin P → Device) (sub : Fin P → PatchCsr) :
    MethodM (Fin P → ElemObject) Unit := do
  updateM fun o => onRanks fun r => (o r).mirrorIndex (mem r) (sub r)
  update fun o r => (o r).resizeScores (mem r)
  startScores mem sub
  update fun o r => (o r).clearCovered (mem r)

end Setup

section Loop

/-- The state of the loop with the buffer of the reduced scores. -/
structure LoopState extends ByElement.RankState where
  scoresSum : List ℤ

/-- What the loop reads of the members. -/
def reads (o : ElemObject) : ElemSetup where
  N := o.N
  mGlobal := o.mGlobal
  slotToGid := o.slotToGid
  shardExtent := o.shardExtent
  sub := { data := o.dPatchData, offsets := o.dSubOffsets }
  -- The kernels get the number of keys from the host's index, not from the buffer.
  inv :=
    { keys := o.dInvKeys.take o.inv.keys.length, offsets := o.dInvOffsets, data := o.dInvData }
  maxSubLen := o.maxSubLen
  initialScores := o.dScoresPartial

/-- The reduced scores land in d_scores_sum_, which has to have room for them. -/
def storeScores (su : Fin P → ElemSetup) (st : Fin P → LoopState) :
    Except Fault (Fin P → LoopState) := do
  let sums ← allreduceScores su (fun r => (st r).scoresPartial) fun r => (st r).scoresSum
  onRanks fun r => do
    let scoresSum ← copyFromHost (st r).scoresSum (sums r)
    return { st r with scoresSum }

/-- One enqueued iteration on the members. -/
def elemIteration (dev : Fin P → Device) (su : Fin P → ElemSetup) (st : Fin P → LoopState) :
    Except Fault (Fin P → LoopState) := do
  let reduced ← storeScores su st
  onRanks fun r => do
    let scores := dFullScores P (reduced r).scoresPartial (reduced r).scoresSum
    let argmax ← argMax scores (toInt32 (su r).mGlobal)
    let next ← commitAndUpdate (dev r) (su r) (reduced r).toRankState argmax
    return { toRankState := next, scoresSum := (reduced r).scoresSum }

/-- One batch, then the host looks at the done flags. -/
def batchStep (dev : Fin P → Device) (su : Fin P → ElemSetup) (st : Fin P → LoopState) :
    Except Fault ((Fin P → LoopState) ⊕ (Fin P → LoopState)) := do
  let final ← (List.range kBatch).foldlM (fun st _ => elemIteration dev su st) st
  let done ← agree fun r => (final r).state.done
  return if done then .inr final else .inl final

/-- The batches, then the selected slots as caller patch ids. -/
def runBatches (dev : Fin P → Device) (su : Fin P → ElemSetup) (fuel : ℕ) :
    MethodM (Fin P → LoopState) (Fin P → PatchSelection) := do
  let final ← loopM (batchStep dev su) fuel
  set final
  compute (onRanks fun r => drain (su r) (final r).toRankState)

/-- The members and the loop's own buffers when it starts. -/
def loopState (d : Device) (o : ElemObject) : LoopState where
  scoresPartial := o.dScoresPartial
  covered := o.dCovered
  newlyIds := d.alloc 0 (max o.maxSubLen 1)
  selectedSlots := d.alloc 1 o.mGlobal
  state := { coveredCount := 0, numSelected := 0, done := false }
  scoresSum := o.dScoresSum

/-- What a loop leaves in the members. -/
def store (st : LoopState) (o : ElemObject) : ElemObject :=
  { o with
    dScoresPartial := st.scoresPartial
    dScoresSum := st.scoresSum
    dCovered := st.covered }

/-- `UscElemPatchSelectorImpl::select` on the members. -/
def select (dev : Fin P → Device) (fuel : ℕ) :
    MethodM (Fin P → ElemObject) (Fin P → PatchSelection) := do
  let o ← get
  let nothing ← compute (agree fun r => (o r).mGlobal = 0 ∨ (o r).N = 0)
  if nothing then return fun _ => { selected := [], coveredCount := 0, iterations := 0 }
  else
    within (fun o r => (o r).loopState (dev r)) (fun st o r => (o r).store (st r))
      (runBatches dev (fun r => (o r).reads) fuel)

end Loop

/-- `UscElemPatchSelectorImpl::patch_select` on the members. -/
def patchSelect (mem dev : Fin P → Device) (fuel : ℕ) (rawPatches : Fin P → List (List Hash))
    (globalIds : Fin P → List PatchId) :
    MethodM (Fin P → ElemObject) (Fin P → PatchSelection) := do
  let sub ← loadHost rawPatches globalIds
  loadDevice mem sub
  select dev fuel

end ElemObject

end ByElement

section Facade

/-- `UscPatchSelector::Impl` on all ranks: exactly one of the two is engaged. -/
inductive Impl (P : ℕ)
  | byPatch (o : Fin P → PatchObject)
  | byElement (o : Fin P → ElemObject)

def Impl.mode : Impl P → PartitionMode
  | .byElement _ => .byElement
  | .byPatch _ => .byPatch

/-- The constructor. -/
def Impl.new : PartitionMode → Impl P
  | .byElement => .byElement fun _ => .new
  | .byPatch => .byPatch fun _ => .new

/-- The input of one call on all ranks; fuel bounds the passes of its loop. -/
structure Call (P : ℕ) where
  rawPatches : Fin P → List (List Hash)
  globalIds : Fin P → List PatchId
  fuel : ℕ

/-- What a call meets on the devices: the contents of new allocations and the thread orders. -/
structure Devices (P : ℕ) where
  mem : Fin P → Device
  dev : Fin P → Device

/-- `UscPatchSelector::patch_select` on the object. -/
def patchSelect (call : Call P) (on : Devices P) : MethodM (Impl P) (Fin P → PatchSelection) := do
  let _ ← compute (onRanks fun r =>
    if (call.globalIds r).length ≠ (call.rawPatches r).length then
      .error (idCountError (call.globalIds r).length (call.rawPatches r).length)
    else .ok ())
  match ← get with
  | .byElement o =>
    within (fun _ => o) (fun o _ => .byElement o)
      (ElemObject.patchSelect on.mem on.dev call.fuel call.rawPatches call.globalIds)
  | .byPatch o =>
    within (fun _ => o) (fun o _ => .byPatch o)
      (PatchObject.patchSelect on.mem on.dev call.fuel call.rawPatches call.globalIds)

/-- The results of calls on one object, each finding what the earlier ones left. -/
def results (impl : Impl P) :
    List (Call P × Devices P) → List (Except Fault (Fin P → PatchSelection))
  | [] => []
  | (c, on) :: calls =>
    outcome (patchSelect c on) impl :: results (after (patchSelect c on) impl) calls

end Facade

end PatternSearch.SelectorObject
