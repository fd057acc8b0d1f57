import PatternSearch.AnyDevice
import PatternSearch.SelectorObject

/-!
A call on a used selector returns what it returns on a new one. Whatever the members hold,
the call computes what the selector without members computes: every buffer is either written
in full before it is read, or its stale part lies outside every range the kernels read. The
device that ran the earlier calls does not matter either.
-/

namespace PatternSearch.SelectorReuse

open Machine Collectives Csr Transpose WordBits Kernels Loops Methods TwoRuns Shards HashMapping
  IdAssignment Setup Selector SelectorObject

variable {P : ℕ}

section DeviceBuffer

variable {α : Type} (mem : Device) (member : ℕ) (word : ℕ → α)

theorem length_resize (buf : List α) (count : ℕ) :
    (resize mem member word buf count).length = count := by
  unfold resize
  split_ifs with hsame
  · exact hsame.symm
  · rw [fresh, List.length_map, Device.length_alloc]

/-- A copy over the whole buffer leaves nothing of its old contents. -/
theorem copyFromHost_eq_ok {buf src : List α} (h : src.length = buf.length) :
    copyFromHost buf src = .ok src := by
  rw [copyFromHost, if_pos (le_of_eq h), h, List.drop_length, List.append_nil]

/-- The mirror of an empty array keeps its old contents, every other one is exact. -/
theorem mirror_eq_ok (buf src : List α) :
    mirror mem member word buf src = .ok (if src = [] then buf else src) := by
  unfold mirror
  cases src with
  | nil => rfl
  | cons x src => exact copyFromHost_eq_ok (length_resize ..).symm

theorem zero_resize (z : α) (buf : List α) (count : ℕ) :
    zero z (resize mem member word buf count) = List.replicate count z := by
  rw [zero, length_resize]

end DeviceBuffer

section ByPatch

/-- The device state of a call does not depend on the one before. -/
theorem initState_eq_ok (mem : Device) (ps : PatchSet) (o : PatchObject) :
    o.initState mem ps = .ok
      { o with
        dScores := (ByPatch.initialState ps).scores
        dCovered := (ByPatch.initialState ps).covered } := by
  have hcopy : copyInitialScores ps.patches
      (resize mem 0 (fun x => toInt64 x) o.dScores ps.patches.M) =
      .ok (ByPatch.initialState ps).scores := by
    unfold copyInitialScores
    split_ifs with hM
    · apply copyFromHost_eq_ok
      rw [length_resize, List.length_map, List.length_range]
    · have hzero : ps.patches.M = 0 := not_not.mp hM
      have hnil : resize mem 0 (fun x => toInt64 x) o.dScores ps.patches.M = [] := by
        apply List.eq_nil_of_length_eq_zero
        rw [length_resize, hzero]
      rw [hnil, ByPatch.initialState, hzero]
      rfl
  unfold PatchObject.initState
  rw [hcopy, ok_bind, zero_resize]
  rfl

/-- The ByPatch object returns what the selector without members returns. -/
theorem outcome_patchObject (mem dev : Fin P → Device) (fuel : ℕ)
    (rawPatches : Fin P → List (List Hash)) (globalIds : Fin P → List PatchId)
    (o : Fin P → PatchObject) :
    outcome (PatchObject.patchSelect mem dev fuel rawPatches globalIds) o =
      ByPatch.patchSelect dev fuel rawPatches globalIds := by
  unfold PatchObject.patchSelect ByPatch.patchSelect
  rw [outcome_update_bind, outcome_compute_bind]
  congr 1
  funext ps
  rw [outcome_update_bind, outcome_updateM_bind, onRanks_eq_ok fun r => initState_eq_ok ..,
    ok_bind]
  unfold PatchObject.select
  rw [outcome_get_bind, outcome_compute_bind]
  simp only [PatchObject.views]
  rw [onRanks_eq_ok fun r => rfl, ok_bind, outcome_within, outcome_loopM]
  rfl

end ByPatch

section Reads

open ByElement ElemObject

/-- The two setups give the kernels and the host the same to read. -/
structure SameReads (a b : ElemSetup) : Prop where
  N_eq : a.N = b.N
  mGlobal_eq : a.mGlobal = b.mGlobal
  slotToGid_eq : a.slotToGid = b.slotToGid
  offsets_eq : a.sub.offsets = b.sub.offsets
  patch_eq : ∀ s, a.sub.patch s = b.sub.patch s
  affected_eq : ∀ id, affectedPatches a.inv id = affectedPatches b.inv id

variable {a b : ElemSetup}

theorem SameReads.scoreThreads_eq (h : SameReads a b) (newly : List ElementId) :
    scoreThreads a.inv newly = scoreThreads b.inv newly :=
  List.flatMap_congr fun id _ => h.affected_eq id

/-- The update kernels see a range of the patch data only through the rows. -/
theorem SameReads.updateShard_eq (h : SameReads a b) (d : Device) (iteration : ℕ)
    (st : ByElement.RankState) (s : ℕ) :
    updateShard d iteration a st (a.sub.offsets.getD s 0) (a.sub.offsets.getD (s + 1) 0) =
      updateShard d iteration b st (b.sub.offsets.getD s 0) (b.sub.offsets.getD (s + 1) 0) := by
  have hrow : (a.sub.data.drop (a.sub.offsets.getD s 0)).take
      (a.sub.offsets.getD (s + 1) 0 - a.sub.offsets.getD s 0) =
      (b.sub.data.drop (b.sub.offsets.getD s 0)).take
        (b.sub.offsets.getD (s + 1) 0 - b.sub.offsets.getD s 0) := h.patch_eq s
  unfold updateShard
  simp only [hrow, h.scoreThreads_eq]

theorem SameReads.commitAndUpdate_eq (h : SameReads a b) (d : Device)
    (st : ByElement.RankState) (argmax : ℤ × ℕ) :
    commitAndUpdate d a st argmax = commitAndUpdate d b st argmax := by
  unfold commitAndUpdate commitWinner
  split_ifs with hdone hstop hroom
  · rw [ok_bind, ok_bind]
    exact (ByElementRun.updateShard_empty ..).trans (ByElementRun.updateShard_empty ..).symm
  · rw [ok_bind, ok_bind]
    exact (ByElementRun.updateShard_empty ..).trans (ByElementRun.updateShard_empty ..).symm
  · rw [ok_bind, ok_bind, h.N_eq]
    exact h.updateShard_eq ..
  · rfl

theorem SameReads.drain_eq (h : SameReads a b) (st : ByElement.RankState) :
    drain a st = drain b st := by
  have hcaller : callerId a = callerId b := by
    funext s
    rw [callerId, callerId, h.slotToGid_eq]
  unfold drain
  rw [hcaller]

end Reads

section Loop

open ByElement ElemObject

/-- The members' loop state is the plain one and a buffer of the right size for the sums. -/
structure Tracks (mGlobal : ℕ) (x : LoopState) (y : ByElement.RankState) : Prop where
  rank_eq : x.toRankState = y
  length_sum : x.scoresSum.length = mGlobal

variable {su view : Fin P → ElemSetup} {st : Fin P → LoopState}
  {plain : Fin P → ByElement.RankState}

theorem length_of_allreduceSum {wrap : ℤ → ℤ} {count : Fin P → ℕ} {x sums : Fin P → List ℤ}
    (h : allreduceSum wrap count x = .ok sums) (r : Fin P) : (sums r).length = count r := by
  unfold allreduceSum at h
  split_ifs at h
  rw [← Except.ok.inj h, length_columnSums]

/-- The allreduce overwrites the whole buffer of the sums, so ArgMax reads nothing older. -/
theorem alike_storeScores (hview : ∀ r, SameReads (view r) (su r))
    (hst : ∀ r, Tracks (su r).mGlobal (st r) (plain r)) :
    Alike (fun reduced full => ∀ r, Tracks (su r).mGlobal (reduced r) (plain r) ∧
        dFullScores P (reduced r).scoresPartial (reduced r).scoresSum = full r)
      (storeScores view st) (fullScores su plain) := by
  have hcount : (fun r => (view r).mGlobal) = fun r => (su r).mGlobal :=
    funext fun r => (hview r).mGlobal_eq
  have hpartial : (fun r => (st r).scoresPartial) = fun r => (plain r).scoresPartial :=
    funext fun r => by rw [← (hst r).rank_eq]
  unfold storeScores allreduceScores fullScores
  split_ifs with hone
  · rw [hcount, hpartial, ← bind_pure (allreduceSum _ _ _), bind_assoc]
    apply Alike.bind_same
    intro sums hsums
    have hcopy : ∀ r, copyFromHost (st r).scoresSum (sums r) = .ok (sums r) := fun r =>
      copyFromHost_eq_ok ((length_of_allreduceSum hsums r).trans (hst r).length_sum.symm)
    simp only [pure_eq_ok, ok_bind, hcopy]
    rw [onRanks_eq_ok fun r => rfl]
    refine .ok fun r => ⟨⟨(hst r).rank_eq, length_of_allreduceSum hsums r⟩, ?_⟩
    rw [dFullScores, if_neg (by omega)]
  · have hcopy : ∀ r, copyFromHost (st r).scoresSum (st r).scoresSum = .ok (st r).scoresSum :=
      fun r => copyFromHost_eq_ok rfl
    simp only [pure_eq_ok, ok_bind, hcopy]
    rw [onRanks_eq_ok fun r => rfl]
    refine .ok fun r => ⟨hst r, ?_⟩
    have hP : P = 1 := by have h := r.isLt; omega
    rw [dFullScores, if_pos hP, ← (hst r).rank_eq]

theorem alike_elemIteration (dev : Fin P → Device) (hview : ∀ r, SameReads (view r) (su r))
    (hst : ∀ r, Tracks (su r).mGlobal (st r) (plain r)) :
    Alike (fun st plain => ∀ r, Tracks (su r).mGlobal (st r) (plain r))
      (ElemObject.elemIteration dev view st) (ByElement.elemIteration dev su plain) := by
  apply (alike_storeScores hview hst).bind
  intro reduced full hfull
  apply Alike.onRanks (R := fun r => Tracks (su r).mGlobal)
  intro r
  obtain ⟨htracks, hread⟩ := hfull r
  rw [hread, (hview r).mGlobal_eq]
  apply Alike.bind_same
  intro argmax _
  rw [htracks.rank_eq, (hview r).commitAndUpdate_eq, ← bind_pure (commitAndUpdate _ (su r) _ _),
    bind_assoc]
  apply Alike.bind_same
  intro next _
  exact .ok ⟨rfl, htracks.length_sum⟩

theorem alike_batchStep (dev : Fin P → Device) (hview : ∀ r, SameReads (view r) (su r))
    (hst : ∀ r, Tracks (su r).mGlobal (st r) (plain r)) :
    Alike (Alike.Steps (fun st plain => ∀ r, Tracks (su r).mGlobal (st r) (plain r))
        fun st plain => ∀ r, Tracks (su r).mGlobal (st r) (plain r))
      (ElemObject.batchStep dev view st) (ByElement.batchStep dev su plain) := by
  have hbatch := Alike.foldlM (List.range kBatch)
    (fun _ _ _ h => alike_elemIteration dev hview h) hst
  apply hbatch.bind
  intro final final' hfinal
  have hflags : (fun r => (final r).state.done) = fun r => (final' r).state.done :=
    funext fun r => by rw [← (hfinal r).rank_eq]
  rw [hflags]
  apply Alike.bind_same
  intro done _
  cases done with
  | true => exact .ok (.leave hfinal)
  | false => exact .ok (.go hfinal)

/-- The loop on the members returns what the plain loop and the final drain return. -/
theorem outcome_runBatches (dev : Fin P → Device) (hview : ∀ r, SameReads (view r) (su r))
    (fuel : ℕ) (hst : ∀ r, Tracks (su r).mGlobal (st r) (plain r)) :
    outcome (runBatches dev view fuel) st =
      (Loops.loop (ByElement.batchStep dev su) fuel plain >>= fun final =>
        onRanks fun r => drain (su r) (final r)) := by
  have hdrain : outcome (runBatches dev view fuel) st =
      (Loops.loop (ElemObject.batchStep dev view) fuel st >>= fun final =>
        onRanks fun r => drain (view r) (final r).toRankState) := by
    have hloop := outcome_loopM st (ElemObject.batchStep dev view) fuel
    rw [runBatches, outcome_bind, returned, hloop, bind_assoc]
    rfl
  rw [hdrain]
  apply Alike.eq
  apply (Alike.loop (fun _ _ h => alike_batchStep dev hview h) fuel hst).bind
  intro final final' hfinal
  have hsame : (fun r => drain (view r) (final r).toRankState) =
      fun r => drain (su r) (final' r) :=
    funext fun r => by rw [(hview r).drain_eq, (hfinal r).rank_eq]
  rw [hsame]
  exact Alike.refl _

end Loop

section Setup

open ByElement ElemObject

/-- What the members hold after the setup of a call; `su` is the setup without members. -/
structure Refreshed (su : ElemSetup) (o : ElemObject) : Prop where
  N_eq : o.N = su.N
  mGlobal_eq : o.mGlobal = su.mGlobal
  slotToGid_eq : o.slotToGid = su.slotToGid
  maxSubLen_eq : o.maxSubLen = su.maxSubLen
  scores_eq : o.dScoresPartial = su.initialScores
  length_sum : o.dScoresSum.length = su.mGlobal
  covered_eq : o.dCovered = List.replicate (wordsFor su.shardExtent) 0#64
  same : 0 < su.mGlobal → SameReads o.reads su

/-- The host part of the setup is the redistribution, with the members it replaces. -/
theorem returned_loadHost (rawPatches : Fin P → List (List Hash))
    (globalIds : Fin P → List PatchId) (o : Fin P → ElemObject) :
    returned (loadHost rawPatches globalIds) o = do
      let mapped ← mapHashesToElementIds rawPatches
      let sh ← redistribute mapped globalIds
      return (fun r => (sh r).sub, fun r =>
        { o r with
          N := (mapped r).N
          mGlobal := (sh r).slots.mGlobal
          slotToGid := (sh r).slots.slotToGid
          shardBase := Shards.shardBase (mapped r).N P r
          shardExtent := Shards.shardExtent (mapped r).N P r
          inv := buildInvertedIndex (sh r).sub }) := by
  unfold loadHost redistribute assignSlots
  simp only [returned_compute_bind, returned_update_bind, returned_pure, bind_assoc, pure_eq_ok,
    ok_bind]

/-- The members after the mirrors: whatever is empty on the host keeps its old mirror. -/
def mirrored (sub : PatchCsr) (o : ElemObject) : ElemObject :=
  { o with
    dPatchData := if sub.data = [] then o.dPatchData else sub.data
    dInvKeys := if o.inv.keys = [] then o.dInvKeys else o.inv.keys
    dInvOffsets := if o.inv.offsets = [] then o.dInvOffsets else o.inv.offsets
    dInvData := if o.inv.data = [] then o.dInvData else o.inv.data }

theorem mirrorIndex_eq_ok (mem : Device) (sub : PatchCsr) (o : ElemObject) :
    o.mirrorIndex mem sub = .ok (mirrored sub o) := by
  unfold mirrorIndex
  simp only [mirror_eq_ok, ok_bind]
  rfl

/-- The members after the score buffers have their contents. -/
def started (sub : PatchCsr) (o : ElemObject) : ElemObject :=
  { o with
    dScoresPartial := ByElement.initScores o.mGlobal sub.offsets
    dSubOffsets := sub.offsets
    maxSubLen := ((List.range o.mGlobal).map (subLen sub.offsets)).foldl max o.maxSubLen }

theorem initScores_eq_ok (mem : Device) (sub : PatchCsr) {o : ElemObject}
    (h : o.dScoresPartial.length = o.mGlobal) : o.initScores mem sub = .ok (started sub o) := by
  have hscores : copyFromHost o.dScoresPartial (ByElement.initScores o.mGlobal sub.offsets) =
      .ok (ByElement.initScores o.mGlobal sub.offsets) := by
    apply copyFromHost_eq_ok
    rw [ByElement.initScores, List.length_map, List.length_range, h]
  unfold ElemObject.initScores
  rw [hscores, ok_bind, copyFromHost_eq_ok (length_resize ..).symm, ok_bind]
  rfl

/-- Without keys no element is found in the index. -/
theorem affectedPatches_of_no_keys {inv : InvertedIndex} (h : inv.keys = []) (id : ElementId) :
    affectedPatches inv id = [] := by
  have hrange : resolveRange inv id = (0, 0) := by
    unfold resolveRange
    rw [h, if_neg]
    intro hfound
    exact Nat.not_lt_zero _ hfound.1
  rw [affectedPatches, hrange]
  exact List.take_zero

/-- An index with keys has entries in its other arrays too. -/
theorem ne_nil_of_keys {patches : PatchCsr} (h : (buildInvertedIndex patches).keys ≠ []) :
    (buildInvertedIndex patches).offsets ≠ [] ∧ (buildInvertedIndex patches).data ≠ [] := by
  unfold buildInvertedIndex at h ⊢
  split_ifs at h ⊢ with hempty
  · exact absurd rfl h
  · cases hsorted : (incidences patches).insertionSort KeyRuns.pairLe with
    | nil =>
      rw [hsorted, KeyRuns.runsByKey] at h
      exact absurd rfl h
    | cons x rest =>
      rw [KeyRuns.runsByKey]
      exact ⟨by simp, by simp⟩

/-- The setup a call works with, from the members its host part has set. -/
def setupOf (o : ElemObject) (sub : PatchCsr) : ElemSetup where
  N := o.N
  mGlobal := o.mGlobal
  slotToGid := o.slotToGid
  shardExtent := o.shardExtent
  sub := sub
  inv := buildInvertedIndex sub
  maxSubLen := ((List.range o.mGlobal).map (subLen sub.offsets)).foldl max 0
  initialScores := ByElement.initScores o.mGlobal sub.offsets

/-- Stale patch data lies outside every row, stale index data behind no key. -/
theorem sameReads_started (mem : Device) (sub : PatchCsr) (o : ElemObject)
    (hinv : o.inv = buildInvertedIndex sub)
    (hrows : sub.data = [] → ∀ s, sub.offsets.getD s 0 = 0) :
    SameReads (((started sub ((mirrored sub o).resizeScores mem)).clearCovered mem).reads)
      (setupOf o sub) where
  N_eq := rfl
  mGlobal_eq := rfl
  slotToGid_eq := rfl
  offsets_eq := rfl
  patch_eq s := by
    show ((if sub.data = [] then o.dPatchData else sub.data).drop (sub.offsets.getD s 0)).take
        (sub.patchSize s) = (sub.data.drop (sub.offsets.getD s 0)).take (sub.patchSize s)
    by_cases hdata : sub.data = []
    · have hsize : sub.patchSize s = 0 := by
        rw [PatchCsr.patchSize, hrows hdata, hrows hdata]
      rw [hsize, List.take_zero, List.take_zero]
    · rw [if_neg hdata]
  affected_eq id := by
    show affectedPatches
        { keys := (if o.inv.keys = [] then o.dInvKeys else o.inv.keys).take o.inv.keys.length
          offsets := if o.inv.offsets = [] then o.dInvOffsets else o.inv.offsets
          data := if o.inv.data = [] then o.dInvData else o.inv.data } id =
      affectedPatches (buildInvertedIndex sub) id
    rw [hinv]
    by_cases hkeys : (buildInvertedIndex sub).keys = []
    · rw [hkeys, affectedPatches_of_no_keys hkeys]
      exact affectedPatches_of_no_keys rfl id
    · obtain ⟨hoffsets, hdata⟩ := ne_nil_of_keys hkeys
      rw [if_neg hkeys, if_neg hoffsets, if_neg hdata, List.take_length]

theorem refreshed_started (mem : Device) {sub : PatchCsr} {o : ElemObject}
    (hinv : o.inv = buildInvertedIndex sub)
    (hrows : sub.data = [] → ∀ s, sub.offsets.getD s 0 = 0) :
    Refreshed (setupOf o sub)
      ((started sub ((mirrored sub o).resizeScores mem)).clearCovered mem) where
  N_eq := rfl
  mGlobal_eq := rfl
  slotToGid_eq := rfl
  maxSubLen_eq := rfl
  scores_eq := rfl
  length_sum := length_resize ..
  covered_eq := zero_resize ..
  same _ := sameReads_started mem sub o hinv hrows

/-- Without slots there are no scores to start from, and the loop will read nothing. -/
theorem refreshed_of_no_slots (mem : Device) (sub : PatchCsr) {o : ElemObject}
    (hzero : o.mGlobal = 0) :
    Refreshed (setupOf o sub) (((mirrored sub o).resizeScores mem).clearCovered mem) where
  N_eq := rfl
  mGlobal_eq := rfl
  slotToGid_eq := rfl
  maxSubLen_eq := by
    show 0 = ((List.range o.mGlobal).map _).foldl max 0
    rw [hzero]
    rfl
  scores_eq := by
    have hlen : ((mirrored sub o).resizeScores mem).dScoresPartial.length = o.mGlobal :=
      length_resize ..
    show _ = ByElement.initScores o.mGlobal sub.offsets
    rw [hzero] at hlen ⊢
    exact List.eq_nil_of_length_eq_zero hlen
  length_sum := length_resize ..
  covered_eq := zero_resize ..
  same h := absurd h (by
    show ¬ 0 < o.mGlobal
    omega)

theorem alike_loadDevice (mem : Fin P → Device) {sub : Fin P → PatchCsr}
    {o : Fin P → ElemObject} (hinv : ∀ r, (o r).inv = buildInvertedIndex (sub r))
    (hrows : ∀ r, (sub r).data = [] → ∀ s, (sub r).offsets.getD s 0 = 0) :
    Alike (fun x su => ∀ r, Refreshed (su r) (x.2 r)) (returned (loadDevice mem sub) o) (do
      let nonempty ← agree fun r => 0 < (o r).mGlobal
      if nonempty then
        let _ ← wireCheck (fun r => (o r).mGlobal) (fun r => (o r).slotToGid) fun r =>
          ByElement.initScores (o r).mGlobal (sub r).offsets
        pure ()
      return fun r => setupOf (o r) (sub r)) := by
  unfold loadDevice
  rw [returned_updateM_bind, onRanks_eq_ok fun r => mirrorIndex_eq_ok .., ok_bind,
    returned_update_bind]
  unfold startScores
  rw [returned_bind, returned_get_bind, returned_compute_bind, bind_assoc]
  apply Alike.bind_same
  intro nonempty hagree
  cases nonempty with
  | true =>
    rw [if_pos rfl, if_pos rfl, returned_updateM_bind,
      onRanks_eq_ok fun r => initScores_eq_ok _ _ (length_resize ..), ok_bind,
      returned_compute_bind, bind_assoc]
    apply Alike.bind_same
    intro _ _
    exact .ok fun r => refreshed_started (mem r) (hinv r) (hrows r)
  | false =>
    rw [if_neg Bool.false_ne_true, if_neg Bool.false_ne_true, returned_pure, ok_bind,
      returned_update]
    refine .ok fun r => ?_
    have hzero : (o r).mGlobal = 0 :=
      Nat.eq_zero_of_not_pos (of_decide_eq_false (of_agree hagree r))
    exact refreshed_of_no_slots (mem r) (sub r) hzero

theorem getD_prefixSums_zero (count s : ℕ) :
    (prefixSums (List.replicate (count + 1) 0)).getD s 0 = 0 := by
  have hall : ∀ n, (List.replicate n 0).scanl (· + ·) 0 = List.replicate (n + 1) 0 := by
    intro n
    induction n with
    | zero => rfl
    | succ n ih => rw [List.replicate_succ, List.scanl_cons, ih, ← List.replicate_succ]
  rw [List.replicate_succ, prefixSums, hall, List.getD_eq_getElem?_getD, List.getElem?_replicate]
  split_ifs <;> rfl

/-- A shard without incidences has only empty rows. -/
theorem offsets_of_no_data {mGlobal base : ℕ} {slots : List PatchId} {elems : List ElementId}
    (h : (subCsr mGlobal base slots elems).data = []) (s : ℕ) :
    (subCsr mGlobal base slots elems).offsets.getD s 0 = 0 := by
  have hinc : (slots.zip (elems.map (· - base))).insertionSort KeyRuns.pairLe = [] :=
    List.map_eq_nil_iff.mp h
  rw [subCsr, hinc]
  exact getD_prefixSums_zero mGlobal s

theorem offsets_of_redistribute {mapped : Fin P → IdMappedPatches}
    {globalIds : Fin P → List PatchId} {sh : Fin P → Sharded}
    (h : redistribute mapped globalIds = .ok sh) (r : Fin P) (hdata : (sh r).sub.data = [])
    (s : ℕ) : (sh r).sub.offsets.getD s 0 = 0 := by
  obtain ⟨slots, -, h⟩ := bind_eq_ok.mp h
  obtain ⟨sub, hsub, h⟩ := bind_eq_ok.mp h
  obtain ⟨ex, -, hsub⟩ := bind_eq_ok.mp hsub
  obtain rfl := Except.ok.inj hsub
  obtain rfl := Except.ok.inj h
  exact offsets_of_no_data hdata s

/-- The setup on the members succeeds when the plain setup does, and what it leaves for the
loop is the plain setup. -/
theorem alike_prepare (mem : Fin P → Device) (rawPatches : Fin P → List (List Hash))
    (globalIds : Fin P → List PatchId) (o : Fin P → ElemObject) :
    Alike (fun x su => ∀ r, Refreshed (su r) (x.2 r))
      (returned (loadHost rawPatches globalIds >>= loadDevice mem) o)
      (mapHashesToElementIds rawPatches >>= fun mapped => ByElement.prepare mapped globalIds) := by
  rw [returned_bind, returned_loadHost, bind_assoc]
  apply Alike.bind_same
  intro mapped _
  unfold ByElement.prepare
  rw [bind_assoc]
  apply Alike.bind_same
  intro sh hsh
  exact alike_loadDevice mem (fun r => rfl) fun r => offsets_of_redistribute hsh r

end Setup

section Call

open ByElement ElemObject

variable {mem dev : Fin P → Device} {fuel : ℕ}

theorem outcome_select {su : Fin P → ElemSetup} {o : Fin P → ElemObject}
    (h : ∀ r, Refreshed (su r) (o r)) :
    outcome (ElemObject.select dev fuel) o = ByElement.select dev fuel su := by
  have hnothing : (fun r => decide ((o r).mGlobal = 0 ∨ (o r).N = 0)) =
      fun r => decide ((su r).mGlobal = 0 ∨ (su r).N = 0) :=
    funext fun r => by rw [(h r).mGlobal_eq, (h r).N_eq]
  unfold ElemObject.select ByElement.select
  rw [outcome_get_bind, outcome_compute_bind, hnothing]
  apply Alike.eq
  apply Alike.bind_same
  intro nothing hagree
  cases nothing with
  | true => exact Alike.refl _
  | false =>
    have hpos : ∀ r, 0 < (su r).mGlobal := by
      intro r
      have hr := of_decide_eq_false (of_agree hagree r)
      omega
    have hstart : ∀ r, Tracks (su r).mGlobal ((o r).loopState (dev r))
        (ByElement.initialState (dev r) (su r)) := by
      intro r
      refine ⟨?_, (h r).length_sum⟩
      rw [ByElement.initialState, ← (h r).scores_eq, ← (h r).covered_eq, ← (h r).maxSubLen_eq,
        ← (h r).mGlobal_eq]
      rfl
    rw [if_neg Bool.false_ne_true, if_neg Bool.false_ne_true, outcome_within,
      outcome_runBatches dev (fun r => (h r).same (hpos r)) fuel hstart]
    exact Alike.refl _

/-- The ByElement object returns what the selector without members returns. -/
theorem outcome_elemObject (mem dev : Fin P → Device) (fuel : ℕ)
    (rawPatches : Fin P → List (List Hash)) (globalIds : Fin P → List PatchId)
    (o : Fin P → ElemObject) :
    outcome (ElemObject.patchSelect mem dev fuel rawPatches globalIds) o =
      ByElement.patchSelect dev fuel rawPatches globalIds := by
  have hsetup := alike_prepare mem rawPatches globalIds o
  have hsplit : ElemObject.patchSelect mem dev fuel rawPatches globalIds =
      (loadHost rawPatches globalIds >>= loadDevice mem) >>= fun _ =>
        ElemObject.select dev fuel := (bind_assoc ..).symm
  unfold ByElement.patchSelect
  rw [hsplit, outcome_bind, ← bind_assoc]
  apply Alike.eq
  apply hsetup.bind
  intro x su h
  rw [outcome_select h]
  exact Alike.refl _

/-- Whatever the object holds, a call returns what the selector without members returns. -/
theorem outcome_patchSelect (call : Call P) (on : Devices P) (impl : Impl P) :
    outcome (SelectorObject.patchSelect call on) impl =
      Selector.patchSelect impl.mode on.dev call.fuel call.rawPatches call.globalIds := by
  unfold SelectorObject.patchSelect Selector.patchSelect
  rw [outcome_compute_bind]
  congr 1
  funext _
  rw [outcome_get_bind]
  cases impl with
  | byPatch o =>
    exact (outcome_within ..).trans (outcome_patchObject ..)
  | byElement o =>
    exact (outcome_within ..).trans (outcome_elemObject ..)

/-- No call changes the mode of the object. -/
theorem mode_after (call : Call P) (on : Devices P) (impl : Impl P) :
    (after (SelectorObject.patchSelect call on) impl).mode = impl.mode := by
  unfold SelectorObject.patchSelect
  rw [after_compute_bind]
  split
  · cases impl with
    | byPatch o => rfl
    | byElement o => rfl
  · rfl

end Call

section History

/-- The results of a history depend on nothing but each call's own input. -/
theorem results_eq_map (calls : List (Call P × Devices P)) (impl : Impl P) :
    results impl calls = calls.map fun c =>
      Selector.patchSelect impl.mode c.2.dev c.1.fuel c.1.rawPatches c.1.globalIds := by
  induction calls generalizing impl with
  | nil => rfl
  | cons c calls ih =>
    obtain ⟨call, on⟩ := c
    rw [results, List.map_cons, outcome_patchSelect, ih, mode_after]

/-- Every call of a history on one selector, whatever came before and whether or not it
threw, returns or throws what a selector constructed for that call alone does, on any devices. -/
theorem results_eq_new (mode : PartitionMode) (calls : List (Call P × Devices P))
    (elsewhere : Call P × Devices P → Devices P) :
    results (Impl.new mode) calls = calls.map fun c =>
      outcome (SelectorObject.patchSelect c.1 (elsewhere c)) (Impl.new mode) := by
  have hmode : (Impl.new mode : Impl P).mode = mode := by
    cases mode with
    | byPatch => rfl
    | byElement => rfl
  rw [results_eq_map]
  apply List.map_congr_left
  intro c _
  rw [outcome_patchSelect, hmode]
  exact AnyDevice.patchSelect_eq ..

end History

end PatternSearch.SelectorReuse
