import PatternSearch.AnyOrder
import PatternSearch.CallTraces
import PatternSearch.CoverGuarantees

/-!
What a selection costs in communication. Behind a setup of at most fourteen calls, the ByPatch
loop hands over every element of the universe once and two numbers for every selected patch;
the ByElement loop reduces one score for every patch in every iteration of its batches, however
large the universe is.
-/

namespace PatternSearch.Traffic

open Machine Collectives Csr Kernels Selection HashMapping IdAssignment Setup Incidence Selector
  Spmd RankCalls LockStep Interleaving CallTraces AnyOrder

variable {P : ℕ} {C : Type}

section Calls

/-- The entries that a rank contributes to a call or that are handed to it by a root. -/
def entries : Collective P C → ℕ
  | .allgatherv _ send _ => send.length
  | .alltoallv _ send _ _ _ => send.length
  | .exscan _ => 1
  | .bcast _ _ count _ => count
  | .allreduceSum _ _ count => count
  | .allreduceMaxloc _ => 1
  | .barrier => 0

def traffic (ops : List (Collective P C)) : ℕ := (ops.map entries).sum

@[simp] theorem traffic_nil : traffic ([] : List (Collective P C)) = 0 := rfl

@[simp] theorem traffic_cons (op : Collective P C) (ops : List (Collective P C)) :
    traffic (op :: ops) = entries op + traffic ops := by
  rw [traffic, List.map_cons, List.sum_cons, traffic]

@[simp] theorem traffic_append (ops rest : List (Collective P C)) :
    traffic (ops ++ rest) = traffic ops + traffic rest := by
  rw [traffic, List.map_append, List.sum_append, traffic, traffic]

end Calls

section Mapping

theorem leads_mapHashesToElementIds (rank : Fin P) (rawPatches : List (List Hash)) :
    Leads (RankPrograms.mapHashesToElementIds rank rawPatches : RankM P C IdMappedPatches)
      fun ops _ => ops.length ≤ 6 := by
  have hsplitters : Leads (RankPrograms.computeSplitters (localUniq rawPatches) :
      RankM P C (List Hash)) fun ops _ => ops.length ≤ 1 := by
    unfold RankPrograms.computeSplitters
    split_ifs
    · exact Leads.done (Nat.zero_le 1)
    · exact Leads.issue fun _ => Leads.done le_rfl
  apply Leads.bind
  refine hsplitters.mono fun first splitters hfirst => ?_
  apply Leads.lift
  intro sent _
  apply Leads.issue
  intro allSendcounts
  apply Leads.lift
  intro totalRecv _
  apply Leads.issue
  intro recvbuf
  apply Leads.issue
  intro globalIdStart
  apply Leads.issue
  intro nTotal
  apply Leads.issue
  intro idBack
  apply Leads.lift
  intro idPatches _
  apply Leads.done
  simp only [List.length_append, List.length_cons, List.length_nil]
  omega

end Mapping

section ByPatch

open PatternSearch.ByPatch

variable {d : Device} {rank : Fin P} {ps : PatchSet} {globalIds : List PatchId}

/-- A pass selects one patch and ships what it newly covers, or it is the last one. -/
theorem leads_selectStep (st : RankState) :
    Leads (RankPrograms.ByPatch.selectStep d rank ps globalIds st :
        RankM P C (RankState ⊕ PatchSelection)) fun ops outcome =>
      (∀ next, outcome = .inl next → ops.length = 3 ∧
        next.result.iterations = st.result.iterations + 1 ∧
        traffic ops + st.result.coveredCount = 2 + next.result.coveredCount) ∧
      ∀ result, outcome = .inr result → result = st.result ∧
        (ps.N ≤ result.coveredCount → ops = []) := by
  unfold RankPrograms.ByPatch.selectStep
  by_cases hmore : st.result.coveredCount < ps.N
  · rw [if_pos hmore]
    apply Leads.lift
    intro best _
    apply Leads.issue
    intro maxloc
    by_cases hexhausted : maxloc.1 ≤ 0
    · rw [if_pos hexhausted]
      apply Leads.done
      refine ⟨nofun, fun result hresult => ?_⟩
      obtain rfl := Sum.inr.inj hresult
      exact ⟨rfl, fun hall => absurd hmore (not_lt.mpr hall)⟩
    · rw [if_neg hexhausted]
      apply Leads.lift
      intro offered _
      apply Leads.issue
      intro winnerGlobal
      apply Leads.lift
      intro built _
      apply Leads.issue
      intro shipped
      apply Leads.lift
      intro next hnext
      apply Leads.done
      refine ⟨fun next' hnext' => ?_, nofun⟩
      obtain rfl := Sum.inl.inj hnext'
      unfold applyNewlyCovered at hnext
      obtain ⟨covered, _, hnext⟩ := bind_eq_ok.mp hnext
      obtain ⟨updated, _, hnext⟩ := bind_eq_ok.mp hnext
      obtain rfl := Except.ok.inj hnext
      refine ⟨rfl, rfl, ?_⟩
      simp only [traffic_cons, traffic_nil, entries]
      omega
  · rw [if_neg hmore]
    apply Leads.done
    refine ⟨nofun, fun result hresult => ?_⟩
    obtain rfl := Sum.inr.inj hresult
    exact ⟨rfl, fun _ => rfl⟩

/-- Once everything is covered, the passes have shipped just that. -/
theorem leads_passes (fuel : ℕ) (ps : PatchSet) :
    Leads (Prog.loop .outOfFuel (RankPrograms.ByPatch.selectStep d rank ps globalIds) fuel
        (initialState ps) : RankM P C (ℕ × PatchSelection)) fun ops x =>
      ps.N ≤ x.2.coveredCount → ops.length = 3 * x.2.iterations ∧
        traffic ops = 2 * x.2.iterations + x.2.coveredCount := by
  let I (n : ℕ) (ops : List (Collective P C)) (st : RankState) : Prop :=
    ops.length = 3 * n ∧ st.result.iterations = n ∧ traffic ops = 2 * n + st.result.coveredCount
  let L (ops : List (Collective P C)) (x : ℕ × PatchSelection) : Prop :=
    ps.N ≤ x.2.coveredCount → ops.length = 3 * x.2.iterations ∧
      traffic ops = 2 * x.2.iterations + x.2.coveredCount
  have hgo : ∀ n ops st, I n ops st →
      Leads (RankPrograms.ByPatch.selectStep d rank ps globalIds st) fun rest outcome =>
        (∀ next, outcome = .inl next → I (n + 1) (ops ++ rest) next) ∧
          ∀ result, outcome = .inr result → L (ops ++ rest) (n + 1, result) := by
    rintro n ops st ⟨hlen, hiterations, htraffic⟩
    refine (leads_selectStep st).mono fun rest outcome h => ⟨fun next hnext => ?_,
      fun result hresult => ?_⟩
    · obtain ⟨hthree, hpicked, hshipped⟩ := h.1 next hnext
      refine ⟨?_, by omega, ?_⟩
      · rw [List.length_append]
        omega
      · rw [traffic_append]
        omega
    · obtain ⟨rfl, hnone⟩ := h.2 result hresult
      intro hall
      rw [hnone hall, List.append_nil, hiterations]
      exact ⟨hlen, htraffic⟩
  have hstart : I 0 [] (initialState ps) := ⟨rfl, rfl, rfl⟩
  exact Leads.loop hgo fuel hstart

end ByPatch

section ByElement

open PatternSearch.ByElement

variable {d : Device} {su : ElemSetup}

/-- The calls of one iteration on a rank. -/
def iterationCalls (P : ℕ) : ℕ := if 1 < P then 1 else 0

/-- The batches until so many patches are selected. -/
def batches (iterations : ℕ) : ℕ := (iterations + kBatch - 1) / kBatch

theorem state_updateShard {iteration start stop : ℕ} {st next : RankState}
    (h : updateShard d iteration su st start stop = .ok next) : next.state = st.state := by
  unfold updateShard at h
  obtain ⟨out, _, h⟩ := bind_eq_ok.mp h
  obtain ⟨covered, _, h⟩ := bind_eq_ok.mp h
  obtain ⟨scores, _, h⟩ := bind_eq_ok.mp h
  obtain rfl := Except.ok.inj h
  rfl

/-- How far k iterations have come when they start after so many selected patches: the done
flag is raised by the iteration that covers the last element, or by one that covers nothing. -/
structure Advanced (N selected k : ℕ) (s : ElemLoopState) : Prop where
  going : s.done = false → s.numSelected = selected + k ∧ s.coveredCount < N
  stopped : s.done = true → s.numSelected ≤ selected + k ∧
    (N ≤ s.coveredCount → selected < s.numSelected)

theorem Advanced.commitAndUpdate {selected k : ℕ} {st next : RankState} {argmax : ℤ × ℕ}
    (h : Advanced su.N selected k st.state)
    (hnext : commitAndUpdate d su st argmax = .ok next) :
    Advanced su.N selected (k + 1) next.state := by
  obtain ⟨⟨committed, start, stop⟩, hcommit, hupdate⟩ := bind_eq_ok.mp hnext
  rw [state_updateShard hupdate]
  unfold commitWinner at hcommit
  split_ifs at hcommit with hdone hexhausted hroom
  · obtain ⟨rfl, -⟩ := Prod.mk.inj (Except.ok.inj hcommit)
    have hold := h.stopped hdone
    exact ⟨fun hgo => absurd hdone (by rw [hgo]; decide), fun _ => ⟨by omega, hold.2⟩⟩
  · obtain ⟨rfl, -⟩ := Prod.mk.inj (Except.ok.inj hcommit)
    obtain ⟨hselected, hcovered⟩ := h.going (Bool.eq_false_iff.mpr hdone)
    exact ⟨nofun, fun _ => ⟨by dsimp only; omega, fun hall => absurd hcovered (not_lt.mpr hall)⟩⟩
  · obtain ⟨rfl, -⟩ := Prod.mk.inj (Except.ok.inj hcommit)
    obtain ⟨hselected, hcovered⟩ := h.going (Bool.eq_false_iff.mpr hdone)
    constructor
    · intro hgo
      have hless := of_decide_eq_false hgo
      exact ⟨by dsimp only; omega, not_le.mp hless⟩
    · intro _
      exact ⟨by dsimp only; omega, fun _ => by dsimp only; omega⟩

theorem leads_elemIteration {selected k : ℕ} {st : RankState}
    (h : Advanced su.N selected k st.state) :
    Leads (RankPrograms.ByElement.elemIteration d su st : RankM P C RankState) fun ops next =>
      ops.length = iterationCalls P ∧ traffic ops = iterationCalls P * su.mGlobal ∧
        Advanced su.N selected (k + 1) next.state := by
  have hscores : Leads (RankPrograms.ByElement.fullScores su st : RankM P C (List ℤ))
      fun ops _ => ops.length = iterationCalls P ∧ traffic ops = iterationCalls P * su.mGlobal := by
    unfold RankPrograms.ByElement.fullScores iterationCalls
    split_ifs
    · refine Leads.issue fun _ => Leads.done ⟨rfl, ?_⟩
      simp only [traffic_cons, traffic_nil, entries]
      omega
    · exact Leads.done ⟨rfl, by rw [traffic_nil, Nat.zero_mul]⟩
  unfold RankPrograms.ByElement.elemIteration
  refine Leads.bind (hscores.mono fun first full hfirst => ?_)
  unfold compute
  apply Leads.lifted
  intro next hnext
  obtain ⟨argmax, _, hnext⟩ := bind_eq_ok.mp hnext
  rw [List.append_nil]
  exact ⟨hfirst.1, hfirst.2, h.commitAndUpdate hnext⟩

/-- A batch that starts before the end: all its iterations select a patch, or it is the last. -/
theorem leads_batchStep {st : RankState} (hdone : st.state.done = false)
    (hcovered : st.state.coveredCount < su.N) :
    Leads (RankPrograms.ByElement.batchStep d su st : RankM P C (RankState ⊕ RankState))
      fun ops outcome =>
        (ops.length = kBatch * iterationCalls P + 1 ∧
          traffic ops = kBatch * (iterationCalls P * su.mGlobal)) ∧
        (∀ next, outcome = .inl next → next.state.done = false ∧
          Advanced su.N st.state.numSelected kBatch next.state) ∧
        ∀ last, outcome = .inr last → last.state.done = true ∧
          Advanced su.N st.state.numSelected kBatch last.state := by
  let I (k : ℕ) (ops : List (Collective P C)) (s : RankState) : Prop :=
    (ops.length = k * iterationCalls P ∧ traffic ops = k * (iterationCalls P * su.mGlobal)) ∧
      Advanced su.N st.state.numSelected k s.state
  have hgo : ∀ k ops s (i : ℕ), I k ops s →
      Leads (RankPrograms.ByElement.elemIteration d su s : RankM P C RankState)
        fun rest next => I (k + 1) (ops ++ rest) next := by
    rintro k ops s i ⟨⟨hlen, htraffic⟩, hadvanced⟩
    refine (leads_elemIteration hadvanced).mono fun rest next h => ?_
    obtain ⟨hlen', htraffic', hadvanced'⟩ := h
    refine ⟨⟨?_, ?_⟩, hadvanced'⟩
    · rw [List.length_append, hlen, hlen', Nat.succ_mul]
    · rw [traffic_append, htraffic, htraffic', Nat.succ_mul]
  have hstart : I 0 [] st := by
    refine ⟨⟨by rw [Nat.zero_mul]; rfl, by rw [Nat.zero_mul]; rfl⟩, ?_⟩
    exact ⟨fun _ => ⟨rfl, hcovered⟩, fun h => absurd h (by rw [hdone]; decide)⟩
  have hbatch := Leads.foldlM hgo (List.range kBatch) hstart
  unfold RankPrograms.ByElement.batchStep
  refine Leads.bind (hbatch.mono fun ops final hfinal => ?_)
  rw [List.length_range, Nat.zero_add, List.nil_append] at hfinal
  obtain ⟨⟨hlen, htraffic⟩, hadvanced⟩ := hfinal
  apply Leads.issue
  intro _
  apply Leads.done
  refine ⟨⟨?_, ?_⟩, fun next hnext => ?_, fun last hlast => ?_⟩
  · rw [List.length_append, hlen]
    rfl
  · rw [traffic_append, htraffic]
    rfl
  · cases hflag : final.state.done with
    | true =>
      rw [hflag] at hnext
      cases hnext
    | false =>
      rw [hflag] at hnext
      obtain rfl := Sum.inl.inj hnext
      exact ⟨hflag, hadvanced⟩
  · cases hflag : final.state.done with
    | true =>
      rw [hflag] at hlast
      obtain rfl := Sum.inr.inj hlast
      exact ⟨hflag, hadvanced⟩
    | false =>
      rw [hflag] at hlast
      cases hlast

theorem batches_eq {n iterations : ℕ} (hlow : (n - 1) * kBatch < iterations)
    (hhigh : iterations ≤ n * kBatch) : batches iterations = n := by
  have hbatch : kBatch = 128 := rfl
  rw [hbatch] at hlow hhigh
  unfold batches
  rw [hbatch]
  omega

/-- Once everything is covered, just the batches in which something was selected have run. -/
theorem leads_select (fuel : ℕ) :
    Leads (RankPrograms.ByElement.select d fuel su : RankM P C (ℕ × PatchSelection)) fun ops x =>
      su.N ≤ x.2.coveredCount →
        ops.length = batches x.2.iterations * (kBatch * iterationCalls P + 1) ∧
          traffic ops = batches x.2.iterations * (kBatch * (iterationCalls P * su.mGlobal)) := by
  unfold RankPrograms.ByElement.select
  by_cases hnothing : su.mGlobal = 0 ∨ su.N = 0
  · rw [if_pos hnothing]
    refine Leads.done fun _ => ?_
    rw [show batches 0 = 0 from rfl, Nat.zero_mul, Nat.zero_mul]
    exact ⟨rfl, rfl⟩
  rw [if_neg hnothing]
  let I (n : ℕ) (ops : List (Collective P C)) (st : RankState) : Prop :=
    (ops.length = n * (kBatch * iterationCalls P + 1) ∧
        traffic ops = n * (kBatch * (iterationCalls P * su.mGlobal))) ∧
      st.state.done = false ∧ st.state.numSelected = n * kBatch ∧ st.state.coveredCount < su.N
  let L (ops : List (Collective P C)) (x : ℕ × RankState) : Prop :=
    su.N ≤ x.2.state.coveredCount →
      (ops.length = x.1 * (kBatch * iterationCalls P + 1) ∧
        traffic ops = x.1 * (kBatch * (iterationCalls P * su.mGlobal))) ∧
      batches x.2.state.numSelected = x.1
  have hgo : ∀ n ops st, I n ops st →
      Leads (RankPrograms.ByElement.batchStep d su st) fun rest outcome =>
        (∀ next, outcome = .inl next → I (n + 1) (ops ++ rest) next) ∧
          ∀ last, outcome = .inr last → L (ops ++ rest) (n + 1, last) := by
    rintro n ops st ⟨⟨hlen, htraffic⟩, hdone, hselected, hcovered⟩
    refine (leads_batchStep hdone hcovered).mono fun rest outcome h => ?_
    obtain ⟨⟨hlen', htraffic'⟩, hgo, hlast⟩ := h
    have hcalls : (ops ++ rest).length = (n + 1) * (kBatch * iterationCalls P + 1) ∧
        traffic (ops ++ rest) = (n + 1) * (kBatch * (iterationCalls P * su.mGlobal)) := by
      rw [List.length_append, traffic_append, hlen, hlen', htraffic, htraffic', Nat.succ_mul,
        Nat.succ_mul]
      exact ⟨rfl, rfl⟩
    refine ⟨fun next hnext => ?_, fun last hlast' hall => ⟨hcalls, ?_⟩⟩
    · obtain ⟨hflag, hadvanced⟩ := hgo next hnext
      obtain ⟨hpicked, hless⟩ := hadvanced.going hflag
      refine ⟨hcalls, hflag, ?_, hless⟩
      rw [hpicked, hselected, Nat.succ_mul]
    · obtain ⟨hflag, hadvanced⟩ := hlast last hlast'
      obtain ⟨hhigh, hlow⟩ := hadvanced.stopped hflag
      have hlow := hlow hall
      rw [hselected] at hhigh hlow
      exact batches_eq hlow (by rw [Nat.succ_mul]; exact hhigh)
  have hstart : I 0 [] (initialState d su) := by
    refine ⟨⟨by rw [Nat.zero_mul]; rfl, by rw [Nat.zero_mul]; rfl⟩, rfl, ?_, ?_⟩
    · exact (Nat.zero_mul kBatch).symm
    · exact Nat.pos_of_ne_zero (not_or.mp hnothing).2
  refine Leads.bind ((Leads.loop (L := L) hgo fuel hstart).mono fun ops left hleft => ?_)
  refine Leads.lift fun selection hdrain => Leads.done fun hall => ?_
  obtain ⟨selected, _, hdrain⟩ := bind_eq_ok.mp hdrain
  obtain rfl := Except.ok.inj hdrain
  obtain ⟨hcalls, hbatches⟩ := hleft hall
  rw [Nat.zero_add] at hcalls hbatches
  rw [hbatches, List.append_nil]
  exact hcalls

theorem leads_prepare (rank : Fin P) (mapped : IdMappedPatches) (globalIds : List PatchId) :
    Leads (RankPrograms.ByElement.prepare rank mapped globalIds : RankM P C ElemSetup)
      fun ops _ => ops.length ≤ 8 := by
  have hslots : Leads (RankPrograms.ByElement.assignSlots rank mapped.idPatches.length globalIds :
      RankM P C Slots) fun ops _ => ops.length ≤ 4 := by
    refine Leads.issue fun slotStart => Leads.issue fun total => Leads.lift fun _ _ => ?_
    exact Leads.issue fun mcounts => Leads.issue fun slotToGid => Leads.done le_rfl
  have hexchange : ∀ slotStart, Leads (RankPrograms.ByElement.exchangeIncidences rank mapped.N
      slotStart mapped.idPatches : RankM P C (List PatchId × List ElementId))
      fun ops _ => ops.length ≤ 3 := fun slotStart =>
    Leads.lift fun sent _ => Leads.issue fun _ => Leads.lift fun recvcounts _ =>
      Leads.issue fun _ => Leads.issue fun _ => Leads.done le_rfl
  have hwire : ∀ mGlobal slotToGid init, Leads (RankPrograms.ByElement.wireCheck mGlobal slotToGid
      init : RankM P C Unit) fun ops _ => ops.length ≤ 1 := by
    intro mGlobal slotToGid init
    unfold RankPrograms.ByElement.wireCheck
    split_ifs
    · exact Leads.issue fun _ => Leads.lift fun _ _ => Leads.done le_rfl
    · exact Leads.done (Nat.zero_le 1)
  refine Leads.bind (hslots.mono fun first slots hfirst => Leads.bind ?_)
  refine (hexchange slots.slotStart).mono fun second arrivals hsecond => Leads.bind ?_
  refine (hwire slots.mGlobal slots.slotToGid _).mono fun third _ hthird => Leads.done ?_
  simp only [List.length_append, List.length_nil]
  omega

end ByElement

section Jobs

variable {mode : PartitionMode} {rawPatches : Fin P → List (List Hash)}
  {globalIds : Fin P → List PatchId}

/-- The calls of a rank in the loop that selects so many patches. -/
def loopCalls (mode : PartitionMode) (P iterations : ℕ) : ℕ :=
  match mode with
  | .byPatch => 3 * iterations
  | .byElement => batches iterations * (ByElement.kBatch * iterationCalls P + 1)

/-- The entries they move, for M patches with N distinct hashes. -/
def loopTraffic (mode : PartitionMode) (P M N iterations : ℕ) : ℕ :=
  match mode with
  | .byPatch => 2 * iterations + N
  | .byElement => batches iterations * (ByElement.kBatch * (iterationCalls P * M))

theorem coveredCount_eq {gid : ℕ → PatchId} {sel : PatchSelection}
    (h : Finishes (rowSet (gather (idRows rawPatches)))
      (List.range (gather (idRows rawPatches)).length) gid Progress.start sel) :
    sel.coveredCount = (globalUniq rawPatches).length := by
  obtain ⟨run, htrace, rfl⟩ := h
  have hcover := CoverGuarantees.isCover_of_trace rowsFit_idRows
    (fun id hid => exists_mem_rowSet_idRows hid) htrace
  have hcount : (GreedyCover.coveredBy (rowSet (gather (idRows rawPatches))) ∅ run).card =
      (globalUniq rawPatches).length := by
    rw [GreedyCover.card_coveredBy, hcover.gains_sum, Finset.card_empty, Nat.zero_add]
  exact hcount

/-- The calls of a run in step, divided into those of the setup and those of the loop. -/
structure Divided (mode : PartitionMode) (M N : ℕ) (iterations : ℕ)
    (setup loop : List (Fin P → Collective P C)) : Prop where
  setup_length : setup.length ≤ 14
  loop_length : loop.length = loopCalls mode P iterations
  loop_traffic : ∀ r, traffic (loop.map fun ops => ops r) = loopTraffic mode P M N iterations

theorem exists_divided_byPatch (hP : 0 < P) {dev : Fin P → Device} {fuel : ℕ}
    {sel : PatchSelection}
    (hcovered : sel.coveredCount = (globalUniq rawPatches).length)
    (h : ByPatch.patchSelect dev fuel rawPatches globalIds = .ok fun _ => sel) :
    ∃ passes setup loop,
      Divided (C := C) .byPatch (gather rawPatches).length (globalUniq rawPatches).length
        sel.iterations setup loop ∧
      InStep Matches Undefined (fun r => (RankPrograms.ByPatch.patchSelect (dev r) fuel r
          (rawPatches r) (globalIds r) : RankM P C (ℕ × PatchSelection)))
        (setup ++ loop) (.returned fun _ => (passes, sel)) := by
  obtain ⟨m, passes, hmap, loop, hloop⟩ := together_passes (C := C) h
  obtain ⟨setup, hsetup⟩ := together_mapHashesToElementIds (C := C) hmap
  obtain ⟨-, rfl⟩ := (mapHashes_eq_ok_iff hP m).mp hmap
  have hcalls : ∀ r, (loop.map fun ops => ops r).length = 3 * sel.iterations ∧
      traffic (loop.map fun ops => ops r) = 2 * sel.iterations + sel.coveredCount := fun r =>
    leads_of_inStep hloop (leads_passes fuel _) hcovered.ge
  refine ⟨passes, setup, loop, ⟨?_, ?_, fun r => ?_⟩, hsetup.bind _ _ hloop⟩
  · have hlen := leads_of_inStep (r := ⟨0, hP⟩) hsetup (leads_mapHashesToElementIds _ _)
    rw [List.length_map] at hlen
    omega
  · have hlen := (hcalls ⟨0, hP⟩).1
    rwa [List.length_map] at hlen
  · rw [(hcalls r).2, hcovered]
    rfl

theorem exists_divided_byElement (hP : 0 < P) {dev : Fin P → Device} {fuel : ℕ}
    {sel : PatchSelection} (hids : ∀ r, (globalIds r).length = (rawPatches r).length)
    (hcovered : sel.coveredCount = (globalUniq rawPatches).length)
    (h : ByElement.patchSelect dev fuel rawPatches globalIds = .ok fun _ => sel) :
    ∃ passes setup loop,
      Divided (C := C) .byElement (gather rawPatches).length (globalUniq rawPatches).length
        sel.iterations setup loop ∧
      InStep Matches Undefined (fun r => (RankPrograms.ByElement.patchSelect (dev r) fuel r
          (rawPatches r) (globalIds r) : RankM P C (ℕ × PatchSelection)))
        (setup ++ loop) (.returned fun _ => (passes, sel)) := by
  obtain ⟨m, su, passes, hmap, hsizes, ⟨prepared, hprepare⟩, loop, hloop⟩ :=
    together_batches (C := C) hP hids h
  obtain ⟨mapping, hmapping⟩ := together_mapHashesToElementIds (C := C) hmap
  have hcalls : ∀ r, (loop.map fun ops => ops r).length =
        batches sel.iterations * (ByElement.kBatch * iterationCalls P + 1) ∧
      traffic (loop.map fun ops => ops r) =
        batches sel.iterations * (ByElement.kBatch * (iterationCalls P * (su r).mGlobal)) := by
    intro r
    apply leads_of_inStep hloop (leads_select fuel)
    rw [(hsizes r).2]
    exact hcovered.ge
  have hrun := hmapping.bind (f := fun r m => RankPrograms.ByElement.prepare r m (globalIds r) >>=
    RankPrograms.ByElement.select (dev r) fuel) Matches Undefined
      (hprepare.bind Matches Undefined hloop)
  rw [← List.append_assoc] at hrun
  refine ⟨passes, mapping ++ prepared, loop, ⟨?_, ?_, fun r => ?_⟩, hrun⟩
  · have hfirst := leads_of_inStep (r := ⟨0, hP⟩) hmapping (leads_mapHashesToElementIds _ _)
    have hsecond := leads_of_inStep (r := ⟨0, hP⟩) hprepare (leads_prepare _ _ _)
    rw [List.length_map] at hfirst hsecond
    rw [List.length_append]
    omega
  · have hlen := (hcalls ⟨0, hP⟩).1
    rwa [List.length_map] at hlen
  · rw [(hcalls r).2, (hsizes r).1]
    rfl

/-- In any order of events a rank's calls are those of a setup of bounded length, and behind it
as many calls and as much traffic as the mode, the input's size and the number of the selected
patches say; no run has more events than these calls allow. -/
theorem traffic_in_any_order (hP : 0 < P) {Delivers : Library P (Collective P C) Collective.Reply}
    (hserves : Serves Delivers Matches) (h : Admissible mode rawPatches globalIds)
    (dev : Fin P → Device) :
    ∃ m N sel, mapHashesToElementIds rawPatches = .ok m ∧ (∀ r, (m r).N = N) ∧
      ∀ fuel, N + 1 < fuel → ∃ passes, ∃ setup loop : List (Fin P → Collective P C),
        Divided mode (gather rawPatches).length N sel.iterations setup loop ∧
        ∀ n job, Run Delivers n (selectJob C mode dev fuel rawPatches globalIds) job →
          n ≤ 2 * (14 + loopCalls mode P sel.iterations) * P ∧
          ∃ f, job = .running f ∧
            (∀ r, f.calls r <+: (setup ++ loop).map fun ops => ops r) ∧
            ((∃ job', Step Delivers job job') ∨ ∀ r,
              f.rank r = .computing (.done (passes, sel)) ∧
                f.calls r = (setup ++ loop).map fun ops => ops r) := by
  obtain ⟨sel, hsel, hruns⟩ := exists_selection hP h
  have hcovered := coveredCount_eq hsel
  refine ⟨_, _, sel, (mapHashes_eq_ok_iff hP _).mpr ⟨h.hashes, rfl⟩, N_mapped, ?_⟩
  intro fuel hfuel
  have hprogs : ∃ passes setup loop,
      Divided (C := C) mode (gather rawPatches).length (globalUniq rawPatches).length
        sel.iterations setup loop ∧
      InStep Matches Undefined (fun r => (RankPrograms.patchSelect mode (dev r) fuel r
          (rawPatches r) (globalIds r) : RankM P C (ℕ × PatchSelection)))
        (setup ++ loop) (.returned fun _ => (passes, sel)) := by
    have hcheck : ∀ r, (if (globalIds r).length ≠ (rawPatches r).length then
        .error (idCountError (globalIds r).length (rawPatches r).length) else .ok ()) =
        (.ok () : Except Fault Unit) := fun r => if_neg (not_not.mpr (h.ids_length r))
    have hrun := hruns dev fuel hfuel
    rw [patchSelect_of_ids dev fuel h.ids_length] at hrun
    unfold RankPrograms.patchSelect
    simp only [hcheck]
    cases mode with
    | byPatch => exact exists_divided_byPatch hP hcovered hrun
    | byElement => exact exists_divided_byElement hP h.ids_length hcovered hrun
  obtain ⟨passes, setup, loop, hdivided, hrun⟩ := hprogs
  refine ⟨passes, setup, loop, hdivided, fun n job hjob => ?_⟩
  obtain ⟨f, hf, hn, hcalls, -, hend⟩ := returned_in_any_order hserves hrun hjob
  refine ⟨hn.trans ?_, f, hf, hcalls, hend⟩
  have hlen : (setup ++ loop).length ≤ 14 + loopCalls mode P sel.iterations := by
    rw [List.length_append, hdivided.loop_length]
    exact Nat.add_le_add_right hdivided.setup_length _
  exact Nat.mul_le_mul_right _ (Nat.mul_le_mul_left _ hlen)

/-- Three patches on two ranks, whose library hands over what has arrived. -/
theorem traffic_in_any_order_two_ranks :
    ∃ N, ∃ sel : PatchSelection, ∀ fuel, N + 1 < fuel →
      ∃ passes, ∃ setup loop : List (Fin 2 → Collective 2 ℕ),
        Divided .byElement 3 N sel.iterations setup loop ∧
        ∀ n job, Run Eager n (selectJob ℕ .byElement (fun _ => Device.inOrder) fuel
            ![[[5, 7], [7]], [[9, 5, 9]]] ![[10, 20], [30]]) job →
          n ≤ 2 * (14 + loopCalls .byElement 2 sel.iterations) * 2 ∧
          ∃ f, job = .running f ∧
            (∀ r, f.calls r <+: (setup ++ loop).map fun ops => ops r) ∧
            ((∃ job', Step Eager job job') ∨ ∀ r,
              f.rank r = .computing (.done (passes, sel)) ∧
                f.calls r = (setup ++ loop).map fun ops => ops r) := by
  have h : Admissible .byElement ![[[5, 7], [7]], [[9, 5, 9]]] ![[10, 20], [30]] :=
    admissible_of_total_le .byElement (by decide) (by decide) (by decide) (by decide)
  obtain ⟨_, N, sel, -, -, hruns⟩ :=
    traffic_in_any_order (P := 2) (C := ℕ) (by decide) serves_eager h fun _ => Device.inOrder
  exact ⟨N, sel, hruns⟩

end Jobs

end PatternSearch.Traffic
