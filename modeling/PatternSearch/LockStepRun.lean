import PatternSearch.ByPatchInvariant
import PatternSearch.LockStep

/-!
Whole runs of the ranks. In either mode the ranks issue matching calls to the end: all leave
the loop in the same pass with the same selection, or all reject the input, unless a rank
has more to count than int can.
-/

namespace PatternSearch.LockStepRun

open Machine Collectives Csr Bucketing Kernels Loops GreedyCover Selection HashMapping IdAssignment
  Setup Selector Spmd RankCalls LockStep

variable {P : ℕ} {C : Type} {N : ℕ} {rows : Fin P → List (List ElementId)}
  {globalIds : Fin P → List PatchId} {dev : Fin P → Device}

section ByPatch

open PatternSearch.ByPatch ByPatchRun

variable {ps : Fin P → PatchSet} {t : Progress} {st : Fin P → RankState}

/-- The local ArgMax fails only on more patches than int counts. -/
theorem contract_of_localBest (hload : Holds rows N ps globalIds)
    (hst : Stands rows N globalIds t st) {q : Fin P} {e : Fault}
    (h : localBest (ps q) (st q) = .error e) : e = .contract ∧ intMax < (rows q).length := by
  have hM : (ps q).patches.M = (rows q).length := ByPatchInvariant.M_eq hload q
  have hlen := hst.scores_length q
  unfold localBest at h
  rw [hM] at h
  split_ifs at h with hpos
  have hlarge : intMax < (rows q).length := by
    by_contra hfit
    obtain ⟨_, _, hok⟩ := Kernels.argMax_eq_ok (show 0 < (st q).scores.length by omega) (by omega)
    rw [hlen, h] at hok
    cases hok
  refine ⟨?_, hlarge⟩
  have hrange := toInt32_range (rows q).length
  unfold intMax at hlarge
  unfold Kernels.argMax at h
  rw [if_neg (show ¬ ((st q).scores.length : ℤ) < toInt32 (rows q).length by omega)] at h
  split_ifs at h
  · exact (Except.error.inj h).symm
  · split at h
    · cases h
    · exact (Except.error.inj h).symm

theorem together_selectStep_fault {q : Fin P}
    (hmore : ∀ r, (st r).result.coveredCount < (ps r).N)
    (h : localBest (ps q) (st q) = .error .contract) :
    Together (fun r => (RankPrograms.ByPatch.selectStep (dev r) r (ps r) (globalIds r) (st r) :
        RankM P C (RankState ⊕ PatchSelection)))
      (.undefined q .contract) := by
  unfold RankPrograms.ByPatch.selectStep
  simp only [hmore, if_true]
  exact Spmd.Together.lift_undefined h (.inr rfl) _

/-- One pass from a loop head: all ranks leave with one selection, all go on to the next loop
head, or a rank has more patches than its ArgMax counts. -/
theorem together_pass (dev : Fin P → Device) (hP : 0 < P) (hload : Holds rows N ps globalIds)
    (hst : Stands rows N globalIds t st) :
    (∃ sel, Together (fun r => (RankPrograms.ByPatch.selectStep (dev r) r (ps r) (globalIds r)
        (st r) : RankM P C (RankState ⊕ PatchSelection)))
      (.returned (Spmd.Together.spread (.inr fun _ => sel)))) ∨
    (∃ t' next, Stands rows N globalIds t' next ∧ remaining N t' < remaining N t ∧
      Together (fun r => (RankPrograms.ByPatch.selectStep (dev r) r (ps r) (globalIds r)
          (st r) : RankM P C (RankState ⊕ PatchSelection)))
        (.returned (Spmd.Together.spread (.inl next)))) ∨
    ∃ q, intMax < (rows q).length ∧
      Together (fun r => (RankPrograms.ByPatch.selectStep (dev r) r (ps r) (globalIds r)
          (st r) : RankM P C (RankState ⊕ PatchSelection)))
        (.undefined q .contract) := by
  by_cases hmore : t.covered.card < N
  case neg =>
    have hstep := selectStep_of_covered dev hP hload hst hmore
    exact Or.inl ⟨_, together_selectStep hstep⟩
  cases hrun : onRanks fun r => localBest (ps r) (st r) with
  | error e =>
    obtain ⟨q, hq⟩ := exists_error_of_onRanks hrun
    obtain ⟨rfl, hlarge⟩ := contract_of_localBest hload hst hq
    refine Or.inr (Or.inr ⟨q, hlarge, together_selectStep_fault (fun r => ?_) hq⟩)
    rw [hst.result_eq, hload.N_eq]
    exact hmore
  | ok best =>
    obtain ⟨q, -, hmaxloc⟩ := allreduceMaxloc_spec (fun r => (best r).1) hP
    by_cases hpos : 0 < (best q).1
    · have hbest := onRanks_eq_ok_iff.mp hrun
      obtain ⟨hp, hscore⟩ := ByPatchInvariant.localBest_spec (hbest q) hpos
      rw [hst.scores_length] at hp
      rw [hst.scores q _ hp] at hscore
      obtain ⟨next, _, hstep, hnext, _⟩ :=
        selectStep_of_winner dev hP hload hst hmore hbest hmaxloc hp hscore hpos
      have hgain := (scores_signedScore.of_pos (List.mem_singleton_self _) (hscore ▸ hpos)).2
      have hless := remaining_pick_lt hst.valid
        (hload.fits.subset (slotOf rows q (best q).2)) (by omega)
      exact Or.inr (Or.inl ⟨_, next, hnext, hless, together_selectStep hstep⟩)
    · have hstep := selectStep_of_exhausted dev hP hload hst hmore hrun hmaxloc hpos
      exact Or.inl ⟨_, together_selectStep hstep⟩

/-- From any loop head the ranks leave the ByPatch loop in the same pass with the same
selection, unless a rank has more patches than its ArgMax counts. -/
theorem together_selectLoop (dev : Fin P → Device) (hP : 0 < P)
    (hload : Holds rows N ps globalIds) {fuel : ℕ} (hst : Stands rows N globalIds t st)
    (hfuel : remaining N t < fuel) :
    (∃ n sel, Together (fun r => (Prog.loop Fault.outOfFuel
          (RankPrograms.ByPatch.selectStep (dev r) r (ps r) (globalIds r)) fuel (st r) :
          RankM P C (ℕ × PatchSelection)))
        (.returned fun _ => (n, sel))) ∨
      ∃ q, intMax < (rows q).length ∧
        Together (fun r => (Prog.loop Fault.outOfFuel
            (RankPrograms.ByPatch.selectStep (dev r) r (ps r) (globalIds r)) fuel (st r) :
            RankM P C (ℕ × PatchSelection)))
          (.undefined q .contract) := by
  -- The elements left to cover bound the passes to come.
  induction fuel generalizing t st with
  | zero => omega
  | succ fuel ih =>
    rcases together_pass (C := C) dev hP hload hst with
      ⟨sel, hleave⟩ | ⟨t', next, hnext, hless, hgo⟩ | ⟨q, hlarge, hfault⟩
    · exact Or.inl ⟨1, sel, Spmd.Together.loop_leave fuel hleave⟩
    · rcases ih hnext (by omega) with ⟨n, sel, hrest⟩ | ⟨q, hlarge, hrest⟩
      · exact Or.inl ⟨n + 1, sel, Spmd.Together.loop_go hgo hrest⟩
      · exact Or.inr ⟨q, hlarge, Spmd.Together.loop_go_undefined hgo hrest⟩
    · exact Or.inr ⟨q, hlarge, hfault.bind_undefined _⟩

end ByPatch

section ByElement

open PatternSearch.ByElement ElementSetup ByElementRun

/-- Setup rejects the first oversized patch on all ranks or succeeds on all ranks. -/
theorem together_prepare (hP : 0 < P) {m : Fin P → IdMappedPatches} (hN : ∀ r, (m r).N = N)
    (hrows : ∀ r, (m r).idPatches = rows r) (h : IncidencesFit N rows)
    (hids : ∀ r, (globalIds r).length = (rows r).length) :
    Together (fun r =>
        (RankPrograms.ByElement.prepare r (m r) (globalIds r) : RankM P C ElemSetup))
      (match firstOversized rows with
        | some s => .stopped fun _ =>
          wireError ((gather globalIds).getD s 0) (rowSet (gather rows) s).card
        | none => .returned (elemSetup N rows globalIds)) := by
  have htotal : displacement (fun r => (rows r).length) P = (gather rows).length :=
    (length_gather rows).symm
  have hslots := assignSlots_eq_ok hP (by rw [htotal]; exact h.slots_le) hids
  have hwire := together_wireCheck (C := C) hP (wireVerdicts_shardCsr hP h globalIds)
  unfold RankPrograms.ByElement.prepare
  simp only [hN, hrows]
  apply (together_assignSlots hslots).bind
  apply (together_exchangeIncidences (exchangeIncidences_eq_ok hP h)).bind
  simp only [htotal, subCsr_exactIncidences hP h]
  cases hover : firstOversized rows with
  | some s =>
    rw [hover] at hwire
    exact hwire.bind_stopped _
  | none =>
    rw [hover] at hwire
    exact hwire.bind (Spmd.Together.done _)

/-- Too many patches over all ranks are rejected on every rank. -/
theorem together_prepare_slotRange (hP : 0 < P) {m : Fin P → IdMappedPatches}
    (globalIds : Fin P → List PatchId)
    (htotal : intMax < displacement (fun r => (m r).idPatches.length) P) :
    Together (fun r =>
        (RankPrograms.ByElement.prepare r (m r) (globalIds r) : RankM P C ElemSetup))
      (.stopped fun _ => slotRangeError) :=
  (together_assignSlots_stopped hP globalIds htotal).bind_stopped _

/-- Incidences that int cannot count, or an index that is no int, lead out of the defined
behaviour. -/
theorem together_prepare_overflow (hP : 0 < P) {m : Fin P → IdMappedPatches}
    (hN : ∀ r, (m r).N = N) (hle : N ≤ 2 ^ 64) (hrows : ∀ r, (m r).idPatches = rows r)
    (hlt : ∀ r p, ∀ e ∈ (rows r).getD p [], e < N)
    (htotal : displacement (fun r => (rows r).length) P ≤ intMax)
    (hids : ∀ r, (globalIds r).length = (rows r).length)
    (h : ¬ ((∀ r, (rows r).flatten.length ≤ intMax) ∧ TableFits P)) :
    ∃ q, Together (fun r =>
        (RankPrograms.ByElement.prepare r (m r) (globalIds r) : RankM P C ElemSetup))
      (.undefined q .overflow) := by
  obtain ⟨q, hover⟩ := together_exchangeIncidences_overflow (C := C) hP hle hlt h
  refine ⟨q, ?_⟩
  unfold RankPrograms.ByElement.prepare
  simp only [hN, hrows]
  apply (together_assignSlots (assignSlots_eq_ok hP htotal hids)).bind
  exact hover.bind_undefined _

/-- From a setup without oversized patches the ranks leave the loop after the same batch. -/
theorem together_select (dev : Fin P → Device) (hP : 0 < P) (h : Loaded N rows globalIds) {fuel : ℕ}
    (hfuel : N + 1 < fuel) :
    ∃ n sel, Together (fun r => (RankPrograms.ByElement.select (dev r) fuel
        (elemSetup N rows globalIds r) : RankM P C (ℕ × PatchSelection)))
      (.returned fun _ => (n, sel)) := by
  obtain ⟨sel, _, hrun⟩ := select_eq_ok dev hP h
  obtain ⟨nothing, hagree, hselect⟩ := bind_eq_ok.mp (hrun fuel hfuel)
  have hnothing := of_agree hagree
  unfold RankPrograms.ByElement.select
  cases nothing with
  | true =>
    simp only [of_decide_eq_true (hnothing _), if_true]
    exact ⟨0, _, Spmd.Together.done _⟩
  | false =>
    obtain ⟨final, hloop, hdrain⟩ := bind_eq_ok.mp hselect
    have hbatch : ∀ st outcome, batchStep dev (elemSetup N rows globalIds) st = .ok outcome →
        Together (fun r => (RankPrograms.ByElement.batchStep (dev r)
            (elemSetup N rows globalIds r) (st r) : RankM P C (RankState ⊕ RankState)))
          (.returned (Spmd.Together.spread outcome)) := fun _ _ => together_batchStep
    obtain ⟨n, hleft⟩ := together_loop hbatch hloop
    simp only [of_decide_eq_false (hnothing _), if_false]
    exact ⟨n, sel, hleft.bind (together_compute hdrain (Spmd.Together.done _))⟩

end ByElement

section Whole

variable {rawPatches : Fin P → List (List Hash)}

/-- Whatever the mode computes in int stays in its range. -/
structure InInt (mode : PartitionMode) (rawPatches : Fin P → List (List Hash)) : Prop extends
    CountsInInt mode rawPatches where
  table : TableInInt mode P

/-- The ways a call ends alike on all ranks. The count n is that of the passes of the loop: of
its iterations in the ByPatch mode, of its batches in the ByElement mode. -/
inductive EndsAlike (mode : PartitionMode) : Ending P Fault (ℕ × PatchSelection) → Prop
  | returned (n : ℕ) (sel : PatchSelection) : EndsAlike mode (.returned fun _ => (n, sel))
  | rejected (what : String) : mode = .byElement →
      EndsAlike mode (.stopped fun _ => .throws (.invalidArgument what))

/-- The ranks end alike, or one of them has left the defined behaviour, by a signed overflow or a
broken contract. -/
inductive Ends (mode : PartitionMode) (rawPatches : Fin P → List (List Hash)) :
    Ending P Fault (ℕ × PatchSelection) → Prop
  | alike {ending : Ending P Fault (ℕ × PatchSelection)} : EndsAlike mode ending →
      Ends mode rawPatches ending
  | undefined (q : Fin P) (e : Fault) : ¬ InInt mode rawPatches →
      Ends mode rawPatches (.undefined q e)

variable (hP : 0 < P) (hids : ∀ r, (globalIds r).length = (rawPatches r).length)
  (dev : Fin P → Device) {fuel : ℕ} (hfuel : (globalUniq rawPatches).length + 1 < fuel)
include hP hids hfuel

theorem byPatch_together :
    ∃ ending, Ends .byPatch rawPatches ending ∧
      Together (fun r => (RankPrograms.ByPatch.patchSelect (dev r) fuel r (rawPatches r)
        (globalIds r) : RankM P C (ℕ × PatchSelection))) ending := by
  by_cases hfit : CountsFit rawPatches
  · have hmap := together_mapHashesToElementIds (C := C)
      ((mapHashes_eq_ok_iff hP _).mpr ⟨hfit, rfl⟩)
    have hload := ByPatchRun.holds_patchSets hfit hids
    have hstart := ByPatchRun.stands_initialState hload
    have hremaining : remaining (globalUniq rawPatches).length Progress.start < fuel := by
      unfold remaining
      omega
    rcases together_selectLoop (C := C) dev hP hload hstart hremaining with
      ⟨n, sel, hloop⟩ | ⟨q, hlarge, hloop⟩
    · exact ⟨_, .alike (.returned n sel), hmap.bind hloop⟩
    · refine ⟨_, .undefined q .contract fun hcounts => ?_, hmap.bind hloop⟩
      have hle := hcounts.patches q
      rw [length_idRows] at hlarge
      omega
  · obtain ⟨q, hmap⟩ := together_mapHashesToElementIds_overflow (C := C) hP hfit
    exact ⟨_, .undefined q .overflow fun hcounts => hfit hcounts.hashes, hmap.bind_undefined _⟩

omit hfuel in
/-- The setup rejects the input on all ranks or succeeds on all ranks, unless an int overflows. -/
theorem setup_together :
    (∃ what, Together (fun r => (RankPrograms.ByElement.prepare r (mapped rawPatches r)
        (globalIds r) : RankM P C ByElement.ElemSetup))
      (.stopped fun _ => .throws (.invalidArgument what))) ∨
    (ByElementRun.Loaded (globalUniq rawPatches).length (idRows rawPatches) globalIds ∧
      Together (fun r => (RankPrograms.ByElement.prepare r (mapped rawPatches r)
          (globalIds r) : RankM P C ByElement.ElemSetup))
        (.returned (ElementSetup.elemSetup (globalUniq rawPatches).length (idRows rawPatches)
          globalIds))) ∨
    ¬ ((∀ r, ((rawPatches r).map fun patch => patch.toFinset.card).sum ≤ intMax) ∧
        TableFits P) ∧
      ∃ q, Together (fun r => (RankPrograms.ByElement.prepare r (mapped rawPatches r)
          (globalIds r) : RankM P C ByElement.ElemSetup))
        (.undefined q .overflow) := by
  have hrows : ∀ r, (globalIds r).length = (idRows rawPatches r).length := fun r => by
    rw [hids, length_idRows]
  have htotal : displacement (fun r => (idRows rawPatches r).length) P =
      (gather rawPatches).length := ByElementRun.displacement_length_idRows
  by_cases hslots : (gather rawPatches).length ≤ intMax
  case neg =>
    left
    exact ⟨_, together_prepare_slotRange hP globalIds (htotal ▸ not_le.mp hslots)⟩
  by_cases hcounts : (∀ r, ((rawPatches r).map fun patch => patch.toFinset.card).sum ≤ intMax) ∧
      TableFits P
  · have hfits := ByElementRun.incidencesFit_idRows hcounts.2 hslots hcounts.1
    have hprepare := together_prepare (C := C) hP N_mapped idPatches_mapped hfits hrows
    cases hover : ElementSetup.firstOversized (idRows rawPatches) with
    | some s =>
      rw [hover] at hprepare
      exact Or.inl ⟨_, hprepare⟩
    | none =>
      rw [hover] at hprepare
      exact Or.inr (Or.inl ⟨ByElementRun.loaded_of_none hfits hrows hover, hprepare⟩)
  · refine Or.inr (Or.inr ⟨hcounts, ?_⟩)
    apply together_prepare_overflow hP N_mapped Incidence.length_globalUniq_le_two_pow
      idPatches_mapped (fun _ _ _ he => ByElementRun.lt_of_mem_idRows he) (htotal ▸ hslots) hrows
    simp only [Incidence.length_flatten_idRows]
    exact hcounts

theorem byElement_together :
    ∃ ending, Ends .byElement rawPatches ending ∧
      Together (fun r => (RankPrograms.ByElement.patchSelect (dev r) fuel r (rawPatches r)
        (globalIds r) : RankM P C (ℕ × PatchSelection))) ending := by
  by_cases hfit : CountsFit rawPatches
  · have hmap := together_mapHashesToElementIds (C := C)
      ((mapHashes_eq_ok_iff hP _).mpr ⟨hfit, rfl⟩)
    rcases setup_together (C := C) hP hids with
      ⟨what, hstop⟩ | ⟨hload, hprepare⟩ | ⟨hlarge, q, hover⟩
    · exact ⟨_, .alike (.rejected what rfl), hmap.bind (hstop.bind_stopped _)⟩
    · obtain ⟨n, sel, hselect⟩ := together_select (C := C) dev hP hload hfuel
      exact ⟨_, .alike (.returned n sel), hmap.bind (hprepare.bind hselect)⟩
    · exact ⟨_, .undefined q .overflow fun hcounts =>
        hlarge ⟨hcounts.incidences rfl, hcounts.table rfl⟩, hmap.bind (hover.bind_undefined _)⟩
  · obtain ⟨q, hmap⟩ := together_mapHashesToElementIds_overflow (C := C) hP hfit
    exact ⟨_, .undefined q .overflow fun hcounts => hfit hcounts.hashes, hmap.bind_undefined _⟩

omit hfuel in
/-- In either mode every way the call ends is the same on all ranks. -/
theorem patchSelect_together (mode : PartitionMode)
    (hfuel : (globalUniq rawPatches).length + 1 < fuel) :
    ∃ ending, Ends mode rawPatches ending ∧
      Together (fun r => (RankPrograms.patchSelect mode (dev r) fuel r (rawPatches r)
        (globalIds r) : RankM P C (ℕ × PatchSelection))) ending := by
  have hcheck : ∀ r, (if (globalIds r).length ≠ (rawPatches r).length then
      .error (idCountError (globalIds r).length (rawPatches r).length) else .ok ()) =
      (.ok () : Except Fault Unit) := fun r => if_neg (not_not.mpr (hids r))
  cases mode with
  | byPatch =>
    obtain ⟨ending, hend, hrun⟩ := byPatch_together (C := C) hP hids dev hfuel
    exact ⟨ending, hend, Spmd.Together.lift hcheck hrun⟩
  | byElement =>
    obtain ⟨ending, hend, hrun⟩ := byElement_together (C := C) hP hids dev hfuel
    exact ⟨ending, hend, Spmd.Together.lift hcheck hrun⟩

end Whole

section Winners

open Prog

/-- A rank offers a positive score only when it has patches. -/
def OfferedFrom (patches : ℕ) : Collective P C → Prop
  | .allreduceMaxloc x => 0 < x → 0 < patches
  | _ => True

theorem allCalls_mapHashesToElementIds (n : ℕ) (rank : Fin P) (rawPatches : List (List Hash)) :
    (RankPrograms.mapHashesToElementIds rank rawPatches : RankM P C IdMappedPatches).AllCalls
      (OfferedFrom n) fun m => m.idPatches.length = rawPatches.length := by
  have hsplitters : (RankPrograms.computeSplitters (localUniq rawPatches) :
      RankM P C (List Hash)).AllCalls (OfferedFrom n) fun _ => True := by
    unfold RankPrograms.computeSplitters
    split_ifs
    · exact .done trivial
    · exact .issue trivial fun _ => .done trivial
  apply hsplitters.bind
  intro splitters _
  apply AllCalls.lift
  intro sent _
  apply AllCalls.issue trivial
  intro allSendcounts
  apply AllCalls.lift
  intro totalRecv _
  apply AllCalls.issue trivial
  intro recvbuf
  apply AllCalls.issue trivial
  intro globalIdStart
  apply AllCalls.issue trivial
  intro nTotal
  apply AllCalls.issue trivial
  intro idBack
  apply AllCalls.lift
  intro idPatches htranslate
  exact .done (length_of_mapM htranslate)

open PatternSearch.ByPatch in
theorem allCalls_selectStep (d : Device) (rank : Fin P) (ps : PatchSet) (globalIds : List PatchId)
    (st : RankState) :
    (RankPrograms.ByPatch.selectStep d rank ps globalIds st :
      RankM P C (RankState ⊕ PatchSelection)).AllCalls (OfferedFrom ps.patches.M)
      fun _ => True := by
  unfold RankPrograms.ByPatch.selectStep
  split_ifs
  · apply AllCalls.lift
    intro best hbest
    apply AllCalls.issue
    · intro hpos
      by_contra hM
      unfold localBest at hbest
      rw [if_neg hM] at hbest
      obtain rfl := Except.ok.inj hbest
      exact absurd hpos (by decide)
    intro maxloc
    split_ifs
    · exact .done trivial
    · apply AllCalls.lift
      intro offered _
      apply AllCalls.issue trivial
      intro winnerGlobal
      apply AllCalls.lift
      intro built _
      apply AllCalls.issue trivial
      intro shipped
      exact .lift fun _ _ => .done trivial
  · exact .done trivial

/-- No call of a rank without patches offers a positive score. -/
theorem allCalls_patchSelect (d : Device) (fuel : ℕ) (rank : Fin P) (rawPatches : List (List Hash))
    (globalIds : List PatchId) :
    (RankPrograms.patchSelect .byPatch d fuel rank rawPatches globalIds :
      RankM P C (ℕ × PatchSelection)).AllCalls (OfferedFrom rawPatches.length)
      fun _ => True := by
  apply AllCalls.lift
  intro _ _
  apply (allCalls_mapHashesToElementIds rawPatches.length rank rawPatches).bind
  intro m hm
  have hM : (patchSetOf m).patches.M = rawPatches.length := (Csr.M_buildPatchCsr _).trans hm
  rw [← hM]
  exact .loop (allCalls_selectStep d rank _ globalIds) fuel _

end Winners

section Merge

open PatternStats

theorem exists_checkCandidates_eq_error {total : ℕ} (h : intMax / 8 < total) (k : ℕ) :
    ∃ what, checkCandidates k total = .error (.throws (.invalidArgument what)) := ⟨_, if_pos h⟩

/-- The counts of all ranks decide about the merge, so all ranks reject or none does. -/
theorem together_mergeCandidates (k : Fin P → ℕ) {c : Fin P → Candidates C}
    (hlen : ∀ r, (c r).count.length = (c r).hash.length ∧ (c r).x.length = (c r).hash.length ∧
      (c r).y.length = (c r).hash.length) :
    (∃ stats, Together (fun r => RankPrograms.mergeCandidates (k r) (c r)) (.returned stats)) ∨
      ∃ what : Fin P → String, Together (fun r => RankPrograms.mergeCandidates (k r) (c r))
        (.stopped fun r => .throws (.invalidArgument (what r))) := by
  unfold RankPrograms.mergeCandidates
  by_cases hover : intMax / 8 < (gather fun r => [(c r).hash.length]).sum
  · right
    choose what hwhat using fun r => exists_checkCandidates_eq_error hover (k r)
    refine ⟨what, ?_⟩
    apply together_allgatherv (t := .word) (allgatherv_eq_ok fun _ _ => rfl)
    exact Spmd.Together.lift_stopped hwhat _
  · left
    refine ⟨fun r => partialSort (k r) (mergedStats (gather fun s => (c s).hash)
      (gather fun s => (c s).count) (gather fun s => (c s).x) (gather fun s => (c s).y)), ?_⟩
    apply together_allgatherv (t := .word) (allgatherv_eq_ok fun _ _ => rfl)
    apply Spmd.Together.lift fun r => if_neg hover
    simp only [getD_gather_singleton]
    apply together_allgatherv (t := .hash) (allgatherv_eq_ok fun _ _ => rfl)
    apply together_allgatherv (t := .word) (allgatherv_eq_ok fun _ s => (hlen s).1.symm)
    apply together_allgatherv (t := .coord) (allgatherv_eq_ok fun _ s => (hlen s).2.1.symm)
    apply together_allgatherv (t := .coord) (allgatherv_eq_ok fun _ s => (hlen s).2.2.symm)
    exact Spmd.Together.done _

variable [Zero C]

theorem lengths_of_localTop {k : ℕ} {shard : List Hash} {arrays : ShardArrays C}
    {c : Candidates C} (h : localTop k shard arrays = .ok c) :
    c.count.length = c.hash.length ∧ c.x.length = c.hash.length ∧ c.y.length = c.hash.length := by
  unfold localTop at h
  by_cases hnone : min k shard.length = 0
  · rw [if_pos hnone] at h
    obtain rfl := Except.ok.inj h
    exact ⟨rfl, rfl, rfl⟩
  · rw [if_neg hnone] at h
    obtain ⟨items, _, h⟩ := bind_eq_ok.mp h
    obtain rfl := Except.ok.inj h
    simp only [List.length_map, and_self]

/-- The sort of a shard fails only on more hashes than int counts. -/
theorem contract_of_localTop {k : ℕ} {shard : List Hash} {arrays : ShardArrays C} {e : Fault}
    (h : localTop k shard arrays = .error e) : e = .contract ∧ intMax < shard.length := by
  unfold localTop at h
  by_cases hnone : min k shard.length = 0
  · rw [if_pos hnone] at h
    cases h
  · rw [if_neg hnone] at h
    rcases bind_eq_error.mp h with hitems | ⟨_, _, h⟩
    · unfold cubItems at hitems
      dsimp only at hitems
      split_ifs at hitems with hneg
      refine ⟨(Except.error.inj hitems).symm, ?_⟩
      by_contra hfit
      have hle : ((arrays.counts.map invertCount).zip
          ((List.range shard.length).map (· % 2 ^ 32))).length ≤ shard.length := by
        rw [List.length_zip, List.length_map, List.length_map, List.length_range]
        exact Nat.min_le_right _ _
      unfold intMax at hfit
      rw [toInt32_eq_self (by omega) (by omega)] at hneg
      omega
    · cases h

/-- The ways the merge ends alike on all ranks. -/
inductive MergesAlike : Ending P Fault (List (PatternStat C)) → Prop
  | returned (stats : Fin P → List (PatternStat C)) : MergesAlike (.returned stats)
  | rejected (what : Fin P → String) :
      MergesAlike (.stopped fun r => .throws (.invalidArgument (what r)))

theorem topPatterns_together (k : Fin P → ℕ) (shard : Fin P → List Hash)
    (arrays : Fin P → ShardArrays C) (hshard : ∀ r, (shard r).length ≤ intMax) :
    ∃ ending, MergesAlike ending ∧
      Together (fun r => RankPrograms.topPatterns (k r) (shard r) (arrays r)) ending := by
  cases hrun : onRanks fun r => localTop (k r) (shard r) (arrays r) with
  | error e =>
    obtain ⟨q, hq⟩ := exists_error_of_onRanks hrun
    have hlarge := (contract_of_localTop hq).2
    exact absurd (hshard q) (not_le.mpr hlarge)
  | ok c =>
    have hlen := fun r => lengths_of_localTop (onRanks_eq_ok_iff.mp hrun r)
    rcases together_mergeCandidates k hlen with ⟨stats, hmerge⟩ | ⟨what, hmerge⟩
    · exact ⟨_, .returned stats, together_compute hrun hmerge⟩
    · exact ⟨_, .rejected what, together_compute hrun hmerge⟩

end Merge

section Main

/-- In a MAXLOC round whose largest value is positive, the rank it names has a patch. -/
def WinnerHasPatch (rawPatches : Fin P → List (List Hash)) (ops : Fin P → Collective P C) : Prop :=
  ∀ x : Fin P → ℤ, (∀ r, ops r = .allreduceMaxloc (x r)) →
    ∀ r, 0 < (Collectives.allreduceMaxloc x r).1 →
      ∃ q : Fin P, (Collectives.allreduceMaxloc x r).2 = q ∧ 0 < (rawPatches q).length

theorem winnerHasPatch_of_offeredFrom (hP : 0 < P) {rawPatches : Fin P → List (List Hash)}
    {ops : Fin P → Collective P C} (h : ∀ r, OfferedFrom (rawPatches r).length (ops r)) :
    WinnerHasPatch rawPatches ops := by
  intro x hx r hpos
  obtain ⟨q, -, hmaxloc⟩ := allreduceMaxloc_spec x hP
  rw [hmaxloc] at hpos ⊢
  have hoffered := h q
  rw [hx q] at hoffered
  exact ⟨q, rfl, hoffered hpos⟩

/-- The ranks issue matching calls round after round until all of them end alike, and the winner
of a round has a patch. -/
def RunsInStep (C : Type) (mode : PartitionMode) (dev : Fin P → Device) (fuel : ℕ)
    (rawPatches : Fin P → List (List Hash)) (globalIds : Fin P → List PatchId) : Prop :=
  ∃ trace ending,
    InStep Matches Undefined (fun r => (RankPrograms.patchSelect mode (dev r) fuel r
      (rawPatches r) (globalIds r) : RankM P C (ℕ × PatchSelection))) trace ending ∧
    EndsAlike mode ending ∧
    (mode = .byPatch → ∀ ops ∈ trace, WinnerHasPatch rawPatches ops)

open PatternStats RankPrograms in
/-- Whatever the ranks hold, as long as it is counted in int and looked up at an int index, they
run in step, in either mode. So does the merge of the pattern statistics. -/
theorem ranks_in_step [Zero C] (hP : 0 < P) (rawPatches : Fin P → List (List Hash))
    (globalIds : Fin P → List PatchId) (hids : ∀ r, (globalIds r).length = (rawPatches r).length) :
    (∀ (mode : PartitionMode) (dev : Fin P → Device) (fuel : ℕ), InInt mode rawPatches →
      (globalUniq rawPatches).length + 1 < fuel →
      RunsInStep C mode dev fuel rawPatches globalIds) ∧
    ∀ (k : Fin P → ℕ) (shard : Fin P → List Hash) (arrays : Fin P → ShardArrays C),
      (∀ r, (shard r).length ≤ intMax) →
      ∃ trace ending,
        InStep Matches Undefined (fun r => topPatterns (k r) (shard r) (arrays r)) trace ending ∧
        MergesAlike ending := by
  constructor
  · intro mode dev fuel hint hfuel
    obtain ⟨ending, hend, trace, hrun⟩ := patchSelect_together (C := C) hP hids dev mode hfuel
    refine ⟨trace, ending, hrun, ?_, ?_⟩
    · cases hend with
      | alike halike => exact halike
      | undefined q e hover => exact absurd hint hover
    · rintro rfl ops hops
      exact winnerHasPatch_of_offeredFrom hP (hrun.forall_mem Matches Undefined
        (fun r => allCalls_patchSelect (dev r) fuel r (rawPatches r) (globalIds r)) ops hops)
  · intro k shard arrays hshard
    obtain ⟨ending, hend, trace, hrun⟩ := topPatterns_together k shard arrays hshard
    exact ⟨trace, ending, hrun, hend⟩

/-- Three ranks in the ByElement mode, one of them without patches. -/
theorem ranks_in_step_three :
    RunsInStep ℕ .byElement (fun _ => Device.inOrder) 6 ![[[1, 2], [2]], [], [[9, 1, 9]]]
      ![[7, 8], [], [3]] := by
  have hcounts : CountsInInt .byElement ![[[1, 2], [2]], [], [[9, 1, 9]]] :=
    countsInInt_of_total_le .byElement (by decide) (by decide)
  obtain ⟨hselect, -⟩ := ranks_in_step (C := ℕ) (by decide) ![[[1, 2], [2]], [], [[9, 1, 9]]]
    ![[7, 8], [], [3]] (by decide)
  exact hselect .byElement _ 6 { hcounts with table := fun _ => by decide } (by decide)

/-- On more ranks than the index allows, a rank leaves the defined behaviour of the ByElement
setup, while ranks of smaller number may go on. -/
theorem not_runsInStep_of_table (hP : 0 < P) {rawPatches : Fin P → List (List Hash)}
    (h : WithinLimits .byElement rawPatches globalIds) (htable : ¬ TableFits P)
    (dev : Fin P → Device) (fuel : ℕ) :
    ¬ RunsInStep C .byElement dev fuel rawPatches globalIds := by
  have hmap := together_mapHashesToElementIds (C := C)
    ((mapHashes_eq_ok_iff hP _).mpr ⟨h.hashes, rfl⟩)
  have hcheck : ∀ r, (if (globalIds r).length ≠ (rawPatches r).length then
      .error (idCountError (globalIds r).length (rawPatches r).length) else .ok ()) =
      (.ok () : Except Fault Unit) := fun r => if_neg (not_not.mpr (h.ids_length r))
  have htotal : displacement (fun r => (idRows rawPatches r).length) P =
      (gather rawPatches).length := ByElementRun.displacement_length_idRows
  obtain ⟨q, hover⟩ := together_prepare_overflow (C := C) hP N_mapped
    Incidence.length_globalUniq_le_two_pow idPatches_mapped
    (fun _ _ _ he => ByElementRun.lt_of_mem_idRows he) (htotal ▸ h.slots rfl)
    (fun r => by rw [h.ids_length, length_idRows]) fun hcounts => htable hcounts.2
  obtain ⟨trace, hrun⟩ : Together (fun r => (RankPrograms.patchSelect .byElement (dev r) fuel r
      (rawPatches r) (globalIds r) : RankM P C (ℕ × PatchSelection))) (.undefined q .overflow) :=
    Spmd.Together.lift hcheck (hmap.bind (hover.bind_undefined _))
  intro hin
  obtain ⟨trace', ending, hrun', hend, _⟩ := hin
  rcases hrun.eq_undefined Matches Undefined
    (fun hm hm' => (replies_eq hm).trans (replies_eq hm').symm) hrun' with
    ⟨q', e', rfl⟩ | ⟨es, rfl, hes⟩
  · cases hend
  · cases hend with
    | rejected what _ => cases hes

/-- One patch on each of 46341 ranks. -/
theorem not_ranks_in_step_many_ranks :
    ¬ RunsInStep ℕ .byElement (fun _ => Device.inOrder) 3 (onePatchEach 46341)
      (oneIdEach 46341) :=
  not_runsInStep_of_table (by decide) (withinLimits_onePatchEach _ (by decide)) (by decide) _ _

end Main

end PatternSearch.LockStepRun
