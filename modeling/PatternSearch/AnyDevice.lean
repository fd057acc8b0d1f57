import PatternSearch.ByPatchInvariant
import PatternSearch.Selector
import PatternSearch.TwoRuns

/-!
What the devices choose does not show in the result. Two runs on the same input whose
threads run in other orders, on memory with other contents, stand for the same progress at
every loop head; they pick the same patches and end alike, also when they do not return.
-/

namespace PatternSearch.AnyDevice

open Machine Collectives Csr Kernels Loops TwoRuns FirstMaximum GreedyCover Selection HashMapping
  IdAssignment Setup Selector

variable {P N : ℕ} {rows : Fin P → List (List ElementId)} {globalIds : Fin P → List PatchId}

section ByPatch

open ByPatch ByPatchRun

variable {ps : Fin P → PatchSet} {st st' : Fin P → ByPatch.RankState}

/-- Both runs stand for one progress. -/
def Together (rows : Fin P → List (List ElementId)) (N : ℕ) (globalIds : Fin P → List PatchId)
    (st st' : Fin P → ByPatch.RankState) : Prop :=
  ∃ t, ByPatchRun.Stands rows N globalIds t st ∧ ByPatchRun.Stands rows N globalIds t st'

/-- The scores of a progress are determined, so the ranks offer the same. -/
theorem localBest_eq {t : Progress} (hst : ByPatchRun.Stands rows N globalIds t st)
    (hst' : ByPatchRun.Stands rows N globalIds t st') (r : Fin P) :
    localBest (ps r) (st r) = localBest (ps r) (st' r) := by
  have hscores : (st r).scores = (st' r).scores := by
    apply List.ext_getElem
    · rw [hst.scores_length, hst'.scores_length]
    · intro p hp hp'
      have h := hst.scores r p (by rw [← hst.scores_length]; exact hp)
      have h' := hst'.scores r p (by rw [← hst.scores_length]; exact hp)
      rw [List.getD_eq_getElem _ _ hp] at h
      rw [List.getD_eq_getElem _ _ hp'] at h'
      exact h.trans h'.symm
  rw [localBest, localBest, hscores]

theorem alike_selectStep (dev dev' : Fin P → Device) (hP : 0 < P)
    (hload : Holds rows N ps globalIds) (h : Together rows N globalIds st st') :
    Alike (Alike.Steps (Together rows N globalIds) Eq)
      (selectStep dev ps globalIds st) (selectStep dev' ps globalIds st') := by
  obtain ⟨t, hst, hst'⟩ := h
  by_cases hmore : t.covered.card < N
  · have hsame : (fun r => localBest (ps r) (st r)) = fun r => localBest (ps r) (st' r) :=
      funext (localBest_eq hst hst')
    cases hrun : onRanks fun r => localBest (ps r) (st r) with
    | error e =>
      rw [selectStep_of_fault dev hP hload hst hmore hrun,
        selectStep_of_fault dev' hP hload hst' hmore (hsame ▸ hrun)]
      exact .error e
    | ok best =>
      obtain ⟨q, -, hmaxloc⟩ := allreduceMaxloc_spec (fun r => (best r).1) hP
      by_cases hpos : 0 < (best q).1
      · obtain ⟨hp, hscore⟩ := ByPatchInvariant.localBest_spec (onRanks_eq_ok_iff.mp hrun q) hpos
        rw [hst.scores_length] at hp
        rw [hst.scores q _ hp] at hscore
        obtain ⟨next, _, hstep, hnext, _⟩ := selectStep_of_winner dev hP hload hst hmore
          (onRanks_eq_ok_iff.mp hrun) hmaxloc hp hscore hpos
        obtain ⟨next', _, hstep', hnext', _⟩ := selectStep_of_winner dev' hP hload hst' hmore
          (onRanks_eq_ok_iff.mp (hsame ▸ hrun)) hmaxloc hp hscore hpos
        rw [hstep, hstep']
        exact .ok (.go ⟨_, hnext, hnext'⟩)
      · rw [selectStep_of_exhausted dev hP hload hst hmore hrun hmaxloc hpos,
          selectStep_of_exhausted dev' hP hload hst' hmore (hsame ▸ hrun) hmaxloc hpos]
        exact .ok (.leave rfl)
  · rw [selectStep_of_covered dev hP hload hst hmore,
      selectStep_of_covered dev' hP hload hst' hmore]
    exact .ok (.leave rfl)

theorem byPatch_eq (dev dev' : Fin P → Device) (hP : 0 < P) (fuel : ℕ)
    {rawPatches : Fin P → List (List Hash)}
    (hids : ∀ r, (globalIds r).length = (rawPatches r).length) :
    ByPatch.patchSelect dev fuel rawPatches globalIds =
      ByPatch.patchSelect dev' fuel rawPatches globalIds := by
  apply Alike.eq
  apply Alike.bind_same
  intro ps hps
  obtain ⟨hfit, rfl⟩ := (buildPatchSet_eq_ok_iff hP ps).mp hps
  have hload := holds_patchSets hfit hids
  have hstart := ByPatchRun.stands_initialState hload
  exact Alike.loop (fun _ _ h => alike_selectStep dev dev' hP hload h) fuel ⟨_, hstart, hstart⟩

end ByPatch

section ByElement

open ByElement ByElementRun

variable {st st' : Fin P → ByElement.RankState}

/-- Both runs stand for one progress with the same done flag. -/
def Alongside (N : ℕ) (rows : Fin P → List (List ElementId))
    (st st' : Fin P → ByElement.RankState) : Prop :=
  ∃ t finished, ByElementRun.Stands N rows t finished st ∧
    ByElementRun.Stands N rows t finished st'

theorem alike_elemIteration (dev dev' : Fin P → Device) (hP : 0 < P)
    (h : ByElementRun.Loaded N rows globalIds) (hM : 0 < (gather rows).length)
    (hst : Alongside N rows st st') :
    Alike (Alongside N rows) (elemIteration dev (ElementSetup.elemSetup N rows globalIds) st)
      (elemIteration dev' (ElementSetup.elemSetup N rows globalIds) st') := by
  obtain ⟨t, finished, hst, hst'⟩ := hst
  obtain ⟨next, hstep, houtcome⟩ := elemIteration_outcome dev hP h hM hst
  obtain ⟨next', hstep', houtcome'⟩ := elemIteration_outcome dev' hP h hM hst'
  rw [hstep, hstep']
  apply Alike.ok
  cases houtcome with
  | idle hsame =>
    cases houtcome' with
    | idle hsame' =>
      subst hsame hsame'
      exact ⟨t, true, hst, hst'⟩
  | stop hnone hnext _ =>
    cases houtcome' with
    | stop _ hnext' _ => exact ⟨t, true, hnext, hnext'⟩
    | pick i hmax hgain _ _ _ => exact absurd (hnone i hmax.mem) (by omega)
  | pick i hmax hgain _ hnext _ =>
    cases houtcome' with
    | stop hnone _ _ => exact absurd (hnone i hmax.mem) (by omega)
    | pick j hmax' _ _ hnext' _ =>
      obtain rfl := hmax.unique hmax'
      exact ⟨_, _, hnext, hnext'⟩

theorem alike_batchStep (dev dev' : Fin P → Device) (hP : 0 < P)
    (h : ByElementRun.Loaded N rows globalIds) (hM : 0 < (gather rows).length)
    (hst : Alongside N rows st st') :
    Alike (Alike.Steps (Alongside N rows) (Alongside N rows))
      (batchStep dev (ElementSetup.elemSetup N rows globalIds) st)
      (batchStep dev' (ElementSetup.elemSetup N rows globalIds) st') := by
  have hbatch := Alike.foldlM (List.range kBatch)
    (fun _ _ _ hst => alike_elemIteration dev dev' hP h hM hst) hst
  apply hbatch.bind
  intro final final' hfinal
  obtain ⟨t, finished, hlast, hlast'⟩ := hfinal
  have hflags : (fun r => (final r).state.done) = fun r => (final' r).state.done :=
    funext fun r => by rw [(hlast.ranks r).state_eq, (hlast'.ranks r).state_eq]
  rw [hflags]
  apply Alike.bind_same
  intro done _
  cases done with
  | true => exact .ok (.leave ⟨t, finished, hlast, hlast'⟩)
  | false => exact .ok (.go ⟨t, finished, hlast, hlast'⟩)

theorem byElement_eq (dev dev' : Fin P → Device) (hP : 0 < P) (fuel : ℕ)
    {rawPatches : Fin P → List (List Hash)}
    (hids : ∀ r, (globalIds r).length = (rawPatches r).length) :
    ByElement.patchSelect dev fuel rawPatches globalIds =
      ByElement.patchSelect dev' fuel rawPatches globalIds := by
  apply Alike.eq
  apply Alike.bind_same
  intro m hmap
  obtain ⟨-, rfl⟩ := (mapHashes_eq_ok_iff hP m).mp hmap
  apply Alike.bind_same
  intro su hprepare
  obtain ⟨hload, rfl⟩ := loaded_of_prepare hP hids hprepare
  apply Alike.bind_same
  intro nothing hagree
  cases nothing with
  | true => exact .ok rfl
  | false =>
    have hM : 0 < (gather (idRows rawPatches)).length := by
      have hr := of_decide_eq_false (of_agree hagree ⟨0, hP⟩)
      simp only [ElementSetup.elemSetup] at hr
      omega
    rw [if_neg Bool.false_ne_true, if_neg Bool.false_ne_true]
    apply (Alike.loop (fun _ _ h => alike_batchStep dev dev' hP hload hM h) fuel
      ⟨_, _, ByElementRun.stands_initialState dev hP hload,
        ByElementRun.stands_initialState dev' hP hload⟩).bind
    intro final final' hfinal
    obtain ⟨t, finished, hlast, hlast'⟩ := hfinal
    rw [onRanks_eq_ok fun r => drain_eq_ok hload hlast r,
      onRanks_eq_ok fun r => drain_eq_ok hload hlast' r]
    exact Alike.refl _

end ByElement

/-- In either mode a call has the same outcome on all devices. -/
theorem patchSelect_eq (mode : PartitionMode) (dev dev' : Fin P → Device) (fuel : ℕ)
    (rawPatches : Fin P → List (List Hash)) (globalIds : Fin P → List PatchId) :
    Selector.patchSelect mode dev fuel rawPatches globalIds =
      Selector.patchSelect mode dev' fuel rawPatches globalIds := by
  cases P with
  | zero => rw [Subsingleton.elim dev dev']
  | succ P =>
    apply Alike.eq
    apply Alike.bind_same
    intro checked hcheck
    have hids : ∀ r, (globalIds r).length = (rawPatches r).length := by
      intro r
      have hr := onRanks_eq_ok_iff.mp hcheck r
      by_contra hne
      rw [if_pos hne] at hr
      cases hr
    cases mode with
    | byPatch =>
      rw [byPatch_eq dev dev' (Nat.succ_pos P) fuel hids]
      exact Alike.refl _
    | byElement =>
      rw [byElement_eq dev dev' (Nat.succ_pos P) fuel hids]
      exact Alike.refl _

end PatternSearch.AnyDevice
