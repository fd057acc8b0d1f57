import PatternSearch.ByPatchRun

/-!
What holds at the head of the ByPatch loop, in every run and whatever order the threads of the
kernels run in. All ranks hold the union of the selected patches, and every score is the
number of uncovered elements of its patch, or the disabled score once the patch is selected.
So the score of a winner is the length of the list that its rank writes. The lists of
different iterations are disjoint, and no score is lowered twice for one element.
-/

namespace PatternSearch.ByPatchInvariant

open Machine Collectives Csr Transpose WordBits Kernels FirstMaximum GreedyCover Selection
  HashMapping IdAssignment Setup ByPatch ByPatchRun

variable {P : ℕ}

/-- The list that an iteration handed to the set_bits and the score kernel of a rank. -/
def appliedIds (before after : RankState) : List ElementId :=
  after.newlyCoveredIds.take (after.result.coveredCount - before.result.coveredCount)

/-- The atomic operations of the score kernel, each with the element it is made for. -/
def touchedBy (inv : InvertedIndex) (newlyIds : List ElementId) : List (ElementId × PatchId) :=
  newlyIds.flatMap fun e => (affectedPatches inv e).map fun q => (e, q)

/-- The loop heads that the selector reaches, with the lists of the iterations so far. -/
inductive Run (dev : Fin P → Device) (ps : Fin P → PatchSet) (globalIds : Fin P → List PatchId) :
    (Fin P → RankState) → List (Fin P → List ElementId) → Prop
  | start : Run dev ps globalIds (fun r => initialState (ps r)) []
  | step {st next : Fin P → RankState} {log : List (Fin P → List ElementId)} :
      Run dev ps globalIds st log → selectStep dev ps globalIds st = .ok (.inl next) →
      Run dev ps globalIds next (log ++ [fun r => appliedIds (st r) (next r)])

/-- The states of all ranks at a loop head, by the patches selected so far: each is given by
its rank and its number there. -/
structure AtHead (ps : Fin P → PatchSet) (globalIds : Fin P → List PatchId)
    (picked : List (Fin P × PatchId)) (st : Fin P → RankState) : Prop where
  picked_lt : ∀ w ∈ picked, w.2 < (ps w.1).patches.M
  picked_nodup : picked.Nodup
  selected : ∀ r, (st r).result.selected = picked.map fun w => (globalIds w.1).getD w.2 0
  covered_eq : ∀ r s, (st r).covered = (st s).covered
  covered : ∀ r id,
    testBit (st r).covered id = true ↔ ∃ w ∈ picked, id ∈ (ps w.1).patches.patch w.2
  coveredCount : ∀ r, (st r).result.coveredCount = countBits (st r).covered
  scores_length : ∀ r, (st r).scores.length = (ps r).patches.M
  score : ∀ r, ∀ q < (ps r).patches.M, (r, q) ∉ picked → (st r).scores.getD q 0 =
    (((ps r).patches.patch q).filter fun e => testBit (st r).covered e = false).length
  disabled : ∀ r q, (r, q) ∈ picked → (st r).scores.getD q 0 = -1 ∧
    ∀ e ∈ (ps r).patches.patch q, testBit (st r).covered e = true

/-- Rank q wins the iteration that starts here. -/
structure Wins (ps : Fin P → PatchSet) (st : Fin P → RankState) (best : Fin P → ℤ × PatchId)
    (q : Fin P) : Prop where
  more : ∀ r, (st r).result.coveredCount < (ps r).N
  best_eq : ∀ r, localBest (ps r) (st r) = .ok (best r)
  maxloc : allreduceMaxloc (fun r => (best r).1) = fun _ => ((best q).1, q.val)
  pos : 0 < (best q).1

/-- An iteration that patch p of rank q wins with a score. In any order the build kernel fills
the front of any buffer with room for the score, and writes nowhere else. Whatever the devices
do, the ranks apply one such list and are at a loop head again, with the patch selected. -/
structure Iterates (ps : Fin P → PatchSet) (globalIds : Fin P → List PatchId)
    (picked : List (Fin P × PatchId)) (st : Fin P → RankState) (q : Fin P) (p : PatchId)
    (score : ℤ) : Prop where
  emits : ∀ (d : Device) (iteration : ℕ) (buf : List ElementId), score ≤ buf.length →
    ∃ newly, ListsUncovered ((ps q).patches.patch p) (st q).covered score newly ∧
      d.launch iteration 0 ((ps q).patches.patch p) (emitUncovered (st q).covered)
        { ids := buf, count := 0 } =
          .ok { ids := newly ++ buf.drop newly.length, count := newly.length }
  applies : ∀ dev : Fin P → Device, ∃ next newly,
    selectStep dev ps globalIds st = .ok (.inl next) ∧
      ListsUncovered ((ps q).patches.patch p) (st q).covered score newly ∧
      (∀ r, appliedIds (st r) (next r) = newly) ∧
      AtHead ps globalIds (picked ++ [(q, p)]) next

/-- The lists of a run are those that its score kernels are launched with. -/
theorem appliedIds_of_applyNewlyCovered {d : Device} {ps : PatchSet} {st next : RankState}
    {isWinner : Bool} {localPatch : PatchId} {winner : Winner} {ids : List ElementId}
    (h : applyNewlyCovered d ps st isWinner localPatch winner ids = .ok next) :
    appliedIds st next = ids.take winner.score.toNat := by
  obtain ⟨covered, -, h⟩ := bind_eq_ok.mp h
  obtain ⟨updated, -, h⟩ := bind_eq_ok.mp h
  obtain rfl := Except.ok.inj h
  rw [appliedIds, Nat.add_sub_cancel_left]

theorem map_snd_touchedBy (inv : InvertedIndex) (newlyIds : List ElementId) :
    (touchedBy inv newlyIds).map Prod.snd = scoreThreads inv newlyIds := by
  rw [touchedBy, scoreThreads, List.map_flatMap]
  apply List.flatMap_congr
  intro e _
  rw [List.map_map]
  exact List.map_id _

/-- Different elements are different incidences, and an element is in a patch once. -/
theorem nodup_touchedBy {patches : PatchCsr} (hrows : ∀ p, (patches.patch p).Nodup)
    {newlyIds : List ElementId} (hnodup : newlyIds.Nodup) :
    (touchedBy (buildInvertedIndex patches) newlyIds).Nodup := by
  refine List.nodup_flatMap.mpr ⟨fun e _ => ?_, ?_⟩
  · rw [affectedPatches_buildInvertedIndex hrows]
    exact (List.nodup_range.filter _).map fun a b h => (Prod.mk.inj h).2
  · refine hnodup.imp fun hne => ?_
    intro x hx hy
    obtain ⟨a, -, rfl⟩ := List.mem_map.mp hx
    obtain ⟨b, -, hb⟩ := List.mem_map.mp hy
    exact hne (Prod.mk.inj hb).1.symm

/-- A positive best score is the score of a patch of the rank. -/
theorem localBest_spec {ps : PatchSet} {st : RankState} {best : ℤ × PatchId}
    (h : localBest ps st = .ok best) (hpos : 0 < best.1) :
    best.2 < st.scores.length ∧ best.1 = st.scores.getD best.2 0 := by
  unfold localBest at h
  split_ifs at h with hM
  · exact argMax_spec h
  · obtain rfl := Except.ok.inj h
    exact absurd hpos (by decide)

section Invariant

variable {N : ℕ} {rows : Fin P → List (List ElementId)} {ps : Fin P → PatchSet}
  {globalIds : Fin P → List PatchId} {dev : Fin P → Device} {t : Progress}
  {st next : Fin P → RankState} {picked : List (Fin P × PatchId)}

/-- The states stand for the progress that selects these patches. -/
structure Follows (rows : Fin P → List (List ElementId)) (N : ℕ) (globalIds : Fin P → List PatchId)
    (picked : List (Fin P × PatchId)) (t : Progress) (st : Fin P → RankState) : Prop where
  stands : Stands rows N globalIds t st
  selected : t.selected = picked.map fun w => slotOf rows w.1 w.2
  picked_lt : ∀ w ∈ picked, w.2 < (rows w.1).length
  picked_nodup : picked.Nodup
  covered : ∀ e, e ∈ t.covered ↔ ∃ w ∈ picked, e ∈ (rows w.1).getD w.2 []

theorem follows_initialState (hload : Holds rows N ps globalIds) :
    Follows rows N globalIds [] Progress.start fun r => initialState (ps r) where
  stands := stands_initialState hload
  selected := rfl
  picked_lt w hw := absurd hw List.not_mem_nil
  picked_nodup := List.nodup_nil
  covered e := by simp [Progress.start]

theorem Follows.slot_mem_iff (h : Follows rows N globalIds picked t st) {r : Fin P} {p : ℕ}
    (hp : p < (rows r).length) : slotOf rows r p ∈ t.selected ↔ (r, p) ∈ picked := by
  rw [h.selected, List.mem_map]
  constructor
  · intro hmem
    obtain ⟨w, hw, heq⟩ := hmem
    obtain ⟨hr, hpw⟩ := slotOf_injective rows (h.picked_lt w hw) hp heq
    rw [← hr, ← hpw]
    exact hw
  · intro hmem
    exact ⟨(r, p), hmem, rfl⟩

theorem patch_eq (hload : Holds rows N ps globalIds) (r : Fin P) (p : ℕ) :
    (ps r).patches.patch p = (rows r).getD p [] := by
  rw [hload.patches_eq, patch_eq_getD]

theorem M_eq (hload : Holds rows N ps globalIds) (r : Fin P) :
    (ps r).patches.M = (rows r).length := by
  rw [hload.patches_eq, M_buildPatchCsr]

theorem Follows.testBit_iff (h : Follows rows N globalIds picked t st) (r : Fin P) (e : ℕ) :
    testBit (st r).covered e = true ↔ e ∈ t.covered := by
  rw [(h.stands.covered r).test_eq, decide_eq_true_eq]

theorem Follows.testBit_false_iff (h : Follows rows N globalIds picked t st) (r : Fin P) (e : ℕ) :
    testBit (st r).covered e = false ↔ e ∉ t.covered := by
  rw [(h.stands.covered r).test_eq, decide_eq_false_iff_not]

theorem Follows.atHead (hload : Holds rows N ps globalIds)
    (h : Follows rows N globalIds picked t st) : AtHead ps globalIds picked st where
  picked_lt w hw := by
    rw [M_eq hload]
    exact h.picked_lt w hw
  picked_nodup := h.picked_nodup
  selected r := by
    have hlen : (fun s => (globalIds s).length) = fun s => (rows s).length :=
      funext hload.ids_length
    rw [h.stands.result_eq, Progress.result, h.selected, List.map_map]
    apply List.map_congr_left
    intro w hw
    have hlt : w.2 < (globalIds w.1).length := by
      rw [hload.ids_length]
      exact h.picked_lt w hw
    rw [Function.comp_apply, gidOf, slotOf, ← hlen, getD_gather globalIds w.1 hlt]
  covered_eq r s := (h.stands.covered r).unique (h.stands.covered s)
  covered r id := by
    simp only [h.testBit_iff, h.covered, patch_eq hload]
  coveredCount r := by
    rw [h.stands.result_eq, (h.stands.covered r).countBits_eq, Progress.result]
  scores_length r := by rw [h.stands.scores_length, M_eq hload]
  score r q hq hnot := by
    rw [M_eq hload] at hq
    have hslot : slotOf rows r q ∉ t.selected := fun hmem => hnot ((h.slot_mem_iff hq).mp hmem)
    rw [h.stands.scores r q hq, signedScore, if_neg hslot,
      gain_eq_length_filter (rowSet_slotOf rows r hq) ((hload.fits_rank r).nodup q),
      patch_eq hload]
    simp only [h.testBit_false_iff]
  disabled r q hmem := by
    have hq : q < (rows r).length := h.picked_lt (r, q) hmem
    constructor
    · rw [h.stands.scores r q hq, signedScore, if_pos ((h.slot_mem_iff hq).mpr hmem)]
      rfl
    · intro e he
      rw [patch_eq hload] at he
      rw [h.testBit_iff, h.covered]
      exact ⟨(r, q), hmem, he⟩

/-- A winner's patch is one of its rank's, not selected yet, and its score is its gain. -/
theorem Follows.winner (hload : Holds rows N ps globalIds)
    (h : Follows rows N globalIds picked t st) {best : Fin P → ℤ × PatchId} {q : Fin P}
    (hwins : Wins ps st best q) :
    (best q).2 < (rows q).length ∧
      (best q).1 = signedScore (rowSet (gather rows)) t (slotOf rows q (best q).2) ∧
      (q, (best q).2) ∉ picked ∧
      (best q).1 = gain (rowSet (gather rows)) t.covered (slotOf rows q (best q).2) ∧
      t.covered.card < N := by
  obtain ⟨hp, hscore⟩ := localBest_spec (hwins.best_eq q) hwins.pos
  rw [h.stands.scores_length] at hp
  rw [h.stands.scores q _ hp] at hscore
  have hpos := hwins.pos
  rw [hscore] at hpos
  obtain ⟨hnot, hgain⟩ := scores_signedScore.of_pos (List.mem_singleton_self _) hpos
  have hmore := hwins.more q
  rw [h.stands.result_eq, hload.N_eq] at hmore
  exact ⟨hp, hscore, fun hmem => hnot ((h.slot_mem_iff hp).mpr hmem), hscore.trans hgain, hmore⟩

theorem listsUncovered_of_newly (hload : Holds rows N ps globalIds)
    (h : Follows rows N globalIds picked t st) {q : Fin P} {p : ℕ} (hp : p < (rows q).length)
    {score : ℤ} (hscore : score = gain (rowSet (gather rows)) t.covered (slotOf rows q p))
    {newly : List ElementId} (hnewly : Newly rows t q p newly) :
    ListsUncovered ((ps q).patches.patch p) (st q).covered score newly := by
  have hnodup := (hload.fits_rank q).nodup p
  rw [patch_eq hload]
  apply listsUncovered_of_perm (h.stands.covered q) hnodup hnewly.perm
  rw [hscore, gain_eq_length_filter (rowSet_slotOf rows q hp) hnodup]

/-- The step lemma: an iteration with a winner selects its patch. -/
theorem Follows.step (hP : 0 < P) (hload : Holds rows N ps globalIds)
    (h : Follows rows N globalIds picked t st) {best : Fin P → ℤ × PatchId} {q : Fin P}
    (hwins : Wins ps st best q) (dev : Fin P → Device) :
    ∃ next newly, selectStep dev ps globalIds st = .ok (.inl next) ∧
      Newly rows t q (best q).2 newly ∧ (∀ r, appliedIds (st r) (next r) = newly) ∧
      Follows rows N globalIds (picked ++ [(q, (best q).2)])
        (t.pick (rowSet (gather rows)) (slotOf rows q (best q).2)) next := by
  obtain ⟨hp, hscore, hnot, hgain, hmore⟩ := h.winner hload hwins
  obtain ⟨next, newly, hstep, hstands, hnewly, hshipped⟩ := selectStep_of_winner dev hP hload
    h.stands hmore hwins.best_eq hwins.maxloc hp hscore hwins.pos
  refine ⟨next, newly, hstep, hnewly, ?_, ?_⟩
  · intro r
    have hcard : (t.pick (rowSet (gather rows)) (slotOf rows q (best q).2)).covered.card =
        t.covered.card + gain (rowSet (gather rows)) t.covered (slotOf rows q (best q).2) :=
      card_union_eq_add_gain _
    have hcount : (next r).result.coveredCount - (st r).result.coveredCount =
        (best q).1.toNat := by
      rw [hstands.result_eq, h.stands.result_eq, Progress.result, Progress.result]
      simp only
      omega
    rw [appliedIds, hcount]
    exact hshipped r
  · exact
      { stands := hstands
        selected := by rw [Progress.pick, h.selected, List.map_append, List.map_singleton]
        picked_lt := by
          intro w hw
          rcases List.mem_append.mp hw with hw | hw
          · exact h.picked_lt w hw
          · rw [List.mem_singleton.mp hw]
            exact hp
        picked_nodup := by
          apply List.nodup_append.mpr
          refine ⟨h.picked_nodup, List.nodup_singleton _, ?_⟩
          intro a ha b hb hab
          rw [hab, List.mem_singleton.mp hb] at ha
          exact hnot ha
        covered := by
          intro e
          have hpick : e ∈ (t.pick (rowSet (gather rows)) (slotOf rows q (best q).2)).covered ↔
              e ∈ t.covered ∨ e ∈ (rows q).getD (best q).2 [] := by
            rw [Progress.pick, Finset.mem_union, rowSet_slotOf rows q hp, List.mem_toFinset]
          simp only [hpick, h.covered, List.mem_append, List.mem_singleton, or_and_right,
            exists_or, exists_eq_left] }

/-- An iteration that goes on has a winner. -/
theorem exists_wins (hP : 0 < P) (hload : Holds rows N ps globalIds)
    (h : Follows rows N globalIds picked t st)
    (hstep : selectStep dev ps globalIds st = .ok (.inl next)) :
    ∃ best q, Wins ps st best q := by
  obtain ⟨more, hagree, hstep⟩ := bind_eq_ok.mp hstep
  rw [agree_more hP hload h.stands] at hagree
  obtain rfl := Except.ok.inj hagree
  split_ifs at hstep with hmore
  · obtain ⟨best, hbest, hstep⟩ := bind_eq_ok.mp hstep
    obtain ⟨q, -, hmaxloc⟩ := allreduceMaxloc_spec (fun r => (best r).1) hP
    refine ⟨best, q, ?_, onRanks_eq_ok_iff.mp hbest, hmaxloc, ?_⟩
    · intro r
      rw [h.stands.result_eq, hload.N_eq]
      exact of_decide_eq_true hmore
    · by_contra hpos
      have hstop : decide ((best q).1 ≤ 0) = true := by simpa using hpos
      simp only [hmaxloc, hstop, agree_const hP, ok_bind, if_true] at hstep
      cases Except.ok.inj hstep
  · cases Except.ok.inj hstep

/-- What the iterations of a run have applied: the covered elements, each once. -/
structure Logged (t : Progress) (log : List (Fin P → List ElementId)) : Prop where
  nodup : ∀ r, (log.flatMap fun lists => lists r).Nodup
  mem_iff : ∀ r e, e ∈ (log.flatMap fun lists => lists r) ↔ e ∈ t.covered

/-- What a winner newly covers has not been applied before. -/
theorem Logged.step (hload : Holds rows N ps globalIds) {log : List (Fin P → List ElementId)}
    (h : Logged t log) {q : Fin P} {p : ℕ} (hp : p < (rows q).length) {newly : List ElementId}
    (hnewly : Newly rows t q p newly) {lists : Fin P → List ElementId}
    (hlists : ∀ r, lists r = newly) :
    Logged (t.pick (rowSet (gather rows)) (slotOf rows q p)) (log ++ [lists]) := by
  have hmem : ∀ e, e ∈ newly ↔ e ∈ (rows q).getD p [] ∧ e ∉ t.covered := by
    intro e
    rw [hnewly.perm.mem_iff, List.mem_filter, decide_eq_true_eq]
  constructor
  · intro r
    rw [List.flatMap_append, List.flatMap_singleton, hlists]
    apply List.nodup_append.mpr
    refine ⟨h.nodup r, hnewly.nodup hload, ?_⟩
    intro a ha b hb hab
    exact ((hmem b).mp hb).2 (hab ▸ (h.mem_iff r a).mp ha)
  · intro r e
    rw [List.flatMap_append, List.flatMap_singleton, hlists, List.mem_append, h.mem_iff, hmem,
      Progress.pick, Finset.mem_union, rowSet_slotOf rows q hp, List.mem_toFinset]
    tauto

/-- The run lemma. -/
theorem follows_of_run (hP : 0 < P) (hload : Holds rows N ps globalIds)
    {log : List (Fin P → List ElementId)} (hrun : Run dev ps globalIds st log) :
    ∃ picked t, Follows rows N globalIds picked t st ∧ Logged t log := by
  induction hrun with
  | start =>
    refine ⟨[], Progress.start, follows_initialState hload, ?_, ?_⟩
    · intro r
      exact List.nodup_nil
    · intro r e
      simp [Progress.start]
  | step _ hstep ih =>
    obtain ⟨picked, t, hfollows, hlogged⟩ := ih
    obtain ⟨best, q, hwins⟩ := exists_wins hP hload hfollows hstep
    obtain ⟨next, newly, hstep', hnewly, happlied, hnext⟩ := hfollows.step hP hload hwins dev
    rw [hstep] at hstep'
    obtain rfl := Sum.inl.inj (Except.ok.inj hstep')
    exact ⟨_, _, hnext, hlogged.step hload (hfollows.winner hload hwins).1 hnewly happlied⟩

theorem Follows.iterates (hP : 0 < P) (hload : Holds rows N ps globalIds)
    (h : Follows rows N globalIds picked t st) {best : Fin P → ℤ × PatchId} {q : Fin P}
    (hwins : Wins ps st best q) :
    Iterates ps globalIds picked st q (best q).2 (best q).1 := by
  obtain ⟨hp, -, -, hgain, -⟩ := h.winner hload hwins
  constructor
  case emits =>
    intro d iteration buf hroom
    have hlen : (((rows q).getD (best q).2 []).filter fun e => e ∉ t.covered).length =
        gain (rowSet (gather rows)) t.covered (slotOf rows q (best q).2) :=
      (gain_eq_length_filter (rowSet_slotOf rows q hp) ((hload.fits_rank q).nodup _)).symm
    have hsmall := hload.gain_le t.covered hp
    obtain ⟨newly, hperm, hrun⟩ := launch_emitUncovered d iteration 0 (h.stands.covered q)
      ((rows q).getD (best q).2 []) buf (fun e he => hload.mem_row_lt he)
      (le_trans (le_of_eq hlen) (by omega))
      (lt_of_le_of_lt (le_of_eq hlen) (by unfold intMax at hsmall; omega))
    rw [patch_eq hload]
    have hlists := listsUncovered_of_newly hload h hp hgain ⟨hperm⟩
    rw [patch_eq hload] at hlists
    exact ⟨newly, hlists, hrun⟩
  case applies =>
    intro dev
    obtain ⟨next, newly, hstep, hnewly, happlied, hnext⟩ := h.step hP hload hwins dev
    exact ⟨next, newly, hstep, listsUncovered_of_newly hload h hp hgain hnewly, happlied,
      hnext.atHead hload⟩

end Invariant

/-- In every run every loop head meets the invariant, an iteration with a winner is as it
should be whatever the devices do, and no incidence has been touched twice. -/
theorem atHead_of_run (hP : 0 < P) {rawPatches : Fin P → List (List Hash)}
    {globalIds : Fin P → List PatchId}
    (hids : ∀ r, (globalIds r).length = (rawPatches r).length) {ps : Fin P → PatchSet}
    (hps : buildPatchSet rawPatches = .ok ps) {dev : Fin P → Device} {st : Fin P → RankState}
    {log : List (Fin P → List ElementId)} (hrun : Run dev ps globalIds st log) :
    ∃ picked, AtHead ps globalIds picked st ∧
      (∀ dev' next, selectStep dev' ps globalIds st = .ok (.inl next) →
        ∃ best q, Wins ps st best q) ∧
      (∀ best q, Wins ps st best q →
        Iterates ps globalIds picked st q (best q).2 (best q).1) ∧
      ∀ r, (log.flatMap fun lists => touchedBy (ps r).inv (lists r)).Nodup := by
  obtain ⟨hfit, rfl⟩ := (buildPatchSet_eq_ok_iff hP ps).mp hps
  have hload := holds_patchSets hfit hids
  obtain ⟨picked, t, hfollows, hlogged⟩ := follows_of_run hP hload hrun
  refine ⟨picked, hfollows.atHead hload, ?_, ?_, ?_⟩
  · intro dev' next hstep
    exact exists_wins hP hload hfollows hstep
  · intro best q hwins
    exact hfollows.iterates hP hload hwins
  · intro r
    have htouched := nodup_touchedBy (hload.nodup r) (hlogged.nodup r)
    rw [touchedBy, List.flatMap_assoc] at htouched
    exact htouched

/-- Two ranks, rank 0 wins with a patch of two elements. -/
theorem atHead_of_run_two_ranks :
    ∃ ps picked next newly, buildPatchSet ![[[5, 7], [7]], [[9]]] = .ok ps ∧
      AtHead ps ![[10, 20], [30]] picked (fun r => initialState (ps r)) ∧
      selectStep (fun _ : Fin 2 => Device.inOrder) ps ![[10, 20], [30]]
        (fun r => initialState (ps r)) = .ok (.inl next) ∧
      ListsUncovered [0, 1] (initialState (ps 0)).covered 2 newly ∧
      AtHead ps ![[10, 20], [30]] (picked ++ [(0, 0)]) next := by
  have hps : buildPatchSet ![[[5, 7], [7]], [[9]]] =
      .ok fun r => patchSetOf (mapped ![[[5, 7], [7]], [[9]]] r) :=
    (buildPatchSet_eq_ok_iff (by decide) _).mpr ⟨countsFit_of_total_le (by decide), rfl⟩
  have hwins : Wins (fun r => patchSetOf (mapped ![[[5, 7], [7]], [[9]]] r))
      (fun r => initialState (patchSetOf (mapped ![[[5, 7], [7]], [[9]]] r)))
      ![(2, 0), (1, 0)] 0 :=
    { more := by decide +kernel
      best_eq := by decide +kernel
      maxloc := by decide +kernel
      pos := by decide }
  obtain ⟨picked, hhead, -, hiterates, -⟩ := atHead_of_run (P := 2) (by decide) (by decide) hps
    (show Run (fun _ => Device.inOrder) _ ![[10, 20], [30]] _ [] from Run.start)
  obtain ⟨next, newly, hstep, hlists, -, hnext⟩ :=
    (hiterates _ 0 hwins).applies fun _ => Device.inOrder
  have hpatch : (patchSetOf (mapped ![[[5, 7], [7]], [[9]]] 0)).patches.patch 0 = [0, 1] := by
    decide +kernel
  exact ⟨_, picked, next, newly, hps, hhead, hstep, hpatch ▸ hlists, hnext⟩

end PatternSearch.ByPatchInvariant
