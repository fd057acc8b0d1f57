import PatternSearch.ByPatch

/-!
The ByPatch loop computes the greedy selection. All ranks stand for the same progress: equal
results, equal covered sets, and for every local patch the number of its uncovered elements,
or the disabled score once it is selected. One iteration keeps this whatever order the
kernel threads run in, so every rank leaves the loop with the same greedy result.
-/

namespace PatternSearch.ByPatchRun

open Machine Collectives Csr Transpose WordBits Kernels Loops FirstMaximum GreedyCover Selection
  HashMapping IdAssignment Setup ByPatch

variable {P N : ℕ} {rows : Fin P → List (List ElementId)} {ps : Fin P → PatchSet}
  {globalIds : Fin P → List PatchId} {dev : Fin P → Device} {t : Progress}
  {st : Fin P → RankState}

/-- The patch sets of all ranks hold the given rows, one global id for each. -/
structure Holds (rows : Fin P → List (List ElementId)) (N : ℕ) (ps : Fin P → PatchSet)
    (globalIds : Fin P → List PatchId) : Prop where
  patches_eq : ∀ r, (ps r).patches = buildPatchCsr (rows r)
  inv_eq : ∀ r, (ps r).inv = buildInvertedIndex (buildPatchCsr (rows r))
  N_eq : ∀ r, (ps r).N = N
  fits : RowsFit (gather rows) N
  fits_rank : ∀ r, RowsFit (rows r) N
  size_le : ∀ r p, ((rows r).getD p []).length ≤ intMax
  ids_length : ∀ r, (globalIds r).length = (rows r).length

/-- And the ArgMax can count them. -/
structure Loaded (rows : Fin P → List (List ElementId)) (N : ℕ) (ps : Fin P → PatchSet)
    (globalIds : Fin P → List PatchId) : Prop extends Holds rows N ps globalIds where
  count_le : ∀ r, (rows r).length ≤ intMax

/-- The states of all ranks stand for one progress. -/
structure Stands (rows : Fin P → List (List ElementId)) (N : ℕ) (globalIds : Fin P → List PatchId)
    (t : Progress) (st : Fin P → RankState) : Prop where
  valid : t.Valid (rowSet (gather rows)) N
  result_eq : ∀ r, (st r).result = t.result (gidOf globalIds)
  covered : ∀ r, Represents (st r).covered N t.covered
  scores_length : ∀ r, (st r).scores.length = (rows r).length
  scores : ∀ r p, p < (rows r).length →
    (st r).scores.getD p 0 = signedScore (rowSet (gather rows)) t (slotOf rows r p)

theorem Holds.nodup (h : Holds rows N ps globalIds) (r : Fin P) (p : ℕ) :
    ((buildPatchCsr (rows r)).patch p).Nodup := by
  rw [patch_eq_getD]
  exact (h.fits_rank r).nodup p

theorem Holds.mem_row_lt (h : Holds rows N ps globalIds) {r : Fin P} {p : ℕ} {e : ElementId}
    (he : e ∈ (rows r).getD p []) : e < N :=
  Finset.mem_range.mp ((h.fits_rank r).subset p (List.mem_toFinset.mpr he))

/-- A gain is no larger than a patch, so it fits in int. -/
theorem Holds.gain_le (h : Holds rows N ps globalIds) (C : Finset ℕ) {r : Fin P} {p : ℕ}
    (hp : p < (rows r).length) : gain (rowSet (gather rows)) C (slotOf rows r p) ≤ intMax := by
  have hset := rowSet_slotOf rows r hp
  have hlen := h.size_le r p
  have hcard : (rowSet (gather rows) (slotOf rows r p)).card ≤ ((rows r).getD p []).length := by
    rw [hset]
    exact List.toFinset_card_le _
  have hsub := Finset.card_le_card
    (Finset.sdiff_subset (s := rowSet (gather rows) (slotOf rows r p)) (t := C))
  unfold gain
  omega

section Winner

/-- What the local ArgMax of a rank offers. -/
structure Offers (rows : Fin P → List (List ElementId)) (t : Progress) (r : Fin P)
    (best : ℤ × PatchId) : Prop where
  none : (rows r).length = 0 → best = (kDisabledScore, 0)
  some : 0 < (rows r).length →
    IsFirstMax (fun p => signedScore (rowSet (gather rows)) t (slotOf rows r p))
      (List.range (rows r).length) best.2 ∧
    best.1 = signedScore (rowSet (gather rows)) t (slotOf rows r best.2)

theorem localBest_eq_ok (hload : Loaded rows N ps globalIds) (hst : Stands rows N globalIds t st)
    (r : Fin P) : ∃ best, localBest (ps r) (st r) = .ok best ∧ Offers rows t r best := by
  have hM : (ps r).patches.M = (st r).scores.length := by
    rw [hload.patches_eq, M_buildPatchCsr, hst.scores_length]
  have hlen := hst.scores_length r
  unfold localBest
  rw [hM]
  by_cases hpos : 0 < (st r).scores.length
  · rw [if_pos hpos]
    obtain ⟨p, hmax, hrun⟩ := argMax_eq_ok hpos (by rw [hlen]; exact hload.count_le r)
    refine ⟨_, hrun, fun h => absurd h (by omega), fun _ => ?_⟩
    have hp : p < (rows r).length := by
      have hmem := List.mem_range.mp hmax.mem
      omega
    refine ⟨?_, hst.scores r p hp⟩
    rw [← hlen]
    apply hmax.congr
    intro q hq
    have hq := List.mem_range.mp hq
    exact hst.scores r q (by omega)
  · rw [if_neg hpos]
    exact ⟨_, rfl, fun _ => rfl, fun h => absurd h (by omega)⟩

variable {best : Fin P → ℤ × PatchId} {q : Fin P}

/-- No slot scores higher than what its rank offers. -/
theorem signedScore_le_best (hbest : ∀ r, Offers rows t r (best r)) (r : Fin P) {p : ℕ}
    (hp : p < (rows r).length) :
    signedScore (rowSet (gather rows)) t (slotOf rows r p) ≤ (best r).1 := by
  obtain ⟨hmax, heq⟩ := (hbest r).some (by omega)
  rw [heq]
  exact hmax.le (List.mem_range.mpr hp)

/-- A winner without uncovered elements ends the greedy run. -/
theorem finishes_of_exhausted (hst : Stands rows N globalIds t st)
    (hbest : ∀ r, Offers rows t r (best r))
    (hq : IsFirstMax (fun r => (best r).1) (List.finRange P) q) (hle : (best q).1 ≤ 0) :
    Finishes (rowSet (gather rows)) (List.range (gather rows).length) (gidOf globalIds) t
      (t.result (gidOf globalIds)) := by
  apply Finishes.of_done
  intro slot hslot
  apply scores_signedScore.gain_eq_zero hst.valid hslot
  obtain ⟨r, p, hp, rfl⟩ := exists_slotOf hslot
  calc
    signedScore (rowSet (gather rows)) t (slotOf rows r p) ≤ (best r).1 :=
      signedScore_le_best hbest r hp
    _ ≤ (best q).1 := hq.le (List.mem_finRange r)
    _ ≤ 0 := hle

/-- The first best rank and its first best patch are the first best slot. -/
theorem isFirstMax_slotOf (hbest : ∀ r, Offers rows t r (best r))
    (hq : IsFirstMax (fun r => (best r).1) (List.finRange P) q) (hpos : 0 < (best q).1) :
    (best q).2 < (rows q).length ∧
      IsFirstMax (signedScore (rowSet (gather rows)) t) (List.range (gather rows).length)
        (slotOf rows q (best q).2) ∧
      (best q).1 = signedScore (rowSet (gather rows)) t (slotOf rows q (best q).2) := by
  have hlen : 0 < (rows q).length := by
    by_contra hzero
    have h := (hbest q).none (by omega)
    rw [h] at hpos
    exact absurd hpos (by decide)
  obtain ⟨hmax, heq⟩ := (hbest q).some hlen
  refine ⟨List.mem_range.mp hmax.mem, ?_, heq⟩
  rw [length_gather, range_displacement]
  apply hq.flatMap hmax.map heq
  intro r _ slot hslot
  obtain ⟨p, hp, rfl⟩ := List.mem_map.mp hslot
  exact signedScore_le_best hbest r (List.mem_range.mp hp)

end Winner

section Iteration

variable {best : Fin P → ℤ × PatchId} {q : Fin P}

/-- The ids the winner newly covers, listed once each in some order. -/
structure Newly (rows : Fin P → List (List ElementId)) (t : Progress) (q : Fin P) (p : ℕ)
    (newly : List ElementId) : Prop where
  perm : newly.Perm (((rows q).getD p []).filter fun e => e ∉ t.covered)

theorem Newly.nodup (hload : Holds rows N ps globalIds) {p : ℕ} {newly : List ElementId}
    (h : Newly rows t q p newly) : newly.Nodup :=
  h.perm.nodup_iff.mpr (((hload.fits_rank q).nodup p).filter _)

theorem Newly.lt (hload : Holds rows N ps globalIds) {p : ℕ} {newly : List ElementId}
    (h : Newly rows t q p newly) {e : ElementId} (he : e ∈ newly) : e < N :=
  hload.mem_row_lt (List.mem_of_mem_filter (h.perm.mem_iff.mp he))

theorem Newly.toFinset_eq {p : ℕ} (hp : p < (rows q).length) {newly : List ElementId}
    (h : Newly rows t q p newly) :
    newly.toFinset = rowSet (gather rows) (slotOf rows q p) \ t.covered := by
  rw [List.toFinset_eq_of_perm _ _ h.perm, rowSet_slotOf rows q hp]
  ext e
  simp

theorem Newly.length_eq (hload : Holds rows N ps globalIds) {p : ℕ} (hp : p < (rows q).length)
    {newly : List ElementId} (h : Newly rows t q p newly) :
    newly.length = gain (rowSet (gather rows)) t.covered (slotOf rows q p) := by
  rw [← List.toFinset_card_of_nodup (h.nodup hload), h.toFinset_eq hp]
  rfl

/-- Every rank ends up with room for the list, and the winner's buffer starts with it. -/
theorem buildNewlyCovered_eq_ok (dev : Fin P → Device) (hload : Holds rows N ps globalIds)
    (hst : Stands rows N globalIds t st) {p c : ℕ} (hp : p < (rows q).length)
    (hc : c = gain (rowSet (gather rows)) t.covered (slotOf rows q p)) (r : Fin P)
    (localPatch : PatchId) (hlocal : r = q → localPatch = p) :
    ∃ ids, buildNewlyCovered (dev r) (ps r) (st r) (decide ((r : ℕ) = q)) localPatch c = .ok ids ∧
      c ≤ ids.length ∧ (r = q → Newly rows t q p (ids.take c)) := by
  set buf := if (st r).newlyCoveredIds.length < c then (dev r).alloc (st r).result.iterations c
    else (st r).newlyCoveredIds with hbuf
  have hroom : c ≤ buf.length := by
    rw [hbuf]
    split_ifs with hshort
    · exact le_of_eq (Device.length_alloc ..).symm
    · exact not_lt.mp hshort
  unfold buildNewlyCovered
  rw [← hbuf]
  by_cases hrq : r = q
  · subst r
    obtain rfl := hlocal rfl
    have hlen : (((rows q).getD localPatch []).filter fun e => e ∉ t.covered).length = c := by
      rw [hc, gain_eq_length_filter (rowSet_slotOf rows q hp)
        ((hload.fits_rank q).nodup localPatch)]
    have hsmall := hload.gain_le t.covered hp
    obtain ⟨newly, hperm, hrun⟩ := launch_emitUncovered (dev q) (st q).result.iterations 0
      (hst.covered q) ((rows q).getD localPatch []) buf (fun e he => hload.mem_row_lt he)
      (le_trans (le_of_eq hlen) hroom)
      (lt_of_le_of_lt (le_of_eq hlen) (by unfold intMax at hsmall; omega))
    have hnewly : newly.length = c := hperm.length_eq.trans hlen
    rw [if_pos (by simp), hload.patches_eq, patch_eq_getD, hrun, ok_bind]
    refine ⟨_, rfl, ?_, fun _ => ⟨?_⟩⟩
    · rw [List.length_append, List.length_drop]
      omega
    · rw [← hnewly, List.take_left]
      exact hperm
  · have hne : ¬ (r : ℕ) = q := fun h => hrq (Fin.ext h)
    rw [if_neg (by simpa using hne)]
    exact ⟨buf, rfl, hroom, fun h => absurd h hrq⟩

/-- The winner offers the caller's id of its patch; the other ranks offer a dummy. -/
theorem offerGlobalId_eq_ok (hload : Holds rows N ps globalIds) {p : ℕ}
    (hp : p < (rows q).length) (r : Fin P) (localPatch : PatchId)
    (hlocal : r = q → localPatch = p) :
    ∃ g, offerGlobalId (globalIds r) (decide ((r : ℕ) = q)) localPatch = .ok g ∧
      (r = q → g = gidOf globalIds (slotOf rows q p)) := by
  by_cases hr : r = q
  · subst r
    obtain rfl := hlocal rfl
    have hlen : (fun s => (globalIds s).length) = fun s => (rows s).length :=
      funext hload.ids_length
    have hlt : localPatch < (globalIds q).length := by
      rw [hload.ids_length]
      exact hp
    refine ⟨_, ?_, fun _ => rfl⟩
    rw [offerGlobalId, if_pos (by simp), gidOf, slotOf, ← hlen, getD_gather globalIds q hlt,
      List.getElem?_eq_getElem hlt, List.getD_eq_getElem _ _ hlt]
  · have hne : ¬ (r : ℕ) = q := fun h => hr (Fin.ext h)
    exact ⟨0, by rw [offerGlobalId, if_neg (by simpa using hne)], fun h => absurd h hr⟩

/-- From a score down to the score less its gain the int64 arithmetic is exact. -/
theorem toInt64_of_le_signedScore (hload : Holds rows N ps globalIds)
    (hvalid : t.Valid (rowSet (gather rows)) N) {r : Fin P} {j : ℕ} (hj : j < (rows r).length)
    {v : ℤ} (hle : v ≤ signedScore (rowSet (gather rows)) t (slotOf rows r j))
    (hge : signedScore (rowSet (gather rows)) t (slotOf rows r j) -
      gain (rowSet (gather rows)) t.covered (slotOf rows r j) ≤ v) : toInt64 v = v := by
  have hsmall := hload.gain_le t.covered hj
  have hbounds := signedScore_bounds hvalid (slotOf rows r j)
  unfold intMax at hsmall
  apply toInt64_eq_self
  · omega
  · omega

/-- Once the winner is disabled on its rank the updated scores are those of the next progress. -/
theorem getD_disabled (hvalid : t.Valid (rowSet (gather rows)) N) {p : ℕ}
    (hp : p < (rows q).length) {r : Fin P} {localPatch : PatchId}
    (hlocal : r = q → localPatch = p) {updated : List ℤ}
    (hlen : updated.length = (rows r).length) {j : ℕ} (hj : j < (rows r).length)
    (hupdated : updated.getD j 0 + gain (rowSet (gather rows)) t.covered (slotOf rows r j) =
      signedScore (rowSet (gather rows)) t (slotOf rows r j) + gain (rowSet (gather rows))
        (t.covered ∪ rowSet (gather rows) (slotOf rows q p)) (slotOf rows r j)) :
    (if decide ((r : ℕ) = q) then updated.set localPatch kDisabledScore else updated).getD j 0 =
      signedScore (rowSet (gather rows)) (t.pick (rowSet (gather rows)) (slotOf rows q p))
        (slotOf rows r j) := by
  by_cases hwin : r = q ∧ j = p
  · obtain ⟨rfl, rfl⟩ := hwin
    obtain rfl := hlocal rfl
    rw [signedScore_pick_self, if_pos (by simp), List.getD_eq_getElem?_getD,
      List.getElem?_set_self (by omega)]
    rfl
  · have hne : slotOf rows r j ≠ slotOf rows q p := fun h => hwin (slotOf_injective rows hj hp h)
    have hsame : (if decide ((r : ℕ) = q) then updated.set localPatch kDisabledScore
        else updated).getD j 0 = updated.getD j 0 := by
      split_ifs with hr
      · have hrq : r = q := Fin.ext (by simpa using hr)
        have hlj : localPatch ≠ j := fun h => hwin ⟨hrq, by rw [← h, hlocal hrq]⟩
        rw [List.getD_eq_getElem?_getD, List.getElem?_set_ne hlj, List.getD_eq_getElem?_getD]
      · rfl
    rw [hsame]
    exact add_right_cancel (hupdated.trans (signedScore_pick_of_ne hvalid hne).symm)

/-- Applying the list brings every rank to the next progress. -/
theorem applyNewlyCovered_eq_ok (dev : Fin P → Device) (hload : Holds rows N ps globalIds)
    (hst : Stands rows N globalIds t st) {p : ℕ} (hp : p < (rows q).length)
    (winner : Winner) {ids : List ElementId}
    (hscore : winner.score = gain (rowSet (gather rows)) t.covered (slotOf rows q p))
    (hid : winner.globalId = gidOf globalIds (slotOf rows q p))
    (hids : Newly rows t q p (ids.take winner.score.toNat)) (r : Fin P) (localPatch : PatchId)
    (hlocal : r = q → localPatch = p) :
    ∃ next, applyNewlyCovered (dev r) (ps r) (st r) (decide ((r : ℕ) = q)) localPatch winner ids =
        .ok next ∧
      next.newlyCoveredIds = ids ∧
      next.result = (t.pick (rowSet (gather rows)) (slotOf rows q p)).result (gidOf globalIds) ∧
      Represents next.covered N (t.pick (rowSet (gather rows)) (slotOf rows q p)).covered ∧
      next.scores.length = (rows r).length ∧
      ∀ j < (rows r).length, next.scores.getD j 0 =
        signedScore (rowSet (gather rows)) (t.pick (rowSet (gather rows)) (slotOf rows q p))
          (slotOf rows r j) := by
  set S := rowSet (gather rows) with hS
  set newly := ids.take winner.score.toNat with hnewly
  have hset := hids.toFinset_eq hp
  have hM : (buildPatchCsr (rows r)).M = (rows r).length := M_buildPatchCsr _
  have hgain (j : ℕ) : gain (fun p => S (slotOf rows r p)) t.covered j =
      gain S t.covered (slotOf rows r j) := rfl
  obtain ⟨covered, hcovered, hrep⟩ := launch_writeBit (dev r) (st r).result.iterations 1
    (hst.covered r) newly fun e he => hids.lt hload he
  obtain ⟨updated, hupdated, hlen, hscores⟩ := launch_scoreThreads (hload.nodup r) toInt64 (dev r)
    (st r).result.iterations 2 (S := fun p => S (slotOf rows r p))
    ((hst.scores_length r).trans hM.symm)
    (by
      intro j hj
      rw [patch_eq_getD]
      exact rowSet_slotOf rows r (by omega))
    (hids.nodup hload) hset
    (by
      intro j hj v hle hge
      have hrow : j < (rows r).length := by omega
      rw [hst.scores r j hrow] at hle hge
      exact toInt64_of_le_signedScore hload hst.valid hrow hle hge)
  have hlen' : updated.length = (rows r).length := hlen.trans hM
  unfold applyNewlyCovered
  simp only [← hnewly]
  rw [hcovered, ok_bind, hload.inv_eq, hupdated, ok_bind]
  refine ⟨_, rfl, rfl, ?_, ?_, ?_, ?_⟩
  · rw [hst.result_eq]
    have hcard : (t.covered ∪ S (slotOf rows q p)).card =
        t.covered.card + gain S t.covered (slotOf rows q p) := card_union_eq_add_gain _
    simp [Progress.result, Progress.pick, hid, hscore, hcard]
  · rw [hset, Finset.union_sdiff_self_eq_union] at hrep
    exact hrep
  · split_ifs
    · rw [List.length_set, hlen']
    · exact hlen'
  · intro j hj
    have hvalue := hscores j (by omega)
    rw [hst.scores r j hj, hgain] at hvalue
    exact getD_disabled hst.valid hp hlocal hlen' hj hvalue

end Iteration

section Run

/-- What the loop hands back from a progress: one greedy result on every rank. -/
def Returns (rows : Fin P → List (List ElementId)) (globalIds : Fin P → List PatchId) (t : Progress)
    (sels : Fin P → PatchSelection) : Prop :=
  ∃ sel, Finishes (rowSet (gather rows)) (List.range (gather rows).length) (gidOf globalIds) t sel ∧
    sels = fun _ => sel

/-- All ranks see alike whether elements are left to cover. -/
theorem agree_more (hP : 0 < P) (hload : Holds rows N ps globalIds)
    (hst : Stands rows N globalIds t st) :
    agree (fun r => (st r).result.coveredCount < (ps r).N) =
      .ok (decide (t.covered.card < N)) := by
  simp only [hst.result_eq, hload.N_eq]
  exact agree_const hP _

/-- A winner with a positive score is selected on every rank, and the list of what it newly
covers is the same on every rank. -/
theorem selectStep_of_winner (dev : Fin P → Device) (hP : 0 < P)
    (hload : Holds rows N ps globalIds)
    (hst : Stands rows N globalIds t st) (hmore : t.covered.card < N) {best : Fin P → ℤ × PatchId}
    {q : Fin P} (hrun : ∀ r, localBest (ps r) (st r) = .ok (best r))
    (hmaxloc : allreduceMaxloc (fun r => (best r).1) = fun _ => ((best q).1, q.val))
    (hp : (best q).2 < (rows q).length)
    (hscore : (best q).1 = signedScore (rowSet (gather rows)) t (slotOf rows q (best q).2))
    (hpos : 0 < (best q).1) :
    ∃ next newly, selectStep dev ps globalIds st = .ok (.inl next) ∧
      Stands rows N globalIds (t.pick (rowSet (gather rows)) (slotOf rows q (best q).2)) next ∧
      Newly rows t q (best q).2 newly ∧
      ∀ r, (next r).newlyCoveredIds.take (best q).1.toNat = newly := by
  rw [hscore] at hpos
  obtain ⟨_, hsigned⟩ := scores_signedScore.of_pos (List.mem_singleton_self _) hpos
  have hcount : (best q).1.toNat =
      gain (rowSet (gather rows)) t.covered (slotOf rows q (best q).2) := by omega
  have hlocal : ∀ r, r = q → (best r).2 = (best q).2 := fun r h => by rw [h]
  obtain ⟨offered, hoffered, hoffer⟩ := exists_onRanks_eq_ok fun r =>
    offerGlobalId_eq_ok hload hp r (best r).2 (hlocal r)
  obtain ⟨built, hbuilt, hbuild⟩ := exists_onRanks_eq_ok fun r =>
    buildNewlyCovered_eq_ok dev hload hst hp hcount r (best r).2 (hlocal r)
  have hlist : ∀ r, (((built q).take (best q).1.toNat ++ (built r).drop (best q).1.toNat).take
      (best q).1.toNat) = (built q).take (best q).1.toNat := by
    intro r
    rw [List.take_append_of_le_length (by rw [List.length_take]; have h := (hbuild q).1; omega),
      List.take_take, Nat.min_self]
  obtain ⟨next, hnext, hstands⟩ := exists_onRanks_eq_ok fun r =>
    applyNewlyCovered_eq_ok dev hload hst hp
      { score := (best q).1, globalId := gidOf globalIds (slotOf rows q (best q).2) }
      (hscore.trans hsigned) rfl ((hlist r).symm ▸ (hbuild q).2 rfl) r (best r).2 (hlocal r)
  refine ⟨next, _, ?_, ?_, (hbuild q).2 rfl, ?_⟩
  · have hagree := agree_more hP hload hst
    have hgo : decide ((best q).1 ≤ 0) = false := by
      rw [hscore]
      simpa using hpos
    unfold selectStep
    rw [hagree, ok_bind, if_pos (decide_eq_true hmore), onRanks_eq_ok hrun, ok_bind]
    simp only [hmaxloc, hgo, agree_const hP, ok_bind, Bool.false_eq_true, if_false]
    rw [hoffered, ok_bind, bcastValue_eq_ok q fun _ => rfl, ok_bind, hbuilt, ok_bind,
      bcast_eq_ok q (best q).1.toNat (fun _ => rfl) (fun _ => rfl) fun r => (hbuild r).1, ok_bind]
    simp only [hoffer q rfl]
    rw [hnext, ok_bind]
    rfl
  · exact
      { valid := hst.valid.pick (hload.fits.subset _)
        result_eq := fun r => (hstands r).2.1
        covered := fun r => (hstands r).2.2.1
        scores_length := fun r => (hstands r).2.2.2.1
        scores := fun r => (hstands r).2.2.2.2 }
  · intro r
    rw [(hstands r).1]
    exact hlist r

section Leave

variable (dev : Fin P → Device) (hP : 0 < P) (hload : Holds rows N ps globalIds)
  (hst : Stands rows N globalIds t st)
include hP hload hst

/-- With everything covered the loop condition fails. -/
theorem selectStep_of_covered (hdone : ¬ t.covered.card < N) :
    selectStep dev ps globalIds st = .ok (.inr fun _ => t.result (gidOf globalIds)) := by
  have hagree := agree_more hP hload hst
  unfold selectStep
  rw [hagree, ok_bind, if_neg (by simpa using hdone)]
  exact congrArg (fun sels => Except.ok (Sum.inr sels)) (funext hst.result_eq)

/-- Without a positive score on any rank the loop breaks. -/
theorem selectStep_of_exhausted (hmore : t.covered.card < N) {best : Fin P → ℤ × PatchId}
    {q : Fin P} (hrun : onRanks (fun r => localBest (ps r) (st r)) = .ok best)
    (hmaxloc : allreduceMaxloc (fun r => (best r).1) = fun _ => ((best q).1, q.val))
    (hle : ¬ 0 < (best q).1) :
    selectStep dev ps globalIds st = .ok (.inr fun _ => t.result (gidOf globalIds)) := by
  have hagree := agree_more hP hload hst
  have hstop : decide ((best q).1 ≤ 0) = true := by simpa using hle
  unfold selectStep
  rw [hagree, ok_bind, if_pos (decide_eq_true hmore), hrun, ok_bind]
  simp only [hmaxloc, hstop, agree_const hP, ok_bind, if_true]
  exact congrArg (fun sels => Except.ok (Sum.inr sels)) (funext hst.result_eq)

/-- A local ArgMax outside its contract stops the run. -/
theorem selectStep_of_fault (hmore : t.covered.card < N) {e : Fault}
    (hrun : onRanks (fun r => localBest (ps r) (st r)) = .error e) :
    selectStep dev ps globalIds st = .error e := by
  have hagree := agree_more hP hload hst
  unfold selectStep
  rw [hagree, ok_bind, if_pos (decide_eq_true hmore), hrun, error_bind]

end Leave

theorem selectStep_correct (dev : Fin P → Device) (hP : 0 < P)
    (hload : Loaded rows N ps globalIds) :
    StepCorrect (selectStep dev ps globalIds) (Stands rows N globalIds) (remaining N)
      (Returns rows globalIds) := by
  intro t st hst
  by_cases hmore : t.covered.card < N
  · obtain ⟨best, hrun, hbest⟩ := exists_onRanks_eq_ok fun r => localBest_eq_ok hload hst r
    obtain ⟨q, hq, hmaxloc⟩ := allreduceMaxloc_spec (fun r => (best r).1) hP
    by_cases hpos : 0 < (best q).1
    · right
      obtain ⟨hp, hmax, hscore⟩ := isFirstMax_slotOf hbest hq hpos
      obtain ⟨next, _, hstep, hstands, _⟩ := selectStep_of_winner dev hP hload.toHolds hst hmore
        (onRanks_eq_ok_iff.mp hrun) hmaxloc hp hscore hpos
      obtain ⟨hgreedy, hgain⟩ := scores_signedScore.isFirstMax_gain hst.valid hmax (hscore ▸ hpos)
      refine ⟨_, next, hstep, hstands, ?_, ?_⟩
      · exact remaining_pick_lt hst.valid (hload.fits.subset _) hgain
      · intro sels h
        obtain ⟨sel, hsel, rfl⟩ := h
        exact ⟨sel, hsel.of_pick hgreedy hgain, rfl⟩
    · left
      exact ⟨_, selectStep_of_exhausted dev hP hload.toHolds hst hmore hrun hmaxloc hpos, _,
        finishes_of_exhausted hst hbest hq (not_lt.mp hpos), rfl⟩
  · left
    refine ⟨_, selectStep_of_covered dev hP hload.toHolds hst hmore, _, ?_, rfl⟩
    exact Finishes.of_done fun i _ =>
      hst.valid.gain_eq_zero_of_card (not_lt.mp hmore) (hload.fits.subset i)

theorem stands_initialState (hload : Holds rows N ps globalIds) :
    Stands rows N globalIds Progress.start fun r => initialState (ps r) where
  valid := Progress.valid_start
  result_eq _ := rfl
  covered r := by
    show Represents (List.replicate (wordsFor (ps r).N) 0#64) N ∅
    rw [hload.N_eq]
    exact Represents.empty N
  scores_length r := by
    show ((List.range (ps r).patches.M).map _).length = _
    rw [List.length_map, List.length_range, hload.patches_eq, M_buildPatchCsr]
  scores r p hp := by
    have hM : (ps r).patches.M = (rows r).length := by rw [hload.patches_eq, M_buildPatchCsr]
    have hsize : (ps r).patches.patchSize p = ((rows r).getD p []).length := by
      rw [hload.patches_eq, patchSize_buildPatchCsr _ _ hp, List.getD_eq_getElem _ _ hp]
    have hle := hload.size_le r p
    have hgain : gain (rowSet (gather rows)) ∅ (slotOf rows r p) = ((rows r).getD p []).length := by
      rw [gain, Finset.sdiff_empty, rowSet_slotOf rows r hp,
        List.toFinset_card_of_nodup ((hload.fits_rank r).nodup p)]
    have hsigned : signedScore (rowSet (gather rows)) Progress.start (slotOf rows r p) =
        (((rows r).getD p []).length : ℤ) := by
      have hnone : slotOf rows r p ∉ Progress.start.selected := List.not_mem_nil
      rw [signedScore, if_neg hnone]
      exact congrArg _ hgain
    rw [hsigned]
    unfold intMax at hle
    simp only [initialState]
    rw [List.getD_eq_getElem _ _ (by simpa [hM] using hp), List.getElem_map, List.getElem_range,
      hsize]
    apply toInt64_eq_self
    · omega
    · omega

variable {rawPatches : Fin P → List (List Hash)}

theorem holds_patchSets (hfit : CountsFit rawPatches)
    (hids : ∀ r, (globalIds r).length = (rawPatches r).length) :
    Holds (idRows rawPatches) (globalUniq rawPatches).length
      (fun r => patchSetOf (mapped rawPatches r)) globalIds where
  patches_eq _ := rfl
  inv_eq _ := rfl
  N_eq _ := rfl
  fits := rowsFit_idRows
  fits_rank := rowsFit_idRows_rank
  size_le r p := le_trans (length_row_le r p) (hfit.sent r)
  ids_length r := by rw [length_idRows]; exact hids r

theorem loaded_patchSets (hfit : CountsFit rawPatches)
    (hcount : ∀ r, (rawPatches r).length ≤ intMax)
    (hids : ∀ r, (globalIds r).length = (rawPatches r).length) :
    Loaded (idRows rawPatches) (globalUniq rawPatches).length
      (fun r => patchSetOf (mapped rawPatches r)) globalIds where
  toHolds := holds_patchSets hfit hids
  count_le r := by rw [length_idRows]; exact hcount r

/-- The ByPatch selector returns the greedy selection on every rank. -/
theorem patchSelect_eq_ok (hP : 0 < P) (dev : Fin P → Device) (hfit : CountsFit rawPatches)
    (hcount : ∀ r, (rawPatches r).length ≤ intMax)
    (hids : ∀ r, (globalIds r).length = (rawPatches r).length) :
    ∃ sel, Finishes (rowSet (gather (idRows rawPatches)))
        (List.range (gather (idRows rawPatches)).length) (gidOf globalIds) Progress.start sel ∧
      ∀ fuel, (globalUniq rawPatches).length < fuel →
        patchSelect dev fuel rawPatches globalIds = .ok fun _ => sel := by
  have hload := loaded_patchSets hfit hcount hids
  obtain ⟨_, ⟨sel, hsel, rfl⟩, hrun⟩ :=
    loop_correct (selectStep_correct dev hP hload) (stands_initialState hload.toHolds)
  refine ⟨sel, hsel, fun fuel hfuel => ?_⟩
  unfold patchSelect
  rw [(buildPatchSet_eq_ok_iff hP _).mpr ⟨hfit, rfl⟩, ok_bind]
  exact hrun fuel hfuel

end Run

end PatternSearch.ByPatchRun
