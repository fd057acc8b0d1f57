import PatternSearch.ElementSetup
import PatternSearch.Incidence

/-!
The ByElement loop computes the greedy selection. The ranks stand together for one progress:
each knows the part of the covered set in its shard and, for every global slot, the gain in
there; only the sums over the ranks are scores. A selected slot keeps a negative remainder
on every rank. Iterations past the end do nothing, so a batch may overshoot.
-/

namespace PatternSearch.ByElementRun

open Machine Collectives Bucketing Csr Transpose WordBits Kernels Loops FirstMaximum GreedyCover
  Selection HashMapping IdAssignment Setup Shards ByElement ElementSetup

variable {P N : ℕ} {rows : Fin P → List (List ElementId)} {globalIds : Fin P → List PatchId}
  {t : Progress} {finished : Bool} {st : Fin P → RankState}

section Shard

/-- What the patches have inside one shard. -/
def shardSets (N P r : ℕ) (S : ℕ → Finset ElementId) (s : ℕ) : Finset ElementId :=
  localPart N P r (S s)

theorem gain_shardSets_le (N P r : ℕ) (S : ℕ → Finset ElementId) (C : Finset ElementId) (s : ℕ) :
    gain (shardSets N P r S) C s ≤ (localPart N P r (S s)).card :=
  Finset.card_le_card Finset.sdiff_subset

/-- The gains of a slot on all shards add up to its gain. -/
theorem sum_gain_shardSets (hP : 0 < P) (hfit : N + P ≤ 2 ^ 64) {S : ℕ → Finset ElementId} {s : ℕ}
    (hs : S s ⊆ Finset.range N) (C : Finset ElementId) :
    ∑ r : Fin P, gain (shardSets N P r S) (localPart N P r C) s = gain S C s := by
  simp only [gain, shardSets, ← localPart_sdiff]
  exact sum_card_localPart hP hfit (Finset.sdiff_subset.trans hs)

/-- Rows that fit, a global id for each, and no patch over the wire bound. -/
structure Loaded (N : ℕ) (rows : Fin P → List (List ElementId))
    (globalIds : Fin P → List PatchId) : Prop where
  fit : IncidencesFit N rows
  ids_length : ∀ r, (globalIds r).length = (rows r).length
  wire : ∀ s < (gather rows).length, ((rowSet (gather rows) s).card : ℤ) ≤ wireMax P

theorem Loaded.rowsFit (h : Loaded N rows globalIds) : RowsFit (gather rows) N where
  nodup s := (h.fit.rows_fit s).1.imp fun hlt => ne_of_lt hlt
  subset s _ he := Finset.mem_range.mpr ((h.fit.rows_fit s).2 _ (List.mem_toFinset.mp he))

theorem patch_shardCsr (r : Fin P) (s : ℕ) :
    (shardCsr N rows r).patch s = subRow N P r ((gather rows).getD s []) := by
  rw [shardCsr, patch_eq_getD, getD_subRows]

theorem nodup_patch_shardCsr (hP : 0 < P) (h : Loaded N rows globalIds) (r : Fin P) (s : ℕ) :
    ((shardCsr N rows r).patch s).Nodup := by
  rw [patch_shardCsr]
  have hrow := h.fit.rows_fit s
  exact (pairwise_subRow hP h.fit.shards_fit hrow.2 r.isLt hrow.1).imp fun hlt => ne_of_lt hlt

theorem toFinset_patch_shardCsr (hP : 0 < P) (h : Loaded N rows globalIds) (r : Fin P) (s : ℕ) :
    ((shardCsr N rows r).patch s).toFinset = shardSets N P r (rowSet (gather rows)) s := by
  rw [patch_shardCsr, toFinset_subRow hP h.fit.shards_fit (h.fit.rows_fit s).2 r.isLt]
  rfl

theorem mem_patch_shardCsr_lt (hP : 0 < P) (h : Loaded N rows globalIds) {r : Fin P} {s : ℕ}
    {e : ElementId} (he : e ∈ (shardCsr N rows r).patch s) : e < shardExtent N P r := by
  have hmem := List.mem_toFinset.mpr he
  rw [toFinset_patch_shardCsr hP h] at hmem
  exact Finset.mem_range.mp (localPart_subset_range hmem)

theorem M_shardCsr (r : Fin P) : (shardCsr N rows r).M = (gather rows).length := by
  rw [shardCsr, M_buildPatchCsr, subRows, List.length_map]

end Shard

section Invariant

/-- A partial score: the gain inside the shard, or a negative remainder once selected. -/
structure PartialScore (N P r : ℕ) (S : ℕ → Finset ElementId) (t : Progress) (s : ℕ) (x : ℤ) :
    Prop where
  unselected : s ∉ t.selected → x = gain (shardSets N P r S) (localPart N P r t.covered) s
  selected : s ∈ t.selected → x ≤ -1 ∧ -1 - ((localPart N P r (S s)).card : ℤ) ≤ x

/-- What one rank knows of a progress; `finished` is the done flag. -/
structure RankStands (N : ℕ) (rows : Fin P → List (List ElementId)) (t : Progress)
    (finished : Bool) (r : Fin P) (st : RankState) : Prop where
  state_eq : st.state =
    { coveredCount := t.covered.card, numSelected := t.selected.length, done := finished }
  slots_length : st.selectedSlots.length = (gather rows).length
  slots_eq : st.selectedSlots.take t.selected.length = t.selected
  covered : Represents st.covered (shardExtent N P r) (localPart N P r t.covered)
  room : ∀ s < (gather rows).length, ((shardCsr N rows r).patch s).length ≤ st.newlyIds.length
  scores_length : st.scoresPartial.length = (gather rows).length
  scores : ∀ s < (gather rows).length,
    PartialScore N P r (rowSet (gather rows)) t s (st.scoresPartial.getD s 0)

/-- The states of all ranks stand for one progress. -/
structure Stands (N : ℕ) (rows : Fin P → List (List ElementId)) (t : Progress) (finished : Bool)
    (st : Fin P → RankState) : Prop where
  valid : t.Valid (rowSet (gather rows)) N
  selected_nodup : t.selected.Nodup
  selected_lt : ∀ s ∈ t.selected, s < (gather rows).length
  done_gain : finished = true →
    ∀ s ∈ List.range (gather rows).length, gain (rowSet (gather rows)) t.covered s = 0
  ranks : ∀ r, RankStands N rows t finished r (st r)

/-- What the ranks sum up: the gain of a slot, or something negative once it is selected. -/
theorem Stands.sum_scores (hP : 0 < P) (h : Loaded N rows globalIds)
    (hst : Stands N rows t finished st) {s : ℕ} (hs : s < (gather rows).length) :
    (s ∉ t.selected → ∑ r, (st r).scoresPartial.getD s 0 =
      (gain (rowSet (gather rows)) t.covered s : ℤ)) ∧
    (s ∈ t.selected → ∑ r, (st r).scoresPartial.getD s 0 ≤ -(P : ℤ) ∧
      -(P : ℤ) - ((rowSet (gather rows) s).card : ℤ) ≤ ∑ r, (st r).scoresPartial.getD s 0) := by
  constructor
  · intro hsel
    have hpart : ∀ r : Fin P, (st r).scoresPartial.getD s 0 =
        (gain (shardSets N P r (rowSet (gather rows))) (localPart N P r t.covered) s : ℤ) :=
      fun r => ((hst.ranks r).scores s hs).unselected hsel
    simp only [hpart]
    rw [← Nat.cast_sum, sum_gain_shardSets hP h.fit.shards_fit (h.rowsFit.subset s)]
  · intro hsel
    have hpart : ∀ r : Fin P, _ := fun r => ((hst.ranks r).scores s hs).selected hsel
    have hsize := sum_card_localPart hP h.fit.shards_fit (h.rowsFit.subset s)
    have hhigh : ∑ r : Fin P, (st r).scoresPartial.getD s 0 ≤ ∑ _ : Fin P, (-1 : ℤ) :=
      Finset.sum_le_sum fun r _ => (hpart r).1
    have hlow : ∑ r : Fin P, (-1 - ((localPart N P r (rowSet (gather rows) s)).card : ℤ)) ≤
        ∑ r : Fin P, (st r).scoresPartial.getD s 0 :=
      Finset.sum_le_sum fun r _ => (hpart r).2
    rw [Finset.sum_sub_distrib, ← Nat.cast_sum, hsize] at hlow
    simp only [Finset.sum_const, Finset.card_univ, Fintype.card_fin, nsmul_eq_mul] at hhigh hlow
    omega

/-- With or without the allreduce every rank sees the exact sums: none of them wraps. -/
theorem fullScores_eq_ok (hP : 0 < P) (h : Loaded N rows globalIds)
    (hst : Stands N rows t finished st) :
    ∃ full, fullScores (elemSetup N rows globalIds) st = .ok (fun _ => full) ∧
      full.length = (gather rows).length ∧
      ∀ s < (gather rows).length, full.getD s 0 = ∑ r, (st r).scoresPartial.getD s 0 := by
  unfold fullScores
  by_cases hone : 1 < P
  · rw [if_pos hone]
    refine ⟨_, allreduceSum_eq_ok (gather rows).length (fun _ => rfl)
      (fun r => le_of_eq ((hst.ranks r).scores_length).symm), length_columnSums .., ?_⟩
    intro s hs
    rw [getD_columnSums toInt32 _ hs]
    obtain ⟨hunselected, hselected⟩ := hst.sum_scores hP h hs
    have hwire := h.wire s hs
    have hgain : gain (rowSet (gather rows)) t.covered s ≤ (rowSet (gather rows) s).card :=
      Finset.card_le_card Finset.sdiff_subset
    unfold wireMax intMax at hwire
    by_cases hsel : s ∈ t.selected
    · have hsum := hselected hsel
      apply toInt32_eq_self
      · omega
      · omega
    · have hsum := hunselected hsel
      apply toInt32_eq_self
      · omega
      · omega
  · rw [if_neg hone]
    obtain rfl : P = 1 := by omega
    refine ⟨(st 0).scoresPartial, ?_, (hst.ranks 0).scores_length, ?_⟩
    · exact congrArg Except.ok (funext fun r => by rw [Subsingleton.elim r 0])
    · intro s _
      rw [Fin.sum_univ_one]

/-- The sums rank the slots like the gains. -/
theorem Stands.scores_sum (hP : 0 < P) (h : Loaded N rows globalIds)
    (hst : Stands N rows t finished st) :
    Scores (rowSet (gather rows)) (List.range (gather rows).length) t
      fun s => ∑ r, (st r).scoresPartial.getD s 0 := by
  intro s hs
  obtain ⟨hunselected, hselected⟩ := hst.sum_scores hP h (List.mem_range.mp hs)
  refine ⟨fun hsel => ?_, hunselected⟩
  have hneg := (hselected hsel).1
  show ∑ r, (st r).scoresPartial.getD s 0 < 0
  omega

end Invariant

section Iteration

variable {r : Fin P} {i : ℕ} {x : RankState}

theorem length_patch_shardCsr_le (h : Loaded N rows globalIds) (r : Fin P) (s : ℕ) :
    ((shardCsr N rows r).patch s).length ≤ intMax := by
  rw [patch_shardCsr, subRow, List.length_map]
  exact le_trans (List.length_filter_le _ _) (h.fit.length_row_le s)

theorem card_localPart_le (hP : 0 < P) (h : Loaded N rows globalIds) (r : Fin P) (s : ℕ) :
    (localPart N P r (rowSet (gather rows) s)).card ≤ (rowSet (gather rows) s).card := by
  rw [card_localPart hP h.fit.shards_fit (h.rowsFit.subset s) r.isLt]
  exact Finset.card_filter_le _ _

/-- On an empty range the update kernels have no threads. -/
theorem updateShard_empty (d : Device) (iteration : ℕ) (su : ElemSetup) (st : RankState) :
    updateShard d iteration su st 0 0 = .ok st := by
  have hthreads : scoreThreads su.inv [] = [] := rfl
  unfold updateShard
  simp only [Nat.sub_zero, List.drop_zero, List.take_zero, d.launch_nil, ok_bind, hthreads]
  rfl

/-- The update kernels add the winner's part to the covered bits and keep every partial score
at the distance it had from its gain. -/
theorem updateShard_eq_ok (hP : 0 < P) (h : Loaded N rows globalIds) (d : Device) (iteration : ℕ)
    {C : Finset ElementId} (hC : Represents x.covered (shardExtent N P r) C)
    (hroom : ((shardCsr N rows r).patch i).length ≤ x.newlyIds.length)
    (hlen : x.scoresPartial.length = (gather rows).length)
    (hscores : ∀ q < (gather rows).length,
      (gain (shardSets N P r (rowSet (gather rows))) C q : ℤ) - 2 ^ 31 ≤ x.scoresPartial.getD q 0 ∧
        x.scoresPartial.getD q 0 < 2 ^ 31) :
    ∃ covered scoresPartial newlyIds,
      updateShard d iteration (elemSetup N rows globalIds r) x
          ((shardCsr N rows r).offsets.getD i 0) ((shardCsr N rows r).offsets.getD (i + 1) 0) =
        .ok { x with covered, scoresPartial, newlyIds } ∧
      Represents covered (shardExtent N P r) (C ∪ shardSets N P r (rowSet (gather rows)) i) ∧
      newlyIds.length = x.newlyIds.length ∧
      scoresPartial.length = (gather rows).length ∧
      ∀ q < (gather rows).length,
        scoresPartial.getD q 0 + gain (shardSets N P r (rowSet (gather rows))) C q =
          x.scoresPartial.getD q 0 + gain (shardSets N P r (rowSet (gather rows)))
            (C ∪ shardSets N P r (rowSet (gather rows)) i) q := by
  have hpatch : ((shardCsr N rows r).data.drop ((shardCsr N rows r).offsets.getD i 0)).take
      ((shardCsr N rows r).offsets.getD (i + 1) 0 - (shardCsr N rows r).offsets.getD i 0) =
        (shardCsr N rows r).patch i := rfl
  have hshort := List.length_filter_le (fun e => e ∉ C) ((shardCsr N rows r).patch i)
  have hsmall := length_patch_shardCsr_le h r i
  unfold intMax at hsmall
  obtain ⟨newly, hperm, hbuild⟩ := launch_emitUncovered d iteration 0 hC
    ((shardCsr N rows r).patch i) x.newlyIds (fun e he => mem_patch_shardCsr_lt hP h he)
    (le_trans hshort hroom) (lt_of_le_of_lt hshort (by omega))
  have hnodup : newly.Nodup :=
    hperm.nodup_iff.mpr ((nodup_patch_shardCsr hP h r i).filter _)
  have hnewly : newly.toFinset = shardSets N P r (rowSet (gather rows)) i \ C := by
    rw [List.toFinset_eq_of_perm _ _ hperm, ← toFinset_patch_shardCsr hP h]
    ext e
    simp
  have hlt : ∀ e ∈ newly, e < shardExtent N P r := fun e he =>
    mem_patch_shardCsr_lt hP h (List.mem_of_mem_filter (hperm.mem_iff.mp he))
  obtain ⟨covered, hcovered, hrep⟩ := launch_writeBit d iteration 1 hC newly hlt
  have hM : (shardCsr N rows r).M = (gather rows).length := M_shardCsr r
  obtain ⟨scoresPartial, hupdate, hlen', hvalues⟩ := launch_scoreThreads
    (nodup_patch_shardCsr hP h r) toInt32 d iteration 2 (hlen.trans hM.symm)
    (fun q _ => (toFinset_patch_shardCsr hP h r q).symm) hnodup hnewly
    (by
      intro q hq v hle hge
      have hrange := hscores q (by omega)
      apply toInt32_eq_self
      · omega
      · omega)
  refine ⟨covered, scoresPartial, newly ++ x.newlyIds.drop newly.length, ?_, ?_, ?_, ?_, ?_⟩
  · unfold updateShard
    simp only [elemSetup, hpatch, hbuild, ok_bind, List.take_left, hcovered, hupdate]
    rfl
  · rw [hnewly, Finset.union_sdiff_self_eq_union] at hrep
    exact hrep
  · have hcount := hperm.length_eq
    rw [List.length_append, List.length_drop]
    omega
  · exact hlen'.trans hM
  · intro q hq
    exact hvalues q (by omega)

theorem Stands.gain_shard_eq_zero (hvalid : t.Valid (rowSet (gather rows)) N) {s : ℕ}
    (hs : s ∈ t.selected) :
    gain (shardSets N P r (rowSet (gather rows))) (localPart N P r t.covered) s = 0 :=
  gain_eq_zero_iff.mpr (localPart_mono (hvalid.selected_subset s hs))

/-- The gain inside a shard is a distance the int32 score has to every end of its range. -/
theorem PartialScore.in_range (hP : 0 < P) (h : Loaded N rows globalIds)
    (hvalid : t.Valid (rowSet (gather rows)) N) {q : ℕ} (hq : q < (gather rows).length) {v : ℤ}
    (hv : PartialScore N P r (rowSet (gather rows)) t q v) :
    (gain (shardSets N P r (rowSet (gather rows))) (localPart N P r t.covered) q : ℤ) - 2 ^ 31 ≤ v ∧
      v < 2 ^ 31 := by
  have hcard := card_localPart_le hP h r q
  have hgain := gain_shardSets_le N P r (rowSet (gather rows)) (localPart N P r t.covered) q
  have hwire := h.wire q hq
  unfold wireMax intMax at hwire
  by_cases hsel : q ∈ t.selected
  · have hzero := Stands.gain_shard_eq_zero (r := r) hvalid hsel
    have hbounds := hv.selected hsel
    omega
  · have hvalue := hv.unselected hsel
    omega

/-- A rank's state between the commit of slot i and the update. -/
def committed (N : ℕ) (rows : Fin P → List (List ElementId)) (t : Progress) (i : ℕ)
    (x : RankState) : RankState where
  scoresPartial := x.scoresPartial.set i kDisabledWireScore
  covered := x.covered
  newlyIds := x.newlyIds
  selectedSlots := x.selectedSlots.set t.selected.length i
  state :=
    { coveredCount := (t.pick (rowSet (gather rows)) i).covered.card
      numSelected := t.selected.length + 1
      done := decide (N ≤ (t.pick (rowSet (gather rows)) i).covered.card) }

theorem commitWinner_of_pick (hx : RankStands N rows t false r x) (hi : i < (gather rows).length)
    (hcount : t.selected.length < (gather rows).length)
    (hpos : 0 < gain (rowSet (gather rows)) t.covered i) :
    commitWinner (elemSetup N rows globalIds r)
        ((gain (rowSet (gather rows)) t.covered i : ℤ), i) x =
      .ok (committed N rows t i x, (shardCsr N rows r).offsets.getD i 0,
        (shardCsr N rows r).offsets.getD (i + 1) 0) := by
  have hcard : (t.pick (rowSet (gather rows)) i).covered.card =
      t.covered.card + gain (rowSet (gather rows)) t.covered i := card_union_eq_add_gain i
  have hroom : t.selected.length < x.selectedSlots.length ∧ i < x.scoresPartial.length := by
    rw [hx.slots_length, hx.scores_length]
    exact ⟨hcount, hi⟩
  unfold commitWinner committed
  simp only [hx.state_eq, Bool.false_eq_true, if_false]
  rw [if_neg (by omega), if_pos hroom, Int.toNat_natCast, hcard]
  rfl

theorem getD_scoresPartial_committed (hx : RankStands N rows t false r x)
    (hi : i < (gather rows).length) (q : ℕ) :
    (committed N rows t i x).scoresPartial.getD q 0 =
      if q = i then -1 else x.scoresPartial.getD q 0 := by
  show (x.scoresPartial.set i kDisabledWireScore).getD q 0 = _
  by_cases hqi : q = i
  · subst q
    rw [if_pos rfl, List.getD_eq_getElem?_getD,
      List.getElem?_set_self (by rw [hx.scores_length]; exact hi)]
    rfl
  · rw [if_neg hqi, List.getD_eq_getElem?_getD, List.getElem?_set_ne (Ne.symm hqi),
      List.getD_eq_getElem?_getD]

/-- The winner is disabled first and then loses its own gain, other scores follow theirs. -/
theorem PartialScore.pick (hvalid : t.Valid (rowSet (gather rows)) N) {q : ℕ} {v w : ℤ}
    (hv : PartialScore N P r (rowSet (gather rows)) t q v)
    (hw : w + gain (shardSets N P r (rowSet (gather rows))) (localPart N P r t.covered) q =
      (if q = i then -1 else v) + gain (shardSets N P r (rowSet (gather rows)))
        (localPart N P r t.covered ∪ shardSets N P r (rowSet (gather rows)) i) q) :
    PartialScore N P r (rowSet (gather rows)) (t.pick (rowSet (gather rows)) i) q w := by
  have hunion : localPart N P r (t.pick (rowSet (gather rows)) i).covered =
      localPart N P r t.covered ∪ shardSets N P r (rowSet (gather rows)) i := localPart_union
  constructor
  · intro hq
    rw [mem_selected_pick, not_or] at hq
    have hold := hv.unselected hq.1
    rw [if_neg hq.2] at hw
    rw [hunion]
    omega
  · intro hq
    rw [mem_selected_pick] at hq
    have hzero : gain (shardSets N P r (rowSet (gather rows)))
        (localPart N P r t.covered ∪ shardSets N P r (rowSet (gather rows)) i) q = 0 := by
      rw [gain_eq_zero_iff]
      rcases hq with hq | rfl
      · exact (localPart_mono (hvalid.selected_subset q hq)).trans Finset.subset_union_left
      · exact Finset.subset_union_right
    have hsmall := gain_shardSets_le N P r (rowSet (gather rows)) (localPart N P r t.covered) q
    by_cases hqi : q = i
    · rw [if_pos hqi] at hw
      omega
    · have hsel := hq.resolve_right hqi
      have hbounds := hv.selected hsel
      have hnone := Stands.gain_shard_eq_zero (r := r) hvalid hsel
      rw [if_neg hqi] at hw
      omega

/-- The partial scores of a rank after slot i has been committed in a progress: every one
keeps the distance it had from its gain, the winner's counted from the disabled score. -/
def Rescored (N : ℕ) (rows : Fin P → List (List ElementId)) (t : Progress) (i : ℕ) (r : Fin P)
    (before after : List ℤ) : Prop :=
  ∀ q < (gather rows).length,
    after.getD q 0 + gain (shardSets N P r (rowSet (gather rows))) (localPart N P r t.covered) q =
      (if q = i then -1 else before.getD q 0) + gain (shardSets N P r (rowSet (gather rows)))
        (localPart N P r t.covered ∪ shardSets N P r (rowSet (gather rows)) i) q

/-- Also with the winner disabled, the scores on the wire have room for the gains. -/
theorem in_range_committed (hP : 0 < P) (h : Loaded N rows globalIds)
    (hvalid : t.Valid (rowSet (gather rows)) N) (hx : RankStands N rows t false r x)
    (hi : i < (gather rows).length) : ∀ q < (gather rows).length,
      (gain (shardSets N P r (rowSet (gather rows))) (localPart N P r t.covered) q : ℤ) - 2 ^ 31 ≤
          (committed N rows t i x).scoresPartial.getD q 0 ∧
        (committed N rows t i x).scoresPartial.getD q 0 < 2 ^ 31 := by
  intro q hq
  have hrange := (hx.scores q hq).in_range hP h hvalid hq
  have hsmall := gain_shardSets_le N P r (rowSet (gather rows)) (localPart N P r t.covered) q
  have hle := card_localPart_le hP h r q
  have hwire := h.wire q hq
  unfold wireMax intMax at hwire
  rw [getD_scoresPartial_committed hx hi q]
  split_ifs
  · omega
  · exact hrange

/-- Committing a slot and updating the shard leads one rank to the next progress. -/
theorem commitAndUpdate_of_pick (hP : 0 < P) (h : Loaded N rows globalIds) (d : Device)
    (hvalid : t.Valid (rowSet (gather rows)) N) (hx : RankStands N rows t false r x)
    (hi : i < (gather rows).length) (hcount : t.selected.length < (gather rows).length)
    (hpos : 0 < gain (rowSet (gather rows)) t.covered i) :
    ∃ next, commitAndUpdate d (elemSetup N rows globalIds r) x
        ((gain (rowSet (gather rows)) t.covered i : ℤ), i) = .ok next ∧
      RankStands N rows (t.pick (rowSet (gather rows)) i)
        (decide (N ≤ (t.pick (rowSet (gather rows)) i).covered.card)) r next ∧
      Rescored N rows t i r x.scoresPartial next.scoresPartial := by
  have hset := getD_scoresPartial_committed hx hi
  obtain ⟨covered, scoresPartial, newlyIds, hupdate, hrep, hroom, hlen, hvalues⟩ :=
    updateShard_eq_ok (x := committed N rows t i x) hP h d x.state.numSelected hx.covered
      (hx.room i hi) ((List.length_set ..).trans hx.scores_length)
      (in_range_committed hP h hvalid hx hi)
  have hrescored : Rescored N rows t i r x.scoresPartial scoresPartial := by
    intro q hq
    rw [hvalues q hq, hset q]
  refine ⟨{ committed N rows t i x with covered, scoresPartial, newlyIds }, ?_, ?_, hrescored⟩
  · unfold commitAndUpdate
    rw [commitWinner_of_pick hx hi hcount hpos, ok_bind]
    exact hupdate
  · have hslot : t.selected.length < x.selectedSlots.length := by
      rw [hx.slots_length]
      exact hcount
    refine
      { state_eq := ?_
        slots_length := (List.length_set ..).trans hx.slots_length
        slots_eq := ?_
        covered := ?_
        room := fun s hs => ?_
        scores_length := hlen
        scores := fun q hq => ?_ }
    · simp [committed, Progress.pick]
    · simp only [committed, Progress.pick, List.length_append, List.length_singleton]
      rw [List.take_succ_eq_append_getElem (by rw [List.length_set]; exact hslot),
        List.take_set_of_le (Nat.le_refl _), hx.slots_eq, List.getElem_set_self]
    · simp only [Progress.pick, localPart_union]
      exact hrep
    · show _ ≤ newlyIds.length
      rw [hroom]
      exact hx.room s hs
    · exact (hx.scores q hq).pick hvalid (hrescored q hq)

end Iteration

section Run

/-- Every greedy completion of the later progress completes the earlier one. -/
def LeadsTo (rows : Fin P → List (List ElementId)) (t t' : Progress) : Prop :=
  ∀ gid sel, Finishes (rowSet (gather rows)) (List.range (gather rows).length) gid t' sel →
    Finishes (rowSet (gather rows)) (List.range (gather rows).length) gid t sel

/-- Nothing is left to do once the flag is up; before that, at most one stop follows the picks. -/
def budget (N : ℕ) (t : Progress) (finished : Bool) : ℕ :=
  if finished then 0 else remaining N t + 1

theorem elemIteration_of_finished (dev : Fin P → Device) (hP : 0 < P) (h : Loaded N rows globalIds)
    (hM : 0 < (gather rows).length) (hst : Stands N rows t true st) :
    elemIteration dev (elemSetup N rows globalIds) st = .ok st := by
  obtain ⟨full, hfull, hlen, _⟩ := fullScores_eq_ok hP h hst
  obtain ⟨i, _, hargmax⟩ := argMax_eq_ok (show 0 < full.length by omega)
    (by rw [hlen]; exact h.fit.slots_le)
  rw [hlen] at hargmax
  unfold elemIteration
  rw [hfull, ok_bind]
  apply onRanks_eq_ok
  intro r
  have hidle : commitWinner (elemSetup N rows globalIds r) (full.getD i 0, i) (st r) =
      .ok (st r, 0, 0) := by
    unfold commitWinner
    rw [(hst.ranks r).state_eq]
    exact if_pos rfl
  show (argMax full (toInt32 (gather rows).length) >>= _) = _
  rw [hargmax, ok_bind, commitAndUpdate, hidle, ok_bind]
  exact updateShard_empty ..

/-- Without a positive sum all ranks raise their flags together. -/
theorem elemIteration_of_exhausted (dev : Fin P → Device) (hst : Stands N rows t false st)
    {full : List ℤ} {i : ℕ}
    (hfull : fullScores (elemSetup N rows globalIds) st = .ok fun _ => full)
    (hargmax : argMax full (toInt32 (gather rows).length) = .ok (full.getD i 0, i))
    (hle : full.getD i 0 ≤ 0)
    (hgain : ∀ s ∈ List.range (gather rows).length, gain (rowSet (gather rows)) t.covered s = 0) :
    ∃ next, elemIteration dev (elemSetup N rows globalIds) st = .ok next ∧
      Stands N rows t true next ∧ ∀ r, (next r).scoresPartial = (st r).scoresPartial := by
  refine ⟨fun r => { st r with state := { (st r).state with done := true } }, ?_, ?_,
    fun r => rfl⟩
  · unfold elemIteration
    rw [hfull, ok_bind]
    apply onRanks_eq_ok
    intro r
    have hstop : commitWinner (elemSetup N rows globalIds r) (full.getD i 0, i) (st r) =
        .ok ({ st r with state := { (st r).state with done := true } }, 0, 0) := by
      unfold commitWinner
      rw [if_neg (by rw [(hst.ranks r).state_eq]; exact Bool.false_ne_true), if_pos hle]
    show (argMax full (toInt32 (gather rows).length) >>= _) = _
    rw [hargmax, ok_bind, commitAndUpdate, hstop, ok_bind]
    exact updateShard_empty ..
  · exact
      { valid := hst.valid
        selected_nodup := hst.selected_nodup
        selected_lt := hst.selected_lt
        done_gain := fun _ => hgain
        ranks := fun r =>
          { hst.ranks r with
            state_eq := by
              show { (st r).state with done := true } = _
              rw [(hst.ranks r).state_eq] } }

/-- Distinct slots that leave one out are fewer than all slots. -/
theorem Stands.length_selected_lt (hst : Stands N rows t finished st) {i : ℕ}
    (hi : i < (gather rows).length) (hsel : i ∉ t.selected) :
    t.selected.length < (gather rows).length := by
  have hsub : t.selected.toFinset ⊂ Finset.range (gather rows).length := by
    rw [Finset.ssubset_iff_of_subset]
    · exact ⟨i, Finset.mem_range.mpr hi, by rwa [List.mem_toFinset]⟩
    · intro s hs
      exact Finset.mem_range.mpr (hst.selected_lt s (List.mem_toFinset.mp hs))
  have hcard := Finset.card_lt_card hsub
  rwa [List.toFinset_card_of_nodup hst.selected_nodup, Finset.card_range] at hcard

/-- With a positive sum all ranks commit the same slot. -/
theorem elemIteration_of_winner (dev : Fin P → Device) (hP : 0 < P) (h : Loaded N rows globalIds)
    (hst : Stands N rows t false st) {full : List ℤ} {i : ℕ}
    (hfull : fullScores (elemSetup N rows globalIds) st = .ok fun _ => full)
    (hargmax : argMax full (toInt32 (gather rows).length) = .ok (full.getD i 0, i))
    (hi : i < (gather rows).length) (hsel : i ∉ t.selected)
    (hscore : full.getD i 0 = gain (rowSet (gather rows)) t.covered i)
    (hpos : 0 < gain (rowSet (gather rows)) t.covered i) :
    ∃ next, elemIteration dev (elemSetup N rows globalIds) st = .ok next ∧
      Stands N rows (t.pick (rowSet (gather rows)) i)
        (decide (N ≤ (t.pick (rowSet (gather rows)) i).covered.card)) next ∧
      ∀ r, Rescored N rows t i r (st r).scoresPartial (next r).scoresPartial := by
  have hcount := hst.length_selected_lt hi hsel
  obtain ⟨next, hnext, hranks⟩ := exists_onRanks_eq_ok fun r =>
    commitAndUpdate_of_pick hP h (dev r) hst.valid (hst.ranks r) hi hcount hpos
  have hvalid := hst.valid.pick (h.rowsFit.subset i)
  refine ⟨next, ?_, ?_, fun r => (hranks r).2⟩
  · unfold elemIteration
    rw [hfull, ok_bind]
    apply onRanks_eq_ok
    intro r
    show (argMax full (toInt32 (gather rows).length) >>= _) = _
    rw [hargmax, ok_bind, hscore]
    exact onRanks_eq_ok_iff.mp hnext r
  · exact
      { valid := hvalid
        selected_nodup := hst.selected_nodup.append (List.nodup_singleton i) (by simpa using hsel)
        selected_lt := fun s hs => by
          rcases List.mem_append.mp hs with hs | hs
          · exact hst.selected_lt s hs
          · exact List.mem_singleton.mp hs ▸ hi
        done_gain := fun hdone s _ =>
          hvalid.gain_eq_zero_of_card (of_decide_eq_true hdone) (h.rowsFit.subset s)
        ranks := fun r => (hranks r).1 }

/-- What one iteration can do: nothing once the flag is up, stop, or pick greedily. -/
inductive Outcome (N : ℕ) (rows : Fin P → List (List ElementId)) (t : Progress)
    (st next : Fin P → RankState) : Bool → Prop
  | idle : next = st → Outcome N rows t st next true
  | stop : (∀ s ∈ List.range (gather rows).length, gain (rowSet (gather rows)) t.covered s = 0) →
      Stands N rows t true next → (∀ r, (next r).scoresPartial = (st r).scoresPartial) →
      Outcome N rows t st next false
  | pick (i : ℕ) :
      IsFirstMax (gain (rowSet (gather rows)) t.covered) (List.range (gather rows).length) i →
      0 < gain (rowSet (gather rows)) t.covered i → i ∉ t.selected →
      Stands N rows (t.pick (rowSet (gather rows)) i)
        (decide (N ≤ (t.pick (rowSet (gather rows)) i).covered.card)) next →
      (∀ r, Rescored N rows t i r (st r).scoresPartial (next r).scoresPartial) →
      Outcome N rows t st next false

theorem elemIteration_outcome (dev : Fin P → Device) (hP : 0 < P) (h : Loaded N rows globalIds)
    (hM : 0 < (gather rows).length) (hst : Stands N rows t finished st) :
    ∃ next, elemIteration dev (elemSetup N rows globalIds) st = .ok next ∧
      Outcome N rows t st next finished := by
  cases finished with
  | true => exact ⟨st, elemIteration_of_finished dev hP h hM hst, .idle rfl⟩
  | false =>
    obtain ⟨full, hfull, hlen, hvalues⟩ := fullScores_eq_ok hP h hst
    obtain ⟨i, hmax, hargmax⟩ := argMax_eq_ok (show 0 < full.length by omega)
      (by rw [hlen]; exact h.fit.slots_le)
    rw [hlen] at hmax hargmax
    have hscores := hst.scores_sum hP h
    have hi := List.mem_range.mp hmax.mem
    have hsum := hmax.congr fun s hs => hvalues s (List.mem_range.mp hs)
    by_cases hpos : 0 < full.getD i 0
    · rw [hvalues i hi] at hpos
      obtain ⟨hsel, hscore⟩ := hscores.of_pos hmax.mem hpos
      obtain ⟨hgreedy, hgain⟩ := hscores.isFirstMax_gain hst.valid hsum hpos
      obtain ⟨next, hstep, hstands, hnext⟩ := elemIteration_of_winner dev hP h hst hfull hargmax hi
        hsel ((hvalues i hi).trans hscore) hgain
      exact ⟨next, hstep, .pick i hgreedy hgain hsel hstands hnext⟩
    · have hnone : ∀ s ∈ List.range (gather rows).length,
          gain (rowSet (gather rows)) t.covered s = 0 := by
        intro s hs
        apply hscores.gain_eq_zero hst.valid hs
        exact le_trans (hsum.le hs) (hvalues i hi ▸ not_lt.mp hpos)
      obtain ⟨next, hstep, hstands, hsame⟩ :=
        elemIteration_of_exhausted dev hst hfull hargmax (not_lt.mp hpos) hnone
      exact ⟨next, hstep, .stop hnone hstands hsame⟩

/-- One iteration leads to a progress whose completions complete the present one. -/
theorem elemIteration_correct (dev : Fin P → Device) (hP : 0 < P) (h : Loaded N rows globalIds)
    (hM : 0 < (gather rows).length) (hst : Stands N rows t finished st) :
    ∃ t' finished' next, elemIteration dev (elemSetup N rows globalIds) st = .ok next ∧
      Stands N rows t' finished' next ∧ LeadsTo rows t t' ∧
      budget N t' finished' ≤ budget N t finished - 1 := by
  obtain ⟨next, hstep, houtcome⟩ := elemIteration_outcome dev hP h hM hst
  cases houtcome with
  | idle hsame =>
    subst hsame
    exact ⟨t, true, next, hstep, hst, fun _ _ => id, Nat.zero_le _⟩
  | stop _ hstands _ => exact ⟨t, true, next, hstep, hstands, fun _ _ => id, Nat.zero_le _⟩
  | pick i hgreedy hgain _ hstands _ =>
    refine ⟨_, _, next, hstep, hstands, fun _ _ hsel => hsel.of_pick hgreedy hgain, ?_⟩
    have hless := remaining_pick_lt hst.valid (h.rowsFit.subset i) hgain
    unfold budget
    rw [if_neg Bool.false_ne_true]
    split_ifs
    · omega
    · omega

/-- What the batches hand back: a final state that stands for a greedy completion. -/
def Completed (N : ℕ) (rows : Fin P → List (List ElementId)) (a : Progress × Bool)
    (final : Fin P → RankState) : Prop :=
  ∃ t', Stands N rows t' true final ∧ LeadsTo rows a.1 t'

theorem batchStep_correct (dev : Fin P → Device) (hP : 0 < P) (h : Loaded N rows globalIds)
    (hM : 0 < (gather rows).length) :
    StepCorrect (batchStep dev (elemSetup N rows globalIds))
      (fun a : Progress × Bool => Stands N rows a.1 a.2) (fun a => budget N a.1 a.2)
      (Completed N rows) := by
  intro a st hst
  obtain ⟨⟨t', finished'⟩, final, hrun, hfinal, hlead, hlow⟩ :=
    foldlM_measure (f := elemIteration dev (elemSetup N rows globalIds))
      (I := fun a : Progress × Bool => Stands N rows a.1 a.2) (R := fun a b => LeadsTo rows a.1 b.1)
      (μ := fun a => budget N a.1 a.2) (fun _ _ _ => id)
      (fun _ _ _ hab hbc gid sel hsel => hab gid sel (hbc gid sel hsel))
      (fun a st hst => by
        obtain ⟨t', finished', next, hstep, hstands, hlead, hlow⟩ :=
          elemIteration_correct dev hP h hM hst
        exact ⟨(t', finished'), next, hstep, hstands, hlead, hlow⟩)
      (List.range kBatch) hst
  have hagree : agree (fun r => (final r).state.done) = .ok finished' := by
    have hflags : (fun r => (final r).state.done) = fun _ : Fin P => finished' :=
      funext fun r => by rw [(hfinal.ranks r).state_eq]
    rw [hflags, agree_const hP]
  have hstep : batchStep dev (elemSetup N rows globalIds) st =
      .ok (if finished' then .inr final else .inl final) := by
    unfold batchStep
    rw [hrun, ok_bind, hagree, ok_bind]
    rfl
  cases finished' with
  | true => exact Or.inl ⟨final, hstep, t', hfinal, hlead⟩
  | false =>
    right
    refine ⟨(t', false), final, hstep, hfinal, ?_, ?_⟩
    · simp only [List.length_range, kBatch, budget, Bool.false_eq_true, if_false] at hlow ⊢
      omega
    · intro result hresult
      obtain ⟨last, hlast, hfrom⟩ := hresult
      exact ⟨last, hlast, fun gid sel hsel => hlead gid sel (hfrom gid sel hsel)⟩

theorem le_foldl_max (l : List ℕ) (a : ℕ) : a ≤ l.foldl max a ∧ ∀ x ∈ l, x ≤ l.foldl max a := by
  induction l generalizing a with
  | nil => simp
  | cons y l ih =>
    obtain ⟨hstart, hmem⟩ := ih (max a y)
    rw [List.foldl_cons]
    refine ⟨le_trans (le_max_left a y) hstart, ?_⟩
    intro x hx
    rcases List.mem_cons.mp hx with rfl | hx
    · exact le_trans (le_max_right a x) hstart
    · exact hmem x hx

theorem stands_initialState (dev : Fin P → Device) (hP : 0 < P) (h : Loaded N rows globalIds) :
    Stands N rows Progress.start false
      fun r => initialState (dev r) (elemSetup N rows globalIds r) where
  valid := Progress.valid_start
  selected_nodup := List.nodup_nil
  selected_lt _ hs := absurd hs List.not_mem_nil
  done_gain hdone := absurd hdone Bool.false_ne_true
  ranks r :=
    { state_eq := rfl
      slots_length := Device.length_alloc ..
      slots_eq := rfl
      covered := by
        show Represents (List.replicate (wordsFor (shardExtent N P r)) 0#64) (shardExtent N P r)
          (localPart N P r ∅)
        rw [localPart_empty]
        exact Represents.empty _
      room := fun s hs => by
        have hsub := subLen_shardCsr (N := N) r hs
        have hmax := (le_foldl_max ((List.range (gather rows).length).map
          (subLen (shardCsr N rows r).offsets)) 0).2 _
            (List.mem_map_of_mem (List.mem_range.mpr hs))
        show _ ≤ ((dev r).alloc 0 (max (elemSetup N rows globalIds r).maxSubLen 1)).length
        rw [Device.length_alloc, patch_shardCsr, ← hsub]
        exact le_trans hmax (le_max_left _ _)
      scores_length := by
        show (initScores _ _).length = _
        rw [initScores, List.length_map, List.length_range]
      scores := fun s hs => by
        have hlen : (subRow N P r ((gather rows).getD s [])).length =
            (localPart N P r (rowSet (gather rows) s)).card := by
          rw [← patch_shardCsr, ← List.toFinset_card_of_nodup (nodup_patch_shardCsr hP h r s),
            toFinset_patch_shardCsr hP h]
          rfl
        refine ⟨fun _ => ?_, fun hsel => absurd hsel List.not_mem_nil⟩
        show (initScores _ _).getD s 0 = (gain _ (localPart N P r ∅) s : ℤ)
        rw [getD_initScores h.fit r hs, hlen, localPart_empty, gain, Finset.sdiff_empty]
        rfl }

/-- The slots drained from the device are the greedy result. -/
theorem drain_eq_ok (h : Loaded N rows globalIds) (hst : Stands N rows t finished st) (r : Fin P) :
    drain (elemSetup N rows globalIds r) (st r) = .ok (t.result (gidOf globalIds)) := by
  have hslots : (gather globalIds).length = (gather rows).length := by
    rw [length_gather, length_gather]
    exact congrArg (fun f : Fin P → ℕ => displacement f P) (funext h.ids_length)
  have hmap : t.selected.mapM (callerId (elemSetup N rows globalIds r)) =
      .ok (t.selected.map (gidOf globalIds)) := by
    apply mapM_eq_ok
    intro s hs
    have hlt : s < (gather globalIds).length := by
      rw [hslots]
      exact hst.selected_lt s hs
    simp only [callerId, elemSetup, gidOf, List.getElem?_eq_getElem hlt,
      List.getD_eq_getElem _ _ hlt]
  unfold drain
  simp only [(hst.ranks r).state_eq, (hst.ranks r).slots_eq]
  rw [hmap, ok_bind]
  rfl

/-- From a setup without oversized patches the loop returns the greedy selection on every rank. -/
theorem select_eq_ok (dev : Fin P → Device) (hP : 0 < P) (h : Loaded N rows globalIds) :
    ∃ sel, Finishes (rowSet (gather rows)) (List.range (gather rows).length)
        (gidOf globalIds) Progress.start sel ∧
      ∀ fuel, N + 1 < fuel → select dev fuel (elemSetup N rows globalIds) = .ok fun _ => sel := by
  have hagree : agree (fun r : Fin P => (elemSetup N rows globalIds r).mGlobal = 0 ∨
      (elemSetup N rows globalIds r).N = 0) = .ok (decide ((gather rows).length = 0 ∨ N = 0)) :=
    agree_const hP (decide ((gather rows).length = 0 ∨ N = 0))
  by_cases hnothing : (gather rows).length = 0 ∨ N = 0
  · refine ⟨_, Finishes.of_done fun s hs => ?_, fun fuel _ => ?_⟩
    · rcases hnothing with hM | hN
      · have hlt := List.mem_range.mp hs
        omega
      · have hsub := h.rowsFit.subset s
        rw [hN, Finset.range_zero] at hsub
        exact gain_eq_zero_iff.mpr (hsub.trans (Finset.empty_subset _))
    · unfold select
      rw [hagree, ok_bind, if_pos (decide_eq_true hnothing)]
      rfl
  · have hM : 0 < (gather rows).length := by omega
    obtain ⟨final, ⟨t', hfinal, hlead⟩, hrun⟩ := loop_correct (batchStep_correct dev hP h hM)
      (t := (Progress.start, false)) (stands_initialState dev hP h)
    refine ⟨_, hlead _ _ (Finishes.of_done (hfinal.done_gain rfl)), fun fuel hfuel => ?_⟩
    have hbudget : budget N Progress.start false < fuel := by
      simp only [budget, remaining, Progress.start, Finset.card_empty, Bool.false_eq_true, if_false]
      omega
    have hloop := hrun fuel hbudget
    unfold select
    rw [hagree, ok_bind, if_neg (by simpa using hnothing), hloop, ok_bind]
    exact onRanks_eq_ok fun r => drain_eq_ok h hfinal r

end Run

section Whole

variable {rawPatches : Fin P → List (List Hash)}

theorem incidencesFit_idRows (htable : TableFits P) (hslots : (gather rawPatches).length ≤ intMax)
    (hincidences : ∀ r, ((rawPatches r).map fun patch => patch.toFinset.card).sum ≤ intMax) :
    IncidencesFit (globalUniq rawPatches).length (idRows rawPatches) where
  rows_fit s := by
    by_cases hs : s < (gather (idRows rawPatches)).length
    · rw [List.getD_eq_getElem _ _ hs]
      obtain ⟨r, hr⟩ := mem_gather.mp (List.getElem_mem hs)
      exact mem_idRows hr
    · rw [List.getD_eq_default _ _ (not_lt.mp hs)]
      simp
  slots_le := by
    rw [Incidence.length_gather_idRows]
    exact hslots
  incidences_le r := by
    rw [Incidence.length_flatten_idRows]
    exact hincidences r
  table_fits := htable
  shards_fit := Incidence.length_globalUniq_add_le htable hincidences

/-- Rows without an oversized patch pass the setup. -/
theorem loaded_of_none (hfit : IncidencesFit N rows)
    (hids : ∀ r, (globalIds r).length = (rows r).length) (h : firstOversized rows = none) :
    Loaded N rows globalIds where
  fit := hfit
  ids_length := hids
  wire s hs := by
    rw [firstOversized, List.find?_eq_none] at h
    simpa using h s (List.mem_range.mpr hs)

theorem lt_of_mem_idRows {r : Fin P} {s : ℕ} {e : ElementId}
    (he : e ∈ (idRows rawPatches r).getD s []) : e < (globalUniq rawPatches).length :=
  Finset.mem_range.mp ((rowsFit_idRows_rank r).subset s (List.mem_toFinset.mpr he))

theorem displacement_length_idRows :
    displacement (fun r => (idRows rawPatches r).length) P = (gather rawPatches).length := by
  rw [← length_gather, Incidence.length_gather_idRows]

/-- Too many patches over all ranks are rejected by the setup. -/
theorem prepare_eq_slotRangeError (hP : 0 < P) (globalIds : Fin P → List PatchId)
    (hslots : intMax < (gather rawPatches).length) :
    prepare (mapped rawPatches) globalIds = .error slotRangeError := by
  apply prepare_of_redistribute_error
  apply redistribute_eq_slotRangeError hP globalIds
  rw [← displacement_length_idRows] at hslots
  exact hslots

/-- A setup that int cannot count, or that cannot look its counts up, leaves the range of int. -/
theorem prepare_eq_overflow (hP : 0 < P)
    (hids : ∀ r, (globalIds r).length = (rawPatches r).length)
    (hslots : (gather rawPatches).length ≤ intMax)
    (h : ¬ ((∀ r, ((rawPatches r).map fun patch => patch.toFinset.card).sum ≤ intMax) ∧
      TableFits P)) :
    prepare (mapped rawPatches) globalIds = .error .overflow := by
  apply prepare_of_redistribute_error
  apply redistribute_eq_overflow hP Incidence.length_globalUniq_le_two_pow N_mapped
    idPatches_mapped (fun _ _ _ he => lt_of_mem_idRows he)
  · rw [displacement_length_idRows]
    exact hslots
  · intro r
    rw [hids, length_idRows]
  · simp only [Incidence.length_flatten_idRows]
    exact h

variable (hP : 0 < P) (dev : Fin P → Device) (hfit : CountsFit rawPatches)
include hP hfit

theorem patchSelect_eq_prepare (fuel : ℕ) :
    patchSelect dev fuel rawPatches globalIds =
      prepare (mapped rawPatches) globalIds >>= select dev fuel := by
  unfold patchSelect
  rw [(mapHashes_eq_ok_iff hP _).mpr ⟨hfit, rfl⟩, ok_bind]

variable (hids : ∀ r, (globalIds r).length = (rawPatches r).length)
  (hslots : (gather rawPatches).length ≤ intMax)
include hids hslots

theorem patchSelect_eq_overflow
    (h : ¬ ((∀ r, ((rawPatches r).map fun patch => patch.toFinset.card).sum ≤ intMax) ∧
      TableFits P)) (fuel : ℕ) :
    patchSelect dev fuel rawPatches globalIds = .error .overflow := by
  rw [patchSelect_eq_prepare hP dev hfit, prepare_eq_overflow hP hids hslots h, error_bind]

variable (hincidences : ∀ r, ((rawPatches r).map fun patch => patch.toFinset.card).sum ≤ intMax)
  (htable : TableFits P)
include hincidences htable

/-- Otherwise the ByElement selector returns the greedy selection on every rank. -/
theorem patchSelect_eq_ok
    (hwire : ∀ s < (gather rawPatches).length,
      ((Incidence.hashSet rawPatches s).card : ℤ) ≤ wireMax P) :
    ∃ sel, Finishes (rowSet (gather (idRows rawPatches)))
        (List.range (gather (idRows rawPatches)).length) (gidOf globalIds) Progress.start sel ∧
      ∀ fuel, (globalUniq rawPatches).length + 1 < fuel →
        patchSelect dev fuel rawPatches globalIds = .ok fun _ => sel := by
  have hload : Loaded (globalUniq rawPatches).length (idRows rawPatches) globalIds :=
    { fit := incidencesFit_idRows htable hslots hincidences
      ids_length := fun r => by rw [hids, length_idRows]
      wire := fun s hs => by
        rw [Incidence.length_gather_idRows] at hs
        rw [Incidence.card_rowSet_idRows]
        exact hwire s hs }
  have hnone : firstOversized (idRows rawPatches) = none := by
    rw [firstOversized, List.find?_eq_none]
    intro s hs
    simpa using hload.wire s (List.mem_range.mp hs)
  have hprepare := prepare_eq hP N_mapped idPatches_mapped hload.fit hload.ids_length
  rw [hnone] at hprepare
  obtain ⟨sel, hsel, hrun⟩ := select_eq_ok dev hP hload
  refine ⟨sel, hsel, fun fuel hfuel => ?_⟩
  rw [patchSelect_eq_prepare hP dev hfit, hprepare]
  exact hrun fuel hfuel

end Whole

section Returned

variable {rawPatches : Fin P → List (List Hash)} {fuel : ℕ} {sels : Fin P → PatchSelection}

/-- A setup that succeeds has counted everything in int and rejected nothing. -/
theorem loaded_of_prepare (hP : 0 < P) (hids : ∀ r, (globalIds r).length = (rawPatches r).length)
    {su : Fin P → ElemSetup} (h : prepare (mapped rawPatches) globalIds = .ok su) :
    Loaded (globalUniq rawPatches).length (idRows rawPatches) globalIds ∧
      su = elemSetup (globalUniq rawPatches).length (idRows rawPatches) globalIds := by
  have hrows : ∀ r, (globalIds r).length = (idRows rawPatches r).length := fun r => by
    rw [hids, length_idRows]
  have hslots : (gather rawPatches).length ≤ intMax := by
    by_contra hover
    rw [prepare_eq_slotRangeError hP globalIds (not_le.mp hover)] at h
    cases h
  have hcounts : (∀ r, ((rawPatches r).map fun patch => patch.toFinset.card).sum ≤ intMax) ∧
      TableFits P := by
    by_contra hover
    rw [prepare_eq_overflow hP hids hslots hover] at h
    cases h
  have hfit : IncidencesFit (globalUniq rawPatches).length (idRows rawPatches) :=
    incidencesFit_idRows hcounts.2 hslots hcounts.1
  have hprepare := prepare_eq hP N_mapped idPatches_mapped hfit hrows
  cases hover : firstOversized (idRows rawPatches) with
  | some s =>
    rw [hover, h] at hprepare
    cases hprepare
  | none =>
    rw [hover, h] at hprepare
    exact ⟨loaded_of_none hfit hrows hover, Except.ok.inj hprepare⟩

end Returned

end PatternSearch.ByElementRun
