import PatternSearch.ByElementRun

/-!
What holds between the iterations of the ByElement loop, in every run and on every rank. The
partial score of a slot counts its uncovered elements in the shard; once the slot is selected
it stays at the disabled score less the elements that the slot newly covered there. Sums over
ranks therefore never leave the int32 range, no slot is selected twice, and neither the list
of selected slots nor the list of newly covered ids outgrows its buffer.
-/

namespace PatternSearch.ByElementInvariant

open Machine Collectives Csr Transpose WordBits Kernels FirstMaximum GreedyCover Selection
  HashMapping IdAssignment Setup Shards ByElement ElementSetup ByElementRun

variable {P : ℕ}

/-- The states that the iterations of the loop lead to from a setup. -/
inductive Run (dev : Fin P → Device) (su : Fin P → ElemSetup) : (Fin P → RankState) → Prop
  | start : Run dev su fun r => initialState (dev r) (su r)
  | step {st next : Fin P → RankState} :
      Run dev su st → elemIteration dev su st = .ok next → Run dev su next

/-- How many elements of a slot in a shard none of the slots before it has. -/
def newlyCount (sub : PatchCsr) (before : List PatchId) (s : PatchId) : ℕ :=
  ((sub.patch s).filter fun e => ∀ s' ∈ before, e ∉ sub.patch s').length

/-- The states of all ranks between two iterations, by the slots selected so far. The rows
are the elements of all slots. -/
structure Between (rows : List (List ElementId)) (su : Fin P → ElemSetup)
    (selected : List PatchId) (st : Fin P → RankState) : Prop where
  selected_nodup : selected.Nodup
  selected_lt : ∀ s ∈ selected, s < rows.length
  numSelected : ∀ r, (st r).state.numSelected = selected.length
  numSelected_le : ∀ r, (st r).state.numSelected ≤ (su r).mGlobal
  selectedSlots : ∀ r, (st r).selectedSlots.take (st r).state.numSelected = selected
  selectedSlots_length : ∀ r, (st r).selectedSlots.length = (su r).mGlobal
  newlyIds_length : ∀ r, (su r).maxSubLen ≤ (st r).newlyIds.length
  covered : ∀ r e, testBit (st r).covered e = true ↔
    ∃ s ∈ selected, e < (su r).shardExtent ∧ shardBase (su r).N P r + e ∈ rows.getD s []
  score : ∀ r, ∀ s < rows.length, s ∉ selected → (st r).scoresPartial.getD s 0 =
    (((su r).sub.patch s).filter fun e => testBit (st r).covered e = false).length
  disabled : ∀ r k, k < selected.length → (st r).scoresPartial.getD (selected.getD k 0) 0 =
    -1 - newlyCount (su r).sub (selected.take k) (selected.getD k 0)
  sum_score : ∀ s < rows.length, s ∉ selected → ∑ r, (st r).scoresPartial.getD s 0 =
    ((rows.getD s []).filter fun e => ∀ s' ∈ selected, e ∉ rows.getD s' []).length
  sum_disabled : ∀ s ∈ selected,
    -(P : ℤ) - (rows.getD s []).length ≤ ∑ r, (st r).scoresPartial.getD s 0 ∧
      ∑ r, (st r).scoresPartial.getD s 0 ≤ -(P : ℤ)
  in_range : ∀ s < rows.length, ∀ ranks : Finset (Fin P),
    -(2 ^ 31) ≤ ∑ r ∈ ranks, (st r).scoresPartial.getD s 0 ∧
      ∑ r ∈ ranks, (st r).scoresPartial.getD s 0 < 2 ^ 31

/-- What setup has made of the rows. -/
structure SetUp (rows : List (List ElementId)) (su : Fin P → ElemSetup) : Prop where
  mGlobal : ∀ r, (su r).mGlobal = rows.length
  sub : ∀ r s e, e ∈ (su r).sub.patch s ↔
    e < (su r).shardExtent ∧ shardBase (su r).N P r + e ∈ rows.getD s []

/-- The ArgMax of every rank finds slot s with a positive sum, and the loop is still running. -/
structure Wins (su : Fin P → ElemSetup) (st : Fin P → RankState) (s : PatchId) (score : ℤ) :
    Prop where
  running : ∀ r, (st r).state.done = false
  argmax : ∃ full, fullScores su st = .ok full ∧
    ∀ r, argMax (full r) (toInt32 (su r).mGlobal) = .ok (score, s)
  pos : 0 < score

/-- An iteration that slot s wins with a score. On every rank the build kernel fills the front
of the buffer with the uncovered elements of the slot, in any order; over all ranks they are
as many as the score. The atomic operations lower the partial scores, the winner's from the
disabled score, to values between two iterations. -/
structure Iterates (rows : List (List ElementId)) (su : Fin P → ElemSetup)
    (selected : List PatchId) (st : Fin P → RankState) (s : PatchId) (score : ℤ) : Prop where
  lt : s < rows.length
  fresh : s ∉ selected
  score_eq : score = ∑ r, (st r).scoresPartial.getD s 0
  sum_newly : (∑ r, (newlyCount (su r).sub selected s : ℤ)) = score
  emits : ∀ r (d : Device) (iteration : ℕ) (buf : List ElementId),
    (su r).maxSubLen ≤ buf.length → ∃ newly,
      ListsUncovered ((su r).sub.patch s) (st r).covered
        (newlyCount (su r).sub selected s) newly ∧
      newly.length ≤ (su r).maxSubLen ∧
      d.launch iteration 0 ((su r).sub.patch s) (emitUncovered (st r).covered)
        { ids := buf, count := 0 } =
          .ok { ids := newly ++ buf.drop newly.length, count := newly.length }
  applies : ∀ dev : Fin P → Device, ∃ next, elemIteration dev su st = .ok next ∧
    Between rows su (selected ++ [s]) next ∧
    ∀ r, ∀ q < rows.length, (next r).scoresPartial.getD q 0 ≤
      if q = s then kDisabledWireScore else (st r).scoresPartial.getD q 0

section Exact

variable {N : ℕ} {rows : Fin P → List (List ElementId)} {globalIds : Fin P → List PatchId}
  {t : Progress} {finished : Bool} {st next : Fin P → RankState} {dev : Fin P → Device}

/-- Besides standing for a progress: its covered set is what the selected slots have, and every
selected slot keeps count of what it newly covered. -/
structure Exact (N : ℕ) (rows : Fin P → List (List ElementId)) (t : Progress) (finished : Bool)
    (st : Fin P → RankState) : Prop where
  stands : Stands N rows t finished st
  covered : ∀ e, e ∈ t.covered ↔ ∃ s ∈ t.selected, e ∈ (gather rows).getD s []
  disabled : ∀ r k, k < t.selected.length →
    (st r).scoresPartial.getD (t.selected.getD k 0) 0 =
      -1 - newlyCount (shardCsr N rows r) (t.selected.take k) (t.selected.getD k 0)

theorem exact_initialState (dev : Fin P → Device) (hP : 0 < P) (h : Loaded N rows globalIds) :
    Exact N rows Progress.start false
      fun r => initialState (dev r) (elemSetup N rows globalIds r) where
  stands := stands_initialState dev hP h
  covered e := by simp [Progress.start]
  disabled r k hk := absurd hk (Nat.not_lt_zero k)

theorem mem_patch_shardCsr (hP : 0 < P) (h : Loaded N rows globalIds) (r : Fin P) (s : ℕ)
    (e : ElementId) : e ∈ (shardCsr N rows r).patch s ↔
      e < shardExtent N P r ∧ shardBase N P r + e ∈ (gather rows).getD s [] := by
  rw [← List.mem_toFinset, toFinset_patch_shardCsr hP h, shardSets, mem_localPart, rowSet,
    List.mem_toFinset]

/-- An element of the shard is covered when a selected slot has it there. -/
theorem Exact.mem_localPart_iff (hP : 0 < P) (h : Loaded N rows globalIds)
    (hst : Exact N rows t finished st) (r : Fin P) (e : ElementId) :
    e ∈ localPart N P r t.covered ↔ ∃ s ∈ t.selected, e ∈ (shardCsr N rows r).patch s := by
  simp only [mem_localPart, hst.covered, mem_patch_shardCsr hP h]
  constructor
  · intro hmem
    obtain ⟨hlt, s, hs, he⟩ := hmem
    exact ⟨s, hs, hlt, he⟩
  · intro hmem
    obtain ⟨s, hs, hlt, he⟩ := hmem
    exact ⟨hlt, s, hs, he⟩

theorem gain_shardSets_eq_length (hP : 0 < P) (h : Loaded N rows globalIds) (r : Fin P) (s : ℕ)
    (C : Finset ElementId) : gain (shardSets N P r (rowSet (gather rows))) C s =
      (((shardCsr N rows r).patch s).filter fun e => e ∉ C).length :=
  gain_eq_length_filter (toFinset_patch_shardCsr hP h r s).symm (nodup_patch_shardCsr hP h r s)

/-- What a slot has left in a shard is what it would newly cover. -/
theorem Exact.gain_eq_newlyCount (hP : 0 < P) (h : Loaded N rows globalIds)
    (hst : Exact N rows t finished st) (r : Fin P) (s : ℕ) :
    gain (shardSets N P r (rowSet (gather rows))) (localPart N P r t.covered) s =
      newlyCount (shardCsr N rows r) t.selected s := by
  rw [gain_shardSets_eq_length hP h, newlyCount]
  congr 1
  apply List.filter_congr
  intro e _
  apply decide_eq_decide.mpr
  rw [hst.mem_localPart_iff hP h]
  simp only [not_exists, not_and]

theorem Exact.testBit_iff (hst : Exact N rows t finished st) (r : Fin P) (e : ℕ) :
    testBit (st r).covered e = true ↔ e ∈ localPart N P r t.covered := by
  rw [((hst.stands.ranks r).covered).test_eq, decide_eq_true_eq]

theorem Exact.testBit_false_iff (hst : Exact N rows t finished st) (r : Fin P) (e : ℕ) :
    testBit (st r).covered e = false ↔ e ∉ localPart N P r t.covered := by
  rw [((hst.stands.ranks r).covered).test_eq, decide_eq_false_iff_not]

theorem Exact.length_selected_le (hst : Exact N rows t finished st) :
    t.selected.length ≤ (gather rows).length := by
  have hsub : t.selected.toFinset ⊆ Finset.range (gather rows).length := by
    intro s hs
    exact Finset.mem_range.mpr (hst.stands.selected_lt s (List.mem_toFinset.mp hs))
  have hcard := Finset.card_le_card hsub
  rwa [List.toFinset_card_of_nodup hst.stands.selected_nodup, Finset.card_range] at hcard

theorem Exact.score (hP : 0 < P) (h : Loaded N rows globalIds)
    (hst : Exact N rows t finished st) (r : Fin P) {s : ℕ} (hs : s < (gather rows).length)
    (hsel : s ∉ t.selected) : (st r).scoresPartial.getD s 0 =
      (((shardCsr N rows r).patch s).filter fun e => testBit (st r).covered e = false).length := by
  rw [((hst.stands.ranks r).scores s hs).unselected hsel, gain_shardSets_eq_length hP h]
  simp only [hst.testBit_false_iff]

theorem length_row (h : Loaded N rows globalIds) (s : ℕ) :
    ((gather rows).getD s []).length = (rowSet (gather rows) s).card :=
  (List.toFinset_card_of_nodup (h.rowsFit.nodup s)).symm

theorem Exact.sum_score (hP : 0 < P) (h : Loaded N rows globalIds)
    (hst : Exact N rows t finished st) {s : ℕ} (hs : s < (gather rows).length)
    (hsel : s ∉ t.selected) : ∑ r, (st r).scoresPartial.getD s 0 =
      ((((gather rows).getD s []).filter
        fun e => ∀ s' ∈ t.selected, e ∉ (gather rows).getD s' []).length : ℤ) := by
  have hrow : rowSet (gather rows) s = ((gather rows).getD s []).toFinset := rfl
  rw [(hst.stands.sum_scores hP h hs).1 hsel, gain_eq_length_filter hrow (h.rowsFit.nodup s)]
  simp only [hst.covered, not_exists, not_and]

/-- Sums over some of the ranks stay in range as well, in whatever order they are formed. -/
theorem Exact.in_range (hP : 0 < P) (h : Loaded N rows globalIds)
    (hst : Exact N rows t finished st) {s : ℕ} (hs : s < (gather rows).length)
    (ranks : Finset (Fin P)) :
    -(2 ^ 31) ≤ ∑ r ∈ ranks, (st r).scoresPartial.getD s 0 ∧
      ∑ r ∈ ranks, (st r).scoresPartial.getD s 0 < 2 ^ 31 := by
  obtain ⟨hunselected, hselected⟩ := hst.stands.sum_scores hP h hs
  have hsplit := Finset.sum_add_sum_compl ranks fun r => (st r).scoresPartial.getD s 0
  have hwire := h.wire s hs
  have hgain : gain (rowSet (gather rows)) t.covered s ≤ (rowSet (gather rows) s).card :=
    Finset.card_le_card Finset.sdiff_subset
  unfold wireMax intMax at hwire
  by_cases hsel : s ∈ t.selected
  · have hnonpos : ∀ T : Finset (Fin P), ∑ r ∈ T, (st r).scoresPartial.getD s 0 ≤ 0 := by
      intro T
      apply Finset.sum_nonpos
      intro r _
      have hbound := (((hst.stands.ranks r).scores s hs).selected hsel).1
      omega
    have hsum := hselected hsel
    have hin := hnonpos ranks
    have hout := hnonpos ranksᶜ
    omega
  · have hnonneg : ∀ T : Finset (Fin P), 0 ≤ ∑ r ∈ T, (st r).scoresPartial.getD s 0 := by
      intro T
      apply Finset.sum_nonneg
      intro r _
      rw [((hst.stands.ranks r).scores s hs).unselected hsel]
      exact Int.natCast_nonneg _
    have hsum := hunselected hsel
    have hin := hnonneg ranks
    have hout := hnonneg ranksᶜ
    omega

theorem foldl_max_le {l : List ℕ} {a b : ℕ} (ha : a ≤ b) (hl : ∀ x ∈ l, x ≤ b) :
    l.foldl max a ≤ b := by
  induction l generalizing a with
  | nil => exact ha
  | cons x l ih =>
    rw [List.foldl_cons]
    apply ih
    · exact max_le ha (hl x (List.mem_cons_self ..))
    · intro y hy
      exact hl y (List.mem_cons_of_mem _ hy)

theorem Exact.between (hP : 0 < P) (h : Loaded N rows globalIds)
    (hst : Exact N rows t finished st) :
    Between (gather rows) (elemSetup N rows globalIds) t.selected st where
  selected_nodup := hst.stands.selected_nodup
  selected_lt := hst.stands.selected_lt
  numSelected r := by rw [(hst.stands.ranks r).state_eq]
  numSelected_le r := by
    rw [(hst.stands.ranks r).state_eq]
    exact hst.length_selected_le
  selectedSlots r := by
    rw [(hst.stands.ranks r).state_eq]
    exact (hst.stands.ranks r).slots_eq
  selectedSlots_length r := (hst.stands.ranks r).slots_length
  newlyIds_length r := by
    apply foldl_max_le (Nat.zero_le _)
    intro x hx
    obtain ⟨s, hs, rfl⟩ := List.mem_map.mp hx
    have hlt := List.mem_range.mp hs
    rw [subLen_shardCsr (N := N) r hlt, ← patch_shardCsr]
    exact (hst.stands.ranks r).room s hlt
  covered r e := by
    rw [hst.testBit_iff, hst.mem_localPart_iff hP h]
    simp only [mem_patch_shardCsr hP h]
    rfl
  score r s hs hsel := hst.score hP h r hs hsel
  disabled := hst.disabled
  sum_score s hs hsel := hst.sum_score hP h hs hsel
  sum_disabled s hsel := by
    have hsum := (hst.stands.sum_scores hP h (hst.stands.selected_lt s hsel)).2 hsel
    rw [length_row h]
    exact ⟨hsum.2, hsum.1⟩
  in_range s hs ranks := hst.in_range hP h hs ranks

/-- A slot that is not the winner keeps its partial score once it is selected. -/
theorem getD_of_rescored (hst : Exact N rows t finished st) {i : ℕ} (hsel : i ∉ t.selected)
    (hnext : ∀ r, Rescored N rows t i r (st r).scoresPartial (next r).scoresPartial) (r : Fin P)
    {s : ℕ} (hs : s ∈ t.selected) :
    (next r).scoresPartial.getD s 0 = (st r).scoresPartial.getD s 0 := by
  have hne : s ≠ i := fun heq => hsel (heq ▸ hs)
  have hvalue := hnext r s (hst.stands.selected_lt s hs)
  have hbefore := Stands.gain_shard_eq_zero (r := r) hst.stands.valid hs
  have hafter : gain (shardSets N P r (rowSet (gather rows)))
      (localPart N P r t.covered ∪ shardSets N P r (rowSet (gather rows)) i) s ≤ _ :=
    gain_anti Finset.subset_union_left
  rw [if_neg hne] at hvalue
  omega

/-- Selecting a slot: the other selected slots keep their scores, and the new one ends at the
disabled score less what it newly covered. -/
theorem Exact.pick (hP : 0 < P) (h : Loaded N rows globalIds) (hst : Exact N rows t false st)
    {i : ℕ} (hi : i < (gather rows).length) (hsel : i ∉ t.selected)
    (hstands : Stands N rows (t.pick (rowSet (gather rows)) i)
      finished next)
    (hnext : ∀ r, Rescored N rows t i r (st r).scoresPartial (next r).scoresPartial) :
    Exact N rows (t.pick (rowSet (gather rows)) i) finished next where
  stands := hstands
  covered e := by
    rw [Progress.pick, Finset.mem_union, hst.covered, rowSet, List.mem_toFinset]
    simp only [List.mem_append, List.mem_singleton, or_and_right, exists_or, exists_eq_left]
  disabled r k hk := by
    rw [Progress.pick, List.length_append, List.length_singleton] at hk
    rw [Progress.pick]
    by_cases hold : k < t.selected.length
    · have hget : (t.selected ++ [i]).getD k 0 = t.selected.getD k 0 :=
        List.getD_append _ _ _ _ hold
      have hmem : t.selected.getD k 0 ∈ t.selected := by
        rw [List.getD_eq_getElem _ _ hold]
        exact List.getElem_mem hold
      rw [hget, List.take_append_of_le_length (Nat.le_of_lt hold),
        getD_of_rescored hst hsel hnext r hmem]
      exact hst.disabled r k hold
    · obtain rfl : k = t.selected.length := by omega
      have hget : (t.selected ++ [i]).getD t.selected.length 0 = i := by
        rw [List.getD_append_right _ _ _ _ (Nat.le_refl _), Nat.sub_self]
        rfl
      have hvalue := hnext r i hi
      have hzero : gain (shardSets N P r (rowSet (gather rows)))
          (localPart N P r t.covered ∪ shardSets N P r (rowSet (gather rows)) i) i = 0 :=
        gain_eq_zero_iff.mpr Finset.subset_union_right
      rw [hget, List.take_left, ← hst.gain_eq_newlyCount hP h]
      rw [if_pos rfl] at hvalue
      omega

/-- The winner is a slot that has not been selected, and its sum is its gain. -/
theorem Exact.winner (hP : 0 < P) (h : Loaded N rows globalIds)
    (hst : Exact N rows t finished st) {s : ℕ} {score : ℤ}
    (hwins : Wins (elemSetup N rows globalIds) st s score) :
    finished = false ∧ s < (gather rows).length ∧ s ∉ t.selected ∧
      score = ∑ r, (st r).scoresPartial.getD s 0 ∧
      score = gain (rowSet (gather rows)) t.covered s := by
  have hrunning := hwins.running ⟨0, hP⟩
  rw [(hst.stands.ranks _).state_eq] at hrunning
  obtain ⟨full, hfull, hargmax⟩ := hwins.argmax
  obtain ⟨sums, hsums, hlen, hvalues⟩ := fullScores_eq_ok hP h hst.stands
  obtain rfl := Except.ok.inj (hsums.symm.trans hfull)
  obtain ⟨hs, hscore⟩ := argMax_spec (hargmax ⟨0, hP⟩)
  rw [hlen] at hs
  rw [hvalues s hs] at hscore
  have hpos := hwins.pos
  rw [hscore] at hpos
  obtain ⟨hsel, hgain⟩ := (hst.stands.scores_sum hP h).of_pos (List.mem_range.mpr hs) hpos
  exact ⟨hrunning, hs, hsel, hscore, hscore.trans hgain⟩

/-- An iteration selects the slot that wins it. -/
theorem Exact.step_of_wins (dev : Fin P → Device) (hP : 0 < P) (h : Loaded N rows globalIds)
    (hst : Exact N rows t finished st) {s : ℕ} {score : ℤ}
    (hwins : Wins (elemSetup N rows globalIds) st s score) :
    ∃ next finished', elemIteration dev (elemSetup N rows globalIds) st = .ok next ∧
      Exact N rows (t.pick (rowSet (gather rows)) s) finished' next ∧
      ∀ r, Rescored N rows t s r (st r).scoresPartial (next r).scoresPartial := by
  obtain ⟨rfl, hs, hsel, hscore, hgain⟩ := hst.winner hP h hwins
  obtain ⟨full, hfull, hargmax⟩ := hwins.argmax
  obtain ⟨sums, hsums, hlen, hvalues⟩ := fullScores_eq_ok hP h hst.stands
  obtain rfl := Except.ok.inj (hsums.symm.trans hfull)
  have hget : sums.getD s 0 = score := (argMax_spec (hargmax ⟨0, hP⟩)).2.symm
  have hpos := hwins.pos
  rw [hgain] at hpos
  obtain ⟨next, hstep, hstands, hnext⟩ := elemIteration_of_winner dev hP h hst.stands hsums
    (hget.symm ▸ hargmax ⟨0, hP⟩) hs hsel (hget.trans hgain) (by omega)
  exact ⟨next, _, hstep, hst.pick hP h hs hsel hstands hnext, hnext⟩

/-- The step lemma: an iteration runs through, selects at most one more slot, and leaves the
partial scores of the selected slots alone. -/
theorem Exact.step (dev : Fin P → Device) (hP : 0 < P) (h : Loaded N rows globalIds)
    (hM : 0 < (gather rows).length) (hst : Exact N rows t finished st) :
    ∃ t' finished' next, elemIteration dev (elemSetup N rows globalIds) st = .ok next ∧
      Exact N rows t' finished' next ∧ t.selected <+: t'.selected ∧
      ∀ r, ∀ s ∈ t.selected, (next r).scoresPartial.getD s 0 = (st r).scoresPartial.getD s 0 := by
  obtain ⟨next, hstep, houtcome⟩ := elemIteration_outcome dev hP h hM hst.stands
  cases houtcome with
  | idle hsame =>
    subst hsame
    exact ⟨t, true, next, hstep, hst, List.prefix_rfl, fun _ _ _ => rfl⟩
  | stop _ hstands hsame =>
    refine ⟨t, true, next, hstep, ⟨hstands, hst.covered, fun r k hk => ?_⟩, List.prefix_rfl,
      fun r s _ => by rw [hsame]⟩
    rw [hsame]
    exact hst.disabled r k hk
  | pick i hgreedy _ hsel hstands hnext =>
    have hi := List.mem_range.mp hgreedy.mem
    exact ⟨_, _, next, hstep, hst.pick hP h hi hsel hstands hnext, List.prefix_append _ _,
      fun r s hs => getD_of_rescored hst hsel hnext r hs⟩

/-- A part of a slot is no longer than the widest. -/
theorem length_patch_le_maxSubLen (r : Fin P) {s : ℕ} (hs : s < (gather rows).length) :
    ((shardCsr N rows r).patch s).length ≤ (elemSetup N rows globalIds r).maxSubLen := by
  have hsub := subLen_shardCsr (N := N) r hs
  rw [patch_shardCsr, ← hsub]
  exact (le_foldl_max _ 0).2 _ (List.mem_map_of_mem (List.mem_range.mpr hs))

/-- What the build kernel lists on a rank is what the slot newly covers in its shard. -/
theorem Exact.emits (hP : 0 < P) (h : Loaded N rows globalIds)
    (hst : Exact N rows t finished st) {s : ℕ} (hs : s < (gather rows).length) (r : Fin P)
    (d : Device) (iteration : ℕ) {buf : List ElementId}
    (hroom : (elemSetup N rows globalIds r).maxSubLen ≤ buf.length) :
    ∃ newly, ListsUncovered ((shardCsr N rows r).patch s) (st r).covered
        (newlyCount (shardCsr N rows r) t.selected s) newly ∧
      newly.length ≤ (elemSetup N rows globalIds r).maxSubLen ∧
      d.launch iteration 0 ((shardCsr N rows r).patch s) (emitUncovered (st r).covered)
        { ids := buf, count := 0 } =
          .ok { ids := newly ++ buf.drop newly.length, count := newly.length } := by
  have hrep := (hst.stands.ranks r).covered
  have hwide : ((shardCsr N rows r).patch s).length ≤
      (elemSetup N rows globalIds r).maxSubLen := length_patch_le_maxSubLen r hs
  have hshort := List.length_filter_le (fun e => e ∉ localPart N P r t.covered)
    ((shardCsr N rows r).patch s)
  have hsmall := length_patch_shardCsr_le h r s
  unfold intMax at hsmall
  obtain ⟨newly, hperm, hrun⟩ := launch_emitUncovered d iteration 0 hrep
    ((shardCsr N rows r).patch s) buf (fun e he => mem_patch_shardCsr_lt hP h he)
    (le_trans hshort (le_trans hwide hroom)) (lt_of_le_of_lt hshort (by omega))
  refine ⟨newly, listsUncovered_of_perm hrep (nodup_patch_shardCsr hP h r s) hperm ?_, ?_, hrun⟩
  · rw [← hst.gain_eq_newlyCount hP h, gain_shardSets_eq_length hP h]
  · rw [hperm.length_eq]
    exact le_trans hshort hwide

theorem Exact.iterates (hP : 0 < P) (h : Loaded N rows globalIds)
    (hst : Exact N rows t finished st) {s : ℕ} {score : ℤ}
    (hwins : Wins (elemSetup N rows globalIds) st s score) :
    Iterates (gather rows) (elemSetup N rows globalIds) t.selected st s score := by
  obtain ⟨-, hs, hsel, hscore, hgain⟩ := hst.winner hP h hwins
  constructor
  case lt => exact hs
  case fresh => exact hsel
  case score_eq => exact hscore
  case sum_newly =>
    have hsum := sum_gain_shardSets hP h.fit.shards_fit (h.rowsFit.subset s) t.covered
    rw [hgain, ← hsum, Nat.cast_sum]
    apply Finset.sum_congr rfl
    intro r _
    rw [hst.gain_eq_newlyCount hP h]
    rfl
  case emits =>
    intro r d iteration buf hroom
    exact hst.emits hP h hs r d iteration hroom
  case applies =>
    intro dev
    obtain ⟨next, finished', hstep, hnext, hrescored⟩ := hst.step_of_wins dev hP h hwins
    refine ⟨next, hstep, hnext.between hP h, ?_⟩
    intro r q hq
    have hvalue := hrescored r q hq
    have hanti : gain (shardSets N P r (rowSet (gather rows)))
        (localPart N P r t.covered ∪ shardSets N P r (rowSet (gather rows)) s) q ≤
          gain (shardSets N P r (rowSet (gather rows))) (localPart N P r t.covered) q :=
      gain_anti Finset.subset_union_left
    unfold kDisabledWireScore
    omega

theorem setUp_elemSetup (hP : 0 < P) (h : Loaded N rows globalIds) :
    SetUp (gather rows) (elemSetup N rows globalIds) where
  mGlobal _ := rfl
  sub r s e := mem_patch_shardCsr hP h r s e

/-- The run lemma. -/
theorem exact_of_run (hP : 0 < P) (h : Loaded N rows globalIds)
    (hrun : Run dev (elemSetup N rows globalIds) st) :
    ∃ t finished, Exact N rows t finished st := by
  induction hrun with
  | start => exact ⟨Progress.start, false, exact_initialState dev hP h⟩
  | @step st next _ hstep ih =>
    obtain ⟨t, finished, hst⟩ := ih
    have hM : 0 < (gather rows).length := by
      by_contra hzero
      -- Without slots the ArgMax has nothing to look at.
      obtain ⟨full, hfull, hranks⟩ := bind_eq_ok.mp hstep
      obtain ⟨best, hbest, -⟩ := bind_eq_ok.mp (onRanks_eq_ok_iff.mp hranks ⟨0, hP⟩)
      obtain ⟨hlt, -⟩ := argMax_spec hbest
      obtain ⟨sums, hsums, hlen, -⟩ := fullScores_eq_ok hP h hst.stands
      obtain rfl := Except.ok.inj (hsums.symm.trans hfull)
      dsimp only at hlt
      omega
    obtain ⟨t', finished', next', hstep', hnext, -⟩ := hst.step dev hP h hM
    obtain rfl := Except.ok.inj (hstep.symm.trans hstep')
    exact ⟨t', finished', hnext⟩

end Exact

/-- In every run the states between two iterations meet the invariant. The next iteration runs
through whatever the devices do, selects at most one more slot and leaves the selected ones
alone; and where a slot wins, it is as it should be. -/
theorem between_of_run (hP : 0 < P) {rawPatches : Fin P → List (List Hash)}
    {globalIds : Fin P → List PatchId}
    (hids : ∀ r, (globalIds r).length = (rawPatches r).length) {m : Fin P → IdMappedPatches}
    (hmap : mapHashesToElementIds rawPatches = .ok m) {su : Fin P → ElemSetup}
    (hprepare : prepare m globalIds = .ok su) {dev : Fin P → Device} {st : Fin P → RankState}
    (hrun : Run dev su st) :
    ∃ selected, SetUp (gather fun r => (m r).idPatches) su ∧
      Between (gather fun r => (m r).idPatches) su selected st ∧
      (∀ s score, Wins su st s score →
        Iterates (gather fun r => (m r).idPatches) su selected st s score) ∧
      (0 < (gather rawPatches).length → ∀ dev' : Fin P → Device, ∃ next selected',
        elemIteration dev' su st = .ok next ∧ selected <+: selected' ∧
          Between (gather fun r => (m r).idPatches) su selected' next ∧
          ∀ r, ∀ s ∈ selected,
            (next r).scoresPartial.getD s 0 = (st r).scoresPartial.getD s 0) := by
  obtain ⟨-, rfl⟩ := (mapHashes_eq_ok_iff hP m).mp hmap
  obtain ⟨hload, rfl⟩ := loaded_of_prepare hP hids hprepare
  obtain ⟨t, finished, hst⟩ := exact_of_run hP hload hrun
  refine ⟨t.selected, setUp_elemSetup hP hload, hst.between hP hload, ?_, ?_⟩
  · intro s score hwins
    exact hst.iterates hP hload hwins
  · intro hM dev'
    rw [← Incidence.length_gather_idRows] at hM
    obtain ⟨t', finished', next, hstep, hnext, hprefix, hsame⟩ := hst.step dev' hP hload hM
    exact ⟨next, t'.selected, hstep, hprefix, hnext.between hP hload, hsame⟩

/-- Two ranks, the first slot wins with two elements. -/
theorem between_of_run_two_ranks :
    ∃ m su selected next, mapHashesToElementIds ![[[5, 7], [7]], [[9]]] = .ok m ∧
      prepare m ![[10, 20], [30]] = .ok su ∧
      Between (gather fun r => (m r).idPatches) su selected
        (fun r => initialState Device.inOrder (su r)) ∧
      elemIteration (fun _ : Fin 2 => Device.inOrder) su
        (fun r => initialState Device.inOrder (su r)) = .ok next ∧
      Between (gather fun r => (m r).idPatches) su (selected ++ [0]) next := by
  have hmap : mapHashesToElementIds ![[[5, 7], [7]], [[9]]] =
      .ok (mapped ![[[5, 7], [7]], [[9]]]) :=
    (mapHashes_eq_ok_iff (by decide) _).mpr ⟨countsFit_of_total_le (by decide), rfl⟩
  have hprepare : prepare (mapped ![[[5, 7], [7]], [[9]]]) ![[10, 20], [30]] =
      .ok (elemSetup (globalUniq ![[[5, 7], [7]], [[9]]]).length
        (idRows ![[[5, 7], [7]], [[9]]]) ![[10, 20], [30]]) := by
    rw [prepare_eq (by decide) N_mapped idPatches_mapped
      (incidencesFit_idRows (by decide) (by decide) (by decide)) (by decide)]
    have hnone : firstOversized (idRows ![[[5, 7], [7]], [[9]]]) = none := by decide +kernel
    rw [hnone]
  have hwins : Wins (elemSetup (globalUniq ![[[5, 7], [7]], [[9]]]).length
        (idRows ![[[5, 7], [7]], [[9]]]) ![[10, 20], [30]])
      (fun r => initialState Device.inOrder
        (elemSetup (globalUniq ![[[5, 7], [7]], [[9]]]).length
          (idRows ![[[5, 7], [7]], [[9]]]) ![[10, 20], [30]] r)) 0 2 :=
    { running := fun _ => rfl
      argmax := ⟨fun _ => [2, 1, 1], by decide +kernel, by decide +kernel⟩
      pos := by decide }
  obtain ⟨selected, -, hbetween, hiterates, -⟩ := between_of_run (P := 2) (by decide) (by decide)
    hmap hprepare (show Run (fun _ => Device.inOrder) _ _ from Run.start)
  obtain ⟨next, hstep, hnext, -⟩ := (hiterates 0 2 hwins).applies fun _ => Device.inOrder
  exact ⟨_, _, selected, next, hmap, hprepare, hbetween, hstep, hnext⟩

end PatternSearch.ByElementInvariant
