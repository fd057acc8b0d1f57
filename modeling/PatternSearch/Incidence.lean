import PatternSearch.Setup

/-!
What the selection can depend on. The mapping renames the hashes injectively, so a translated
patch has as many elements as the raw patch has distinct hashes, and a greedy run over the
translated patches is a greedy run over the sets of hashes.
-/

namespace PatternSearch.Incidence

open Machine Collectives Bucketing SortedLists Csr GreedyCover Selection HashMapping IdAssignment
  Setup

variable {P : ℕ} {rawPatches : Fin P → List (List Hash)}

/-- The distinct hashes of the patch in a slot. -/
def hashSet (rawPatches : Fin P → List (List Hash)) (s : ℕ) : Finset Hash :=
  ((gather rawPatches).getD s []).toFinset

theorem gather_idRows : gather (idRows rawPatches) =
    (gather rawPatches).map fun patch =>
      sortUnique (patch.map (lowerBound (globalUniq rawPatches))) := by
  rw [map_gather]
  rfl

theorem length_gather_idRows :
    (gather (idRows rawPatches)).length = (gather rawPatches).length := by
  rw [gather_idRows, List.length_map]

theorem hashSet_subset (s : ℕ) : ↑(hashSet rawPatches s) ⊆ {h | h ∈ globalUniq rawPatches} := by
  intro h hh
  have hmem := List.mem_toFinset.mp (Finset.mem_coe.mp hh)
  by_cases hs : s < (gather rawPatches).length
  · rw [List.getD_eq_getElem _ _ hs] at hmem
    obtain ⟨r, hr⟩ := mem_gather.mp (List.getElem_mem hs)
    exact mem_globalUniq.mpr ⟨r, _, hr, hmem⟩
  · rw [List.getD_eq_default _ _ (not_lt.mp hs)] at hmem
    cases hmem

theorem injOn_lowerBound :
    Set.InjOn (lowerBound (globalUniq rawPatches)) {h | h ∈ globalUniq rawPatches} :=
  fun _ ha _ hb hab => lowerBound_injOn globalUniq_pairwise ha hb hab

/-- The ids of a slot are its hashes, renamed. -/
theorem rowSet_idRows (s : ℕ) : rowSet (gather (idRows rawPatches)) s =
    (hashSet rawPatches s).image (lowerBound (globalUniq rawPatches)) := by
  rw [rowSet, hashSet, gather_idRows, List.getD_eq_getElem?_getD, List.getElem?_map,
    List.getD_eq_getElem?_getD]
  cases (gather rawPatches)[s]? with
  | none => rfl
  | some patch =>
    ext id
    simp

theorem card_rowSet_idRows (s : ℕ) :
    (rowSet (gather (idRows rawPatches)) s).card = (hashSet rawPatches s).card := by
  rw [rowSet_idRows]
  exact Finset.card_image_of_injOn (injOn_lowerBound.mono (hashSet_subset s))

/-- Every id lies in some row: it is the position of a hash of some patch. -/
theorem exists_mem_rowSet_idRows {id : ElementId} (hid : id < (globalUniq rawPatches).length) :
    ∃ s < (gather (idRows rawPatches)).length, id ∈ rowSet (gather (idRows rawPatches)) s := by
  obtain ⟨r, patch, hpatch, hmem⟩ := mem_globalUniq.mp (List.getElem_mem hid)
  obtain ⟨s, hs, hget⟩ := List.mem_iff_getElem.mp (mem_gather.mpr ⟨r, hpatch⟩)
  refine ⟨s, by rw [length_gather_idRows]; exact hs, ?_⟩
  rw [rowSet_idRows, hashSet, List.getD_eq_getElem _ _ hs, hget]
  exact Finset.mem_image.mpr
    ⟨_, List.mem_toFinset.mpr hmem, lowerBound_getElem globalUniq_pairwise id hid⟩

/-- The number of incidences a rank contributes. -/
theorem length_flatten_idRows (r : Fin P) : (idRows rawPatches r).flatten.length =
    ((rawPatches r).map fun patch => patch.toFinset.card).sum := by
  have hrow : ∀ patch ∈ rawPatches r,
      (sortUnique (patch.map (lowerBound (globalUniq rawPatches)))).length =
        patch.toFinset.card := by
    intro patch hpatch
    have himage : (patch.map (lowerBound (globalUniq rawPatches))).toFinset =
        patch.toFinset.image (lowerBound (globalUniq rawPatches)) := by
      ext id
      simp
    rw [length_sortUnique, himage]
    apply Finset.card_image_of_injOn
    apply injOn_lowerBound.mono
    intro h hh
    exact mem_globalUniq.mpr ⟨r, patch, hpatch, List.mem_toFinset.mp (Finset.mem_coe.mp hh)⟩
  rw [List.length_flatten]
  show (((rawPatches r).map fun patch =>
    sortUnique (patch.map (lowerBound (globalUniq rawPatches)))).map List.length).sum = _
  rw [List.map_map]
  exact congrArg List.sum (List.map_congr_left hrow)

theorem length_globalUniq_le_two_pow : (globalUniq rawPatches).length ≤ 2 ^ 64 := by
  have hnodup : (globalUniq rawPatches).Nodup :=
    globalUniq_pairwise.imp fun hlt => ne_of_lt hlt
  have hcard := hnodup.length_le_card
  rwa [Fintype.card_fin] at hcard

/-- There are no more hashes than incidences. -/
theorem length_globalUniq_le :
    (globalUniq rawPatches).length ≤
      ∑ r, ((rawPatches r).map fun patch => patch.toFinset.card).sum := by
  have hsubset : Finset.range (globalUniq rawPatches).length ⊆
      (gather (idRows rawPatches)).flatten.toFinset := by
    intro id hid
    obtain ⟨s, hs, hmem⟩ := exists_mem_rowSet_idRows (Finset.mem_range.mp hid)
    rw [rowSet, List.getD_eq_getElem _ _ hs, List.mem_toFinset] at hmem
    exact List.mem_toFinset.mpr (List.mem_flatten_of_mem (List.getElem_mem hs) hmem)
  have hcard := (Finset.card_le_card hsubset).trans (List.toFinset_card_le _)
  rw [Finset.card_range, length_flatten_gather] at hcard
  simpa only [length_flatten_idRows] using hcard

/-- Incidences that are counted in int on few ranks leave room for the shards in uint64. -/
theorem length_globalUniq_add_le (htable : TableFits P)
    (hincidences : ∀ r, ((rawPatches r).map fun patch => patch.toFinset.card).sum ≤ intMax) :
    (globalUniq rawPatches).length + P ≤ 2 ^ 64 := by
  have hsum := Finset.sum_le_card_nsmul Finset.univ _ intMax fun r _ => hincidences r
  rw [Finset.card_univ, Fintype.card_fin, smul_eq_mul] at hsum
  have hle : (globalUniq rawPatches).length ≤
      ∑ r, ((rawPatches r).map fun patch => patch.toFinset.card).sum := length_globalUniq_le
  have hP := htable.lt_two_pow
  unfold intMax at hsum
  omega

/-- A greedy run over the ids is one over the sets of hashes. -/
theorem trace_hashSet {slots run : List ℕ}
    (h : GreedyTrace (rowSet (gather (idRows rawPatches))) slots ∅ run) :
    GreedyTrace (hashSet rawPatches) slots ∅ run := by
  obtain ⟨run', hrun'⟩ := GreedyTrace.exists_trace (hashSet rawPatches) slots ∅
  have hids := hrun'.relabel (g := id) injOn_lowerBound (fun i _ => hashSet_subset i) (by simp)
    fun i _ => rowSet_idRows i
  rw [List.map_id, List.map_id, Finset.image_empty] at hids
  exact h.unique hids ▸ hrun'

/-- So the result can be stated without ids. -/
theorem exists_hash_trace {gid : ℕ → PatchId} {sel : PatchSelection}
    (h : Finishes (rowSet (gather (idRows rawPatches)))
      (List.range (gather (idRows rawPatches)).length) gid Progress.start sel) :
    ∃ run, GreedyTrace (hashSet rawPatches) (List.range (gather rawPatches).length) ∅ run ∧
      sel =
        { selected := run.map gid
          coveredCount := (gains (hashSet rawPatches) ∅ run).sum
          iterations := run.length } := by
  obtain ⟨run, htrace, rfl⟩ := h
  have hsubset : ∀ s, ↑(hashSet rawPatches s) ⊆ {h | h ∈ globalUniq rawPatches} := hashSet_subset
  have hgains :=
    gains_relabel (g := id) (C := ∅) injOn_lowerBound hsubset (by simp) rowSet_idRows run
  rw [List.map_id, Finset.image_empty] at hgains
  rw [length_gather_idRows] at htrace
  refine ⟨run, trace_hashSet htrace, ?_⟩
  have hcount : (coveredBy (rowSet (gather (idRows rawPatches))) ∅ run).card =
      (gains (hashSet rawPatches) ∅ run).sum := by
    rw [card_coveredBy, Finset.card_empty, Nat.zero_add, hgains]
  simp [Progress.result, Progress.after, Progress.start, hcount]

end PatternSearch.Incidence
