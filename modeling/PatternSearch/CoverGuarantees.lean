import PatternSearch.BruteForce
import PatternSearch.CoverBound
import PatternSearch.Selector

/-!
What a caller gets from a selection, in either mode: a cover of the whole universe by distinct
patches, each of which was worth its place, and not longer than H(d) times the smallest cover.
In the ByElement mode this takes ranks few enough for the int index of the setup.
-/

namespace PatternSearch.CoverGuarantees

open Machine Collectives Bucketing Csr Kernels GreedyCover CoverBound Selection HashMapping
  IdAssignment Setup Incidence BruteForce Selector

variable {P N : ℕ} {rows : List (List ElementId)} {slots : List ℕ}

/-- The selected slots cover the universe and every pick pays. -/
structure IsCover (rows : List (List ElementId)) (N : ℕ) (slots : List ℕ) : Prop where
  in_range : ∀ s ∈ slots, s < rows.length
  nodup : slots.Nodup
  union : ∀ id, id < N ↔ ∃ s ∈ slots, id ∈ rows.getD s []
  length_le : slots.length ≤ min rows.length N
  gains_pos : ∀ g ∈ gains (rowSet rows) ∅ slots, 0 < g
  gains_anti : (gains (rowSet rows) ∅ slots).Pairwise (· ≥ ·)
  gains_sum : (gains (rowSet rows) ∅ slots).sum = N

theorem coveredBy_range (hfit : RowsFit rows N)
    (hunion : ∀ id < N, ∃ s < rows.length, id ∈ rowSet rows s) :
    coveredBy (rowSet rows) ∅ (List.range rows.length) = Finset.range N := by
  ext id
  rw [mem_coveredBy, Finset.mem_range]
  constructor
  · intro h
    rcases h with h | ⟨s, _, hs⟩
    · exact absurd h (Finset.notMem_empty id)
    · exact Finset.mem_range.mp (hfit.subset s hs)
  · intro hid
    obtain ⟨s, hs, hmem⟩ := hunion id hid
    exact Or.inr ⟨s, List.mem_range.mpr hs, hmem⟩

/-- A greedy trace through rows that make up the universe is a cover. -/
theorem isCover_of_trace (hfit : RowsFit rows N)
    (hunion : ∀ id < N, ∃ s < rows.length, id ∈ rowSet rows s)
    (h : GreedyTrace (rowSet rows) (List.range rows.length) ∅ slots) : IsCover rows N slots := by
  have hall := coveredBy_range hfit hunion
  have hcard : (coveredBy (rowSet rows) ∅ (List.range rows.length)).card = N := by
    rw [hall, Finset.card_range]
  refine
    { in_range := fun s hs => List.mem_range.mp (h.subset s hs)
      nodup := h.nodup
      union := fun id => ?_
      length_le := ?_
      gains_pos := h.gains_pos
      gains_anti := h.gains_pairwise
      gains_sum := h.sum_gains.trans hcard }
  · rw [← Finset.mem_range, ← hall, ← h.coveredBy_eq, mem_coveredBy]
    simp [rowSet]
  · have hslots := h.length_le_slots
    have helements := h.length_le_card
    rw [List.length_range] at hslots
    rw [hcard] at helements
    exact le_min hslots helements

/-- Every rank returns the one selection, on any devices, and it is a cover. -/
def SelectsCover (mode : PartitionMode) (rawPatches : Fin P → List (List Hash))
    (globalIds : Fin P → List PatchId) : Prop :=
  ∃ m N sel slots, mapHashesToElementIds rawPatches = .ok m ∧ (∀ r, (m r).N = N) ∧
    (∀ dev fuel, N + 1 < fuel →
      patchSelect mode dev fuel rawPatches globalIds = .ok fun _ => sel) ∧
    IsCover (gather fun r => (m r).idPatches) N slots ∧
    sel = { selected := slots.map (gidOf globalIds), coveredCount := N,
            iterations := slots.length }

section Modes

variable {mode : PartitionMode} {rawPatches : Fin P → List (List Hash)}
  {globalIds : Fin P → List PatchId}

theorem selectsCover_of_admissible (hP : 0 < P) (h : Admissible mode rawPatches globalIds) :
    SelectsCover mode rawPatches globalIds := by
  obtain ⟨sel, ⟨slots, htrace, hsel⟩, hrun⟩ := exists_selection hP h
  have hcover := isCover_of_trace rowsFit_idRows (fun id hid => exists_mem_rowSet_idRows hid) htrace
  have hcount : (coveredBy (rowSet (gather (idRows rawPatches))) ∅ slots).card =
      (globalUniq rawPatches).length := by
    rw [card_coveredBy, hcover.gains_sum, Finset.card_empty, Nat.zero_add]
  refine ⟨_, _, sel, slots, (mapHashes_eq_ok_iff hP _).mpr ⟨h.hashes, rfl⟩, N_mapped, hrun, hcover,
    ?_⟩
  rw [hsel]
  simp [Progress.result, Progress.after, Progress.start, hcount]

/-- A selector that returns at all has looked its counts up at an int index. -/
theorem table_of_returns (hP : 0 < P) (h : WithinLimits mode rawPatches globalIds) {bound : ℕ}
    {sel : PatchSelection} (hrun : ∀ dev fuel, bound < fuel →
      patchSelect mode dev fuel rawPatches globalIds = .ok fun _ => sel) : TableInInt mode P := by
  let fuel := bound + (globalUniq rawPatches).length + 2
  apply (returns_iff hP h (fun _ => Device.inOrder) (show _ < fuel by omega)).mp
  exact ⟨_, hrun _ _ (show bound < fuel by omega)⟩

/-- In either mode the selection is a cover, and the loop ends, on every input within the limits,
just when the ByElement setup can look its counts up at an int index. -/
theorem patchSelect_isCover (mode : PartitionMode) (hP : 0 < P)
    (rawPatches : Fin P → List (List Hash)) (globalIds : Fin P → List PatchId)
    (h : WithinLimits mode rawPatches globalIds) :
    SelectsCover mode rawPatches globalIds ↔ TableInInt mode P := by
  constructor
  · intro hselects
    obtain ⟨m, N, sel, slots, -, -, hrun, -⟩ := hselects
    exact table_of_returns hP h hrun
  · exact fun htable => selectsCover_of_admissible hP { h with table := htable }

/-- Two ranks, one of them without patches, and a patch that adds nothing. -/
theorem patchSelect_isCover_idle_rank :
    ∃ N sel, ∃ slots : List ℕ, (∀ dev fuel, N + 1 < fuel →
        patchSelect .byElement dev fuel ![[[3, 8], [8], [1, 3]], []] ![[4, 5, 6], []] =
          .ok fun _ => sel) ∧
      slots.Nodup ∧ sel.coveredCount = N ∧ sel.iterations = slots.length := by
  have hlimits : WithinLimits .byElement ![[[3, 8], [8], [1, 3]], []] ![[4, 5, 6], []] :=
    withinLimits_of_total_le .byElement (by decide) (by decide) (by decide)
  obtain ⟨_, N, sel, slots, _, _, hrun, hcover, hsel⟩ :=
    (patchSelect_isCover .byElement (by decide) _ _ hlimits).mpr fun _ => by decide
  exact ⟨N, sel, slots, hrun, hcover.nodup, by rw [hsel], by rw [hsel]⟩

/-- One patch on each of 46341 ranks. -/
theorem not_selectsCover_many_ranks :
    ¬ SelectsCover .byElement (onePatchEach 46341) (oneIdEach 46341) := by
  intro h
  obtain ⟨m, N, sel, slots, -, -, hrun, -⟩ := h
  exact absurd (table_of_returns (by decide) (withinLimits_onePatchEach _ (by decide)) hrun)
    (by decide)

end Modes

/-- A greedy result is at most H(d) times longer than any family of rows that covers. -/
theorem length_selected_le {gid : ℕ → PatchId} {sel : PatchSelection} (hfit : RowsFit rows N)
    (h : Finishes (rowSet rows) (List.range rows.length) gid Progress.start sel)
    {F : Finset ℕ} {d : ℕ} (hF : ∀ s ∈ F, s < rows.length)
    (hcover : ∀ id < N, ∃ s ∈ F, id ∈ rows.getD s []) (hd : ∀ row ∈ rows, row.length ≤ d) :
    (sel.selected.length : ℚ) ≤ harmonic d * F.card := by
  obtain ⟨run, htrace, rfl⟩ := h
  have hlen : ((Progress.start.after (rowSet rows) run).result gid).selected.length =
      run.length := by
    simp [Progress.result, Progress.after, Progress.start]
  rw [hlen]
  apply length_le_harmonic_mul htrace
  · intro s hs
    exact List.mem_range.mpr (hF s hs)
  · intro s _ id hid
    obtain ⟨q, hq, hmem⟩ := hcover id (Finset.mem_range.mp (hfit.subset s hid))
    exact Finset.mem_biUnion.mpr ⟨q, hq, List.mem_toFinset.mpr hmem⟩
  · intro s hs
    rw [rowSet, List.getD_eq_getElem _ _ (hF s hs)]
    exact le_trans (List.toFinset_card_le _) (hd _ (List.getElem_mem (hF s hs)))

theorem getD_patches (patches : PatchCsr) (p : ℕ) :
    ((List.range patches.M).map patches.patch).getD p [] = patches.patch p := by
  rw [← patch_eq_getD, patch_buildPatchCsr_rows]

theorem rowsFit_patches {patches : PatchCsr} {N : ℕ}
    (hrows : ∀ p < patches.M, (patches.patch p).Nodup ∧ ∀ id ∈ patches.patch p, id < N) :
    RowsFit ((List.range patches.M).map patches.patch) N := by
  have hrow : ∀ p, (patches.patch p).Nodup ∧ ∀ id ∈ patches.patch p, id < N := by
    intro p
    by_cases hp : p < patches.M
    · exact hrows p hp
    · rw [patches.patch_eq_nil (not_lt.mp hp)]
      exact ⟨List.nodup_nil, fun id hid => absurd hid List.not_mem_nil⟩
  constructor
  · intro p
    rw [getD_patches]
    exact (hrow p).1
  · intro p id hid
    rw [rowSet, getD_patches, List.mem_toFinset] at hid
    exact Finset.mem_range.mpr ((hrow p).2 id hid)

/-- Every rank returns the one selection, on any devices, and it has at most H(d) times as many
patches as any subfamily that covers. -/
def SelectsWithinBound (mode : PartitionMode) (rawPatches : Fin P → List (List Hash))
    (globalIds : Fin P → List PatchId) : Prop :=
  ∃ m N sel, mapHashesToElementIds rawPatches = .ok m ∧ (∀ r, (m r).N = N) ∧
    (∀ dev fuel, N + 1 < fuel →
      patchSelect mode dev fuel rawPatches globalIds = .ok fun _ => sel) ∧
    ∀ (F : Finset ℕ) (d : ℕ), (∀ s ∈ F, s < (gather fun r => (m r).idPatches).length) →
      (∀ id < N, ∃ s ∈ F, id ∈ (gather fun r => (m r).idPatches).getD s []) →
      (∀ row ∈ gather fun r => (m r).idPatches, row.length ≤ d) →
      (sel.selected.length : ℚ) ≤ harmonic d * F.card

/-- On any CSR the reference chooses at most H(d) times as many patches as any subfamily that
covers has. -/
theorem bruteForceSelect_le_harmonic_mul (patches : PatchCsr) (N : ℕ) (F : Finset ℕ) (d : ℕ)
    (hrows : ∀ p < patches.M, (patches.patch p).Nodup ∧ ∀ id ∈ patches.patch p, id < N)
    (hF : ∀ p ∈ F, p < patches.M) (hcover : ∀ id < N, ∃ p ∈ F, id ∈ patches.patch p)
    (hd : ∀ p < patches.M, (patches.patch p).length ≤ d) :
    ∃ sel, (∀ fuel, N < fuel → bruteForceSelect patches N fuel = .ok sel) ∧
      (sel.selected.length : ℚ) ≤ harmonic d * F.card := by
  have hfit := rowsFit_patches hrows
  obtain ⟨sel, hsel, hrun⟩ := bruteForceSelect_csr_eq_ok patches hfit
  refine ⟨sel, hrun, length_selected_le hfit hsel ?_ ?_ ?_⟩
  · rw [List.length_map, List.length_range]
    exact hF
  · simp only [getD_patches]
    exact hcover
  · intro row hmem
    obtain ⟨p, hp, rfl⟩ := List.mem_map.mp hmem
    exact hd p (List.mem_range.mp hp)

/-- The approximation guarantee: the reference keeps the bound on every CSR, and so does the
selector in either mode, just when the ByElement setup can look its counts up at an int index. -/
theorem selection_le_harmonic_mul_cover (mode : PartitionMode) (hP : 0 < P)
    (rawPatches : Fin P → List (List Hash)) (globalIds : Fin P → List PatchId)
    (h : WithinLimits mode rawPatches globalIds) :
    (∀ (patches : PatchCsr) (N : ℕ) (F : Finset ℕ) (d : ℕ),
      (∀ p < patches.M, (patches.patch p).Nodup ∧ ∀ id ∈ patches.patch p, id < N) →
      (∀ p ∈ F, p < patches.M) → (∀ id < N, ∃ p ∈ F, id ∈ patches.patch p) →
      (∀ p < patches.M, (patches.patch p).length ≤ d) →
      ∃ sel, (∀ fuel, N < fuel → bruteForceSelect patches N fuel = .ok sel) ∧
        (sel.selected.length : ℚ) ≤ harmonic d * F.card) ∧
    (SelectsWithinBound mode rawPatches globalIds ↔ TableInInt mode P) := by
  refine ⟨bruteForceSelect_le_harmonic_mul, fun hselects => ?_, fun htable => ?_⟩
  · obtain ⟨m, N, sel, -, -, hrun, -⟩ := hselects
    exact table_of_returns hP h hrun
  · obtain ⟨sel, hsel, hrun⟩ := exists_selection hP { h with table := htable }
    refine ⟨_, _, sel, (mapHashes_eq_ok_iff hP _).mpr ⟨h.hashes, rfl⟩, N_mapped, hrun, ?_⟩
    intro F d hF hcover hd
    exact length_selected_le rowsFit_idRows hsel hF hcover hd

/-- Four ids, covered by the first two patches. -/
theorem selection_le_harmonic_mul_cover_four_ids :
    (∃ sel, (∀ fuel, 4 < fuel →
      bruteForceSelect { data := [0, 1, 2, 3, 0, 2], offsets := [0, 2, 4, 6] } 4 fuel = .ok sel) ∧
        (sel.selected.length : ℚ) ≤ harmonic 2 * ({0, 1} : Finset ℕ).card) ∧
    SelectsWithinBound .byElement ![[[3, 8], [8], [1, 3]], []] ![[4, 5, 6], []] := by
  obtain ⟨hreference, hselects⟩ := selection_le_harmonic_mul_cover .byElement (P := 2) (by decide)
    ![[[3, 8], [8], [1, 3]], []] ![[4, 5, 6], []]
    (withinLimits_of_total_le .byElement (by decide) (by decide) (by decide))
  refine ⟨hreference _ 4 {0, 1} 2 ?_ ?_ ?_ ?_, hselects.mpr fun _ => by decide⟩
  all_goals decide

/-- One patch on each of 46341 ranks. -/
theorem not_selectsWithinBound_many_ranks :
    ¬ SelectsWithinBound .byElement (onePatchEach 46341) (oneIdEach 46341) := by
  intro h
  obtain ⟨m, N, sel, -, -, hrun, -⟩ := h
  exact absurd (table_of_returns (by decide) (withinLimits_onePatchEach _ (by decide)) hrun)
    (by decide)

end PatternSearch.CoverGuarantees
