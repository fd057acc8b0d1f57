import PatternSearch.AnyOrder

/-!
A selection from a part of the patches. What the greedy rule leaves aside it could have done
without: a patch that is not selected, or that an earlier patch contains, may be missing from
the input, and the selected patches, given in the order of their selection, are all selected
again. Neither the ranks nor the mode of the two jobs need to have anything in common.
-/

namespace PatternSearch.Restriction

open Machine Collectives Csr Kernels GreedyCover Selection HashMapping IdAssignment Setup Incidence
  Selector RankCalls Interleaving AnyOrder

variable {P Q : ℕ} {mode mode' : PartitionMode} {rawPatches : Fin P → List (List Hash)}
  {globalIds : Fin P → List PatchId} {rawPatches' : Fin Q → List (List Hash)}
  {globalIds' : Fin Q → List PatchId} {slots run : List ℕ} {sel sel' : PatchSelection}

/-- The second input has, in this order, the patches of these slots of the first, with the ids
they have there. -/
structure Restricts (rawPatches : Fin P → List (List Hash)) (globalIds : Fin P → List PatchId)
    (slots : List ℕ) (rawPatches' : Fin Q → List (List Hash))
    (globalIds' : Fin Q → List PatchId) : Prop where
  patches : (gather rawPatches').map List.toFinset = slots.map (hashSet rawPatches)
  ids : gather globalIds' = slots.map (gidOf globalIds)

/-- With any library and any devices, and in any order of events, the job ends on every rank with
this selection. -/
def SelectsInAnyOrder (mode : PartitionMode) (rawPatches : Fin P → List (List Hash))
    (globalIds : Fin P → List PatchId) (sel : PatchSelection) : Prop :=
  ∀ (C : Type) (Delivers : Library P (Collective P C) Collective.Reply), Serves Delivers Matches →
    ∀ (dev : Fin P → Device) (fuel : ℕ), (globalUniq rawPatches).length + 1 < fuel → ∃ passes,
      Returns Delivers (selectJob C mode dev fuel rawPatches globalIds) fun _ => (passes, sel)

/-- The greedy result in terms of the hashes. -/
def greedyResult (rawPatches : Fin P → List (List Hash)) (globalIds : Fin P → List PatchId)
    (run : List ℕ) : PatchSelection where
  selected := run.map (gidOf globalIds)
  coveredCount := (gains (hashSet rawPatches) ∅ run).sum
  iterations := run.length

/-- A job of admissible input selects what the greedy rule picks. -/
theorem exists_greedyResult (hP : 0 < P) (h : Admissible mode rawPatches globalIds) :
    ∃ run, GreedyTrace (hashSet rawPatches) (List.range (gather rawPatches).length) ∅ run ∧
      SelectsInAnyOrder mode rawPatches globalIds (greedyResult rawPatches globalIds run) := by
  obtain ⟨sel, hsel, hruns⟩ := exists_selection hP h
  obtain ⟨run, htrace, rfl⟩ := exists_hash_trace hsel
  refine ⟨run, htrace, fun C Delivers hserves dev fuel hfuel => ?_⟩
  obtain ⟨passes, rounds, hrun⟩ := together_patchSelect (C := C) hP (hruns dev fuel hfuel)
  exact ⟨passes, returns_of_inStep hserves hrun⟩

namespace Restricts

variable (h : Restricts rawPatches globalIds slots rawPatches' globalIds')
include h

theorem length_eq : (gather rawPatches').length = slots.length := by
  have hlen := congrArg List.length h.patches
  rwa [List.length_map, List.length_map] at hlen

theorem hashSet_eq {i : ℕ} (hi : i < slots.length) :
    hashSet rawPatches' i = hashSet rawPatches (slots.getD i 0) := by
  have hi' : i < (gather rawPatches').length := by rwa [h.length_eq]
  have hget := List.getElem_of_eq h.patches (i := i) (by rwa [List.length_map])
  rw [List.getElem_map, List.getElem_map] at hget
  rw [hashSet, List.getD_eq_getElem _ _ hi', hget, List.getD_eq_getElem _ _ hi]

theorem gidOf_eq {i : ℕ} (hi : i < slots.length) :
    gidOf globalIds' i = gidOf globalIds (slots.getD i 0) := by
  rw [gidOf, h.ids, List.getD_eq_getElem _ _ (by rwa [List.length_map]), List.getElem_map,
    List.getD_eq_getElem _ _ hi]

/-- The picks of the second input, at their slots of the first. -/
theorem trace_slots
    (htrace : GreedyTrace (hashSet rawPatches') (List.range (gather rawPatches').length) ∅ run) :
    GreedyTrace (hashSet rawPatches) slots ∅ (run.map fun i => slots.getD i 0) := by
  have hrange : (List.range slots.length).map (fun i => slots.getD i 0) = slots := by
    apply List.ext_getElem (by simp)
    intro i hi hi'
    rw [List.getElem_map, List.getElem_range, List.getD_eq_getElem _ _ hi']
  have hmapped : GreedyTrace (hashSet rawPatches)
      ((List.range (gather rawPatches').length).map fun i => slots.getD i 0)
      ((∅ : Finset Hash).image id) (run.map fun i => slots.getD i 0) := by
    refine htrace.relabel (U := Set.univ) Function.injective_id.injOn
      (fun _ _ => Set.subset_univ _) (Set.subset_univ _) fun i hi => ?_
    rw [List.mem_range, h.length_eq] at hi
    rw [Finset.image_id, h.hashSet_eq hi]
  rwa [h.length_eq, hrange, Finset.image_id] at hmapped

/-- When the greedy rule picks the same slots with only these to choose from, the second input
leads to the same selection. -/
theorem selects_same (hQ : 0 < Q) (h' : Admissible mode' rawPatches' globalIds')
    (htrace : GreedyTrace (hashSet rawPatches) slots ∅ run) :
    SelectsInAnyOrder mode' rawPatches' globalIds' (greedyResult rawPatches globalIds run) := by
  obtain ⟨run', htrace', hruns⟩ := exists_greedyResult hQ h'
  obtain rfl := htrace.unique (h.trace_slots htrace')
  have hbound : ∀ i ∈ run', i < slots.length := by
    intro i hi
    have hmem := htrace'.subset i hi
    rwa [List.mem_range, h.length_eq] at hmem
  have hgains : ∀ C (l : List ℕ), (∀ i ∈ l, i < slots.length) →
      gains (hashSet rawPatches) C (l.map fun i => slots.getD i 0) =
        gains (hashSet rawPatches') C l := by
    intro C l hl
    induction l generalizing C with
    | nil => rfl
    | cons i l ih =>
      have hi := h.hashSet_eq (hl i (List.mem_cons_self ..))
      rw [List.map_cons, gains, gains, gain, gain, hi,
        ih _ fun j hj => hl j (List.mem_cons_of_mem _ hj)]
  have hresult : greedyResult rawPatches globalIds (run'.map fun i => slots.getD i 0) =
      greedyResult rawPatches' globalIds' run' := by
    unfold greedyResult
    rw [hgains ∅ run' hbound, List.map_map, List.length_map]
    congr 1
    exact List.map_congr_left fun i hi => (h.gidOf_eq (hbound i hi)).symm
  rw [hresult]
  exact hruns

end Restricts

/-- A patch can be left out of the input when it is not selected, or when the patch of an
earlier slot has all its hashes. -/
def Dispensable (rawPatches : Fin P → List (List Hash)) (globalIds : Fin P → List PatchId)
    (sel : PatchSelection) (s : ℕ) : Prop :=
  gidOf globalIds s ∉ sel.selected ∨ ∃ t < s, hashSet rawPatches s ⊆ hashSet rawPatches t

theorem pair_sublist_range {t s n : ℕ} (hts : t < s) (hs : s < n) :
    [t, s].Sublist (List.range n) := by
  obtain ⟨k, rfl⟩ : ∃ k, n = s + k := ⟨n - s, by omega⟩
  have hfirst : [t].Sublist (List.range s) :=
    List.singleton_sublist.mpr (List.mem_range.mpr hts)
  have hsecond : [s].Sublist ((List.range k).map (s + ·)) :=
    List.singleton_sublist.mpr (List.mem_map.mpr ⟨0, List.mem_range.mpr (by omega), rfl⟩)
  rw [List.range_add]
  exact hfirst.append hsecond

theorem not_mem_of_dispensable
    (htrace : GreedyTrace (hashSet rawPatches) (List.range (gather rawPatches).length) ∅ run)
    {s : ℕ} (h : Dispensable rawPatches globalIds (greedyResult rawPatches globalIds run) s) :
    s ∉ run := by
  intro hmem
  have hs := List.mem_range.mp (htrace.subset s hmem)
  rcases h with hid | ⟨t, hts, hsub⟩
  · exact hid (List.mem_map_of_mem hmem)
  · exact htrace.not_mem_of_dominated List.nodup_range (pair_sublist_range hts hs) hsub hmem

/-- Leaving dispensable patches out of the input changes nothing: whatever the modes, the ranks
and the order of events, the rest of the patches lead to the same selection. -/
theorem selects_without_dispensable (hP : 0 < P) (h : Admissible mode rawPatches globalIds) :
    ∃ sel, SelectsInAnyOrder mode rawPatches globalIds sel ∧
      ∀ (Q : ℕ) (mode' : PartitionMode) (rawPatches' : Fin Q → List (List Hash))
        (globalIds' : Fin Q → List PatchId) (kept : List ℕ), 0 < Q →
        Admissible mode' rawPatches' globalIds' →
        kept.Sublist (List.range (gather rawPatches).length) →
        Restricts rawPatches globalIds kept rawPatches' globalIds' →
        (∀ s < (gather rawPatches).length, s ∉ kept → Dispensable rawPatches globalIds sel s) →
        SelectsInAnyOrder mode' rawPatches' globalIds' sel := by
  obtain ⟨run, htrace, hruns⟩ := exists_greedyResult hP h
  refine ⟨_, hruns, fun Q mode' rawPatches' globalIds' kept hQ h' hsub hpart hleft => ?_⟩
  refine hpart.selects_same hQ h' (htrace.of_sublist hsub List.nodup_range fun s hs => ?_)
  by_contra hout
  exact not_mem_of_dispensable htrace
    (hleft s (List.mem_range.mp (htrace.subset s hs)) hout) hs

/-- A patch inside an earlier one of another rank, left out for a single rank in the other mode. -/
theorem selects_without_dispensable_contained :
    ∃ sel, SelectsInAnyOrder .byPatch ![[[1, 2]], [[2], [3]]] ![[10], [20, 30]] sel ∧
      SelectsInAnyOrder .byElement (fun _ : Fin 1 => [[2, 1], [3, 3]]) (fun _ => [10, 30]) sel := by
  have h : Admissible .byPatch ![[[1, 2]], [[2], [3]]] ![[10], [20, 30]] :=
    admissible_of_total_le .byPatch (by decide) (by decide) (by decide) (by decide)
  have h' : Admissible .byElement (fun _ : Fin 1 => [[2, 1], [3, 3]]) (fun _ => [10, 30]) :=
    admissible_of_total_le .byElement (by decide) (by decide) (by decide) (by decide)
  obtain ⟨sel, hsel, hrest⟩ := selects_without_dispensable (P := 2) (by decide) h
  refine ⟨sel, hsel, hrest 1 .byElement _ _ [0, 2] (by decide) h' (by decide)
    ⟨by decide, by decide⟩ fun s hs hout => ?_⟩
  obtain rfl : s = 1 := by
    have hlen : (gather ![[[1, 2]], [[2], [3]]] : List (List Hash)).length = 3 := rfl
    rw [hlen] at hs
    simp only [List.mem_cons, List.not_mem_nil, or_false, not_or] at hout
    omega
  exact .inr ⟨0, Nat.one_pos, by decide⟩

/-- The selected patches, in the order in which they were selected, are all selected again in
that order. -/
theorem selects_selected_again (hP : 0 < P) (h : Admissible mode rawPatches globalIds) :
    ∃ sel slots, SelectsInAnyOrder mode rawPatches globalIds sel ∧ slots.Nodup ∧
      (∀ s ∈ slots, s < (gather rawPatches).length) ∧
      sel.selected = slots.map (gidOf globalIds) ∧
      ∀ (Q : ℕ) (mode' : PartitionMode) (rawPatches' : Fin Q → List (List Hash))
        (globalIds' : Fin Q → List PatchId), 0 < Q → Admissible mode' rawPatches' globalIds' →
        Restricts rawPatches globalIds slots rawPatches' globalIds' →
        SelectsInAnyOrder mode' rawPatches' globalIds' sel := by
  obtain ⟨run, htrace, hruns⟩ := exists_greedyResult hP h
  exact ⟨_, run, hruns, htrace.nodup, fun s hs => List.mem_range.mp (htrace.subset s hs), rfl,
    fun Q mode' rawPatches' globalIds' hQ h' hpart => hpart.selects_same hQ h' htrace.of_picked⟩

/-- One patch on the first of two ranks, selected again on the second of three. -/
theorem selects_selected_again_moved :
    ∃ sel, ∃ slots : List ℕ, SelectsInAnyOrder .byElement ![[[8, 5]], []] ![[3], []] sel ∧
      SelectsInAnyOrder .byPatch ![[], slots.map fun _ => [5, 8], []]
        ![[], slots.map fun _ => 3, []] sel := by
  have h : Admissible .byElement ![[[8, 5]], []] ![[3], []] :=
    admissible_of_total_le .byElement (by decide) (by decide) (by decide) (by decide)
  obtain ⟨sel, slots, hsel, hnodup, hbound, -, hagain⟩ :=
    selects_selected_again (P := 2) (by decide) h
  have hzero : ∀ s ∈ slots, s = 0 := fun s hs => Nat.lt_one_iff.mp (hbound s hs)
  refine ⟨sel, slots, hsel, ?_⟩
  match slots with
  | [] =>
    exact hagain 3 .byPatch ![[], [], []] ![[], [], []] (by decide)
      (admissible_of_total_le .byPatch (by decide) (by decide) (by decide) (by decide))
      ⟨by decide, by decide⟩
  | [s] =>
    obtain rfl := hzero s (List.mem_singleton_self s)
    exact hagain 3 .byPatch ![[], [[5, 8]], []] ![[], [3], []] (by decide)
      (admissible_of_total_le .byPatch (by decide) (by decide) (by decide) (by decide))
      ⟨by decide, by decide⟩
  | s :: t :: rest =>
    have hs := hzero s (by simp)
    have ht := hzero t (by simp)
    rw [hs, ht] at hnodup
    simp at hnodup

end PatternSearch.Restriction
