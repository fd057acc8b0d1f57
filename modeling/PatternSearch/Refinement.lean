import PatternSearch.BruteForce
import PatternSearch.Selector

/-!
Both distributed selectors refine the single-process reference: on every rank they return what
brute_force_select computes for the rank-major concatenation of the mapped patches, with its
slots translated to the callers' patch ids. The ranks, the kernel orders and the contents of
fresh device memory leave no trace in the result.
-/

namespace PatternSearch.Refinement

open Machine Collectives Bucketing Csr Kernels Selection HashMapping IdAssignment Setup Incidence
  ByElement BruteForce Selector

variable {P Q : ℕ} {rawPatches : Fin P → List (List Hash)} {globalIds : Fin P → List PatchId}

/-- The reference on the patches of all ranks in rank-major order. -/
def reference (mapped : Fin P → IdMappedPatches) (N fuel : ℕ) : Except Fault PatchSelection :=
  bruteForceSelect (buildPatchCsr (gather fun r => (mapped r).idPatches)) N fuel

/-- The reference's slots as the callers' patch ids. -/
def renamed (globalIds : Fin P → List PatchId) (sel : PatchSelection) : PatchSelection :=
  { sel with selected := sel.selected.map (gidOf globalIds) }

theorem reference_eq_ok (rawPatches : Fin P → List (List Hash)) : ∃ sel,
    Finishes (rowSet (gather (idRows rawPatches))) (List.range (gather (idRows rawPatches)).length)
      id Progress.start sel ∧
    ∀ fuel, (globalUniq rawPatches).length < fuel →
      reference (mapped rawPatches) (globalUniq rawPatches).length fuel = .ok sel :=
  bruteForceSelect_eq_ok rowsFit_idRows

/-- Equal lists of all patches have equal rows, however they are split over ranks. -/
theorem gather_idRows_congr {rawPatches' : Fin Q → List (List Hash)}
    (h : gather rawPatches' = gather rawPatches) :
    gather (idRows rawPatches') = gather (idRows rawPatches) := by
  have huniq := globalUniq_congr (List.Perm.of_eq h)
  rw [gather_idRows, gather_idRows, huniq, h]

/-- The ByPatch selector refines the reference, and its result does not depend on how many
ranks share the patches. -/
theorem byPatch_refines_bruteForce (hP : 0 < P) (rawPatches : Fin P → List (List Hash))
    (globalIds : Fin P → List PatchId) (hfit : CountsFit rawPatches)
    (hpatches : ∀ r, (rawPatches r).length ≤ intMax)
    (hids : ∀ r, (globalIds r).length = (rawPatches r).length) :
    ∃ m N sel, mapHashesToElementIds rawPatches = .ok m ∧ (∀ r, (m r).N = N) ∧
      (∀ fuel, N < fuel → reference m N fuel = .ok sel) ∧
      (∀ dev fuel, N < fuel →
        ByPatch.patchSelect dev fuel rawPatches globalIds = .ok fun _ => renamed globalIds sel) ∧
      ∀ (Q : ℕ) (rawPatches' : Fin Q → List (List Hash)) (globalIds' : Fin Q → List PatchId),
        0 < Q → CountsFit rawPatches' → (∀ r, (rawPatches' r).length ≤ intMax) →
        (∀ r, (globalIds' r).length = (rawPatches' r).length) →
        gather rawPatches' = gather rawPatches → gather globalIds' = gather globalIds →
        ∀ dev fuel, N < fuel →
          ByPatch.patchSelect dev fuel rawPatches' globalIds' =
            .ok fun _ => renamed globalIds sel := by
  obtain ⟨sel, hsel, href⟩ := reference_eq_ok rawPatches
  have hmap := (mapHashes_eq_ok_iff hP (mapped rawPatches)).mpr ⟨hfit, rfl⟩
  refine ⟨_, _, sel, hmap, N_mapped, href, ?_, ?_⟩
  · intro dev fuel hfuel
    obtain ⟨sel', hsel', hrun⟩ := ByPatchRun.patchSelect_eq_ok hP dev hfit hpatches hids
    rw [hrun fuel hfuel, hsel.relate hsel']
    rfl
  · intro Q rawPatches' globalIds' hQ hfit' hpatches' hids' hraw hgids dev fuel hfuel
    obtain ⟨sel', hsel', hrun⟩ := ByPatchRun.patchSelect_eq_ok hQ dev hfit' hpatches' hids'
    have hgid : gidOf globalIds' = gidOf globalIds := by
      funext s
      rw [gidOf, gidOf, hgids]
    rw [gather_idRows_congr hraw, hgid] at hsel'
    rw [globalUniq_congr (List.Perm.of_eq hraw)] at hrun
    rw [hrun fuel hfuel, hsel.relate hsel']
    rfl

/-- Two ranks, with a hash that both hold and one that is repeated inside a patch. -/
theorem byPatch_refines_bruteForce_two_ranks :
    ∃ N sel, ∀ dev fuel, N < fuel →
      ByPatch.patchSelect dev fuel ![[[5, 7], [7]], [[9, 5, 9]]] ![[10, 20], [30]] =
        .ok fun _ => sel := by
  obtain ⟨_, N, sel, _, _, _, hrun, _⟩ := byPatch_refines_bruteForce (P := 2) (by decide)
    ![[[5, 7], [7]], [[9, 5, 9]]] ![[10, 20], [30]] (countsFit_of_total_le (by decide))
    (by decide) (by decide)
  exact ⟨N, _, hrun⟩

/-- In the ByElement mode every rank returns the reference's selection, on any device, and it is
the selection of the ByPatch mode. -/
def ByElementRefines (rawPatches : Fin P → List (List Hash)) (globalIds : Fin P → List PatchId) :
    Prop :=
  ∃ m N sel, mapHashesToElementIds rawPatches = .ok m ∧ (∀ r, (m r).N = N) ∧
    (∀ fuel, N < fuel → reference m N fuel = .ok sel) ∧
    (∀ dev fuel, N + 1 < fuel →
      ByElement.patchSelect dev fuel rawPatches globalIds = .ok fun _ => renamed globalIds sel) ∧
    ∀ dev fuel, N < fuel →
      ByPatch.patchSelect dev fuel rawPatches globalIds = .ok fun _ => renamed globalIds sel

theorem byElementRefines_of_table (hP : 0 < P) (h : WithinLimits .byElement rawPatches globalIds)
    (htable : TableFits P) : ByElementRefines rawPatches globalIds := by
  obtain ⟨sel, hsel, href⟩ := reference_eq_ok rawPatches
  have hmap := (mapHashes_eq_ok_iff hP (mapped rawPatches)).mpr ⟨h.hashes, rfl⟩
  refine ⟨_, _, sel, hmap, N_mapped, href, ?_, ?_⟩
  · intro dev fuel hfuel
    obtain ⟨sel', hsel', hrun⟩ := ByElementRun.patchSelect_eq_ok hP dev h.hashes h.ids_length
      (h.slots rfl) (h.incidences rfl) htable fun s hs => h.card_hashSet_le hs
    rw [hrun fuel hfuel, hsel.relate hsel']
    rfl
  · intro dev fuel hfuel
    obtain ⟨sel', hsel', hrun⟩ :=
      ByPatchRun.patchSelect_eq_ok hP dev h.hashes h.patches h.ids_length
    rw [hrun fuel hfuel, hsel.relate hsel']
    rfl

/-- Where the table index leaves the range of int the ByElement selector returns nothing. -/
theorem table_of_byElementRefines (hP : 0 < P) (h : WithinLimits .byElement rawPatches globalIds)
    (hrefines : ByElementRefines rawPatches globalIds) : TableFits P := by
  obtain ⟨m, N, sel, _, _, _, hrun, _⟩ := hrefines
  by_contra htable
  have hok := hrun (fun _ => Device.inOrder) (N + 2) (by omega)
  rw [ByElementRun.patchSelect_eq_overflow hP _ h.hashes h.ids_length (h.slots rfl)
    fun hcounts => htable hcounts.2] at hok
  cases hok

/-- Within the limits the ByElement selector refines the reference, and so agrees with the ByPatch
selector, exactly when the index into the table of counts is an int. -/
theorem byElement_refines_bruteForce (hP : 0 < P) (rawPatches : Fin P → List (List Hash))
    (globalIds : Fin P → List PatchId) (hfit : CountsFit rawPatches)
    (hslots : (gather rawPatches).length ≤ intMax)
    (hincidences : ∀ r, ((rawPatches r).map fun patch => patch.toFinset.card).sum ≤ intMax)
    (hids : ∀ r, (globalIds r).length = (rawPatches r).length)
    (hwire : ∀ r, ∀ patch ∈ rawPatches r, (patch.toFinset.card : ℤ) ≤ wireMax P) :
    ByElementRefines rawPatches globalIds ↔ TableFits P := by
  have hpatches : ∀ r, (rawPatches r).length ≤ intMax := by
    intro r
    have hend := block_end_le (fun s => (rawPatches s).length) r
    rw [length_gather] at hslots
    omega
  have hlimits : WithinLimits .byElement rawPatches globalIds :=
    { hashes := hfit
      patches := hpatches
      incidences := fun _ => hincidences
      ids_length := hids
      slots := fun _ => hslots
      wire := fun _ => hwire }
  exact ⟨table_of_byElementRefines hP hlimits, byElementRefines_of_table hP hlimits⟩

/-- Four ranks for three hashes, so that one shard is empty. -/
theorem byElement_refines_bruteForce_empty_shard :
    ByElementRefines ![[[5, 7], [7]], [], [[9, 5, 9]], []] ![[10, 20], [], [30], []] :=
  (byElement_refines_bruteForce (P := 4) (by decide)
    ![[[5, 7], [7]], [], [[9, 5, 9]], []] ![[10, 20], [], [30], []]
    (countsFit_of_total_le (by decide)) (by decide) (by decide) (by decide) (by decide)).mpr
    (by decide)

/-- One patch on each of 46341 ranks. -/
theorem not_byElementRefines_many_ranks :
    ¬ ByElementRefines (onePatchEach 46341) (oneIdEach 46341) := fun h =>
  absurd (table_of_byElementRefines (by decide) (withinLimits_onePatchEach _ (by decide)) h)
    (by decide)

end PatternSearch.Refinement
