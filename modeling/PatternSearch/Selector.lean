import PatternSearch.ByElementRun
import PatternSearch.ByPatchRun

/-!
The public selector: one object runs one PartitionMode. Input that the chosen mode can count
leads to the greedy selection on every rank, in either mode.
-/

namespace PatternSearch.Selector

open Machine Collectives Bucketing Csr Kernels Selection HashMapping IdAssignment Setup Incidence
  ByElement

inductive PartitionMode
  | byPatch
  | byElement
  deriving DecidableEq, Repr

variable {P : ℕ}

def idCountError (entries patches : ℕ) : Fault :=
  .throws (.invalidArgument
    ("patch_select: global_ids has " ++ toString entries ++ " entries for " ++
      toString patches ++ " patches"))

/-- `UscPatchSelector::patch_select`. -/
def patchSelect (mode : PartitionMode) (dev : Fin P → Device) (fuel : ℕ)
    (rawPatches : Fin P → List (List Hash)) (globalIds : Fin P → List PatchId) :
    Except Fault (Fin P → PatchSelection) := do
  let _ ← onRanks fun r =>
    if (globalIds r).length ≠ (rawPatches r).length then
      .error (idCountError (globalIds r).length (rawPatches r).length)
    else .ok ()
  match mode with
  | .byElement => ByElement.patchSelect dev fuel rawPatches globalIds
  | .byPatch => ByPatch.patchSelect dev fuel rawPatches globalIds

/-- Everything a mode counts in int can be counted there. -/
structure CountsInInt (mode : PartitionMode) (rawPatches : Fin P → List (List Hash)) : Prop where
  hashes : CountsFit rawPatches
  patches : ∀ r, (rawPatches r).length ≤ intMax
  incidences : mode = .byElement →
    ∀ r, ((rawPatches r).map fun patch => patch.toFinset.card).sum ≤ intMax

/-- Input that is not rejected: one id for each patch, and in the ByElement mode neither too
many patches nor a patch over the wire bound. -/
structure WithinLimits (mode : PartitionMode) (rawPatches : Fin P → List (List Hash))
    (globalIds : Fin P → List PatchId) : Prop extends CountsInInt mode rawPatches where
  ids_length : ∀ r, (globalIds r).length = (rawPatches r).length
  slots : mode = .byElement → (gather rawPatches).length ≤ intMax
  wire : mode = .byElement → ∀ r, ∀ patch ∈ rawPatches r, (patch.toFinset.card : ℤ) ≤ wireMax P

/-- The ByElement setup looks its counts up at an index of type int. -/
def TableInInt (mode : PartitionMode) (P : ℕ) : Prop := mode = .byElement → TableFits P

instance (mode : PartitionMode) (P : ℕ) : Decidable (TableInInt mode P) :=
  inferInstanceAs (Decidable (mode = .byElement → TableFits P))

/-- Input that leads to a selection: within the limits, on ranks that are few enough. -/
structure Admissible (mode : PartitionMode) (rawPatches : Fin P → List (List Hash))
    (globalIds : Fin P → List PatchId) : Prop extends WithinLimits mode rawPatches globalIds where
  table : TableInInt mode P

variable {mode : PartitionMode} {rawPatches : Fin P → List (List Hash)}
  {globalIds : Fin P → List PatchId}

theorem patchSelect_of_ids (dev : Fin P → Device) (fuel : ℕ)
    (hids : ∀ r, (globalIds r).length = (rawPatches r).length) :
    patchSelect mode dev fuel rawPatches globalIds =
      match mode with
      | .byElement => ByElement.patchSelect dev fuel rawPatches globalIds
      | .byPatch => ByPatch.patchSelect dev fuel rawPatches globalIds := by
  have hcheck : ∀ r, (if (globalIds r).length ≠ (rawPatches r).length then
      .error (idCountError (globalIds r).length (rawPatches r).length) else .ok ()) =
      (.ok () : Except Fault Unit) := fun r => if_neg (not_not.mpr (hids r))
  unfold patchSelect
  rw [onRanks_eq_ok hcheck, ok_bind]

theorem WithinLimits.card_hashSet_le (h : WithinLimits .byElement rawPatches globalIds) {s : ℕ}
    (hs : s < (gather rawPatches).length) : ((hashSet rawPatches s).card : ℤ) ≤ wireMax P := by
  rw [hashSet, List.getD_eq_getElem _ _ hs]
  obtain ⟨r, hr⟩ := mem_gather.mp (List.getElem_mem hs)
  exact h.wire rfl r _ hr

/-- In either mode every rank returns the one greedy selection. -/
theorem patchSelect_eq_ok (hP : 0 < P) (h : Admissible mode rawPatches globalIds)
    (dev : Fin P → Device) :
    ∃ sel, Finishes (rowSet (gather (idRows rawPatches)))
        (List.range (gather (idRows rawPatches)).length) (gidOf globalIds) Progress.start sel ∧
      ∀ fuel, (globalUniq rawPatches).length + 1 < fuel →
        patchSelect mode dev fuel rawPatches globalIds = .ok fun _ => sel := by
  cases mode with
  | byPatch =>
    obtain ⟨sel, hsel, hrun⟩ :=
      ByPatchRun.patchSelect_eq_ok hP dev h.hashes h.patches h.ids_length
    refine ⟨sel, hsel, fun fuel hfuel => ?_⟩
    rw [patchSelect_of_ids dev fuel h.ids_length]
    exact hrun fuel (by omega)
  | byElement =>
    obtain ⟨sel, hsel, hrun⟩ :=
      ByElementRun.patchSelect_eq_ok hP dev h.hashes h.ids_length (h.slots rfl) (h.incidences rfl)
        (h.table rfl) fun s hs => h.card_hashSet_le hs
    refine ⟨sel, hsel, fun fuel hfuel => ?_⟩
    rw [patchSelect_of_ids dev fuel h.ids_length]
    exact hrun fuel hfuel

/-- And it is the same selection on all devices. -/
theorem exists_selection (hP : 0 < P) (h : Admissible mode rawPatches globalIds) :
    ∃ sel, Finishes (rowSet (gather (idRows rawPatches)))
        (List.range (gather (idRows rawPatches)).length) (gidOf globalIds) Progress.start sel ∧
      ∀ dev fuel, (globalUniq rawPatches).length + 1 < fuel →
        patchSelect mode dev fuel rawPatches globalIds = .ok fun _ => sel := by
  obtain ⟨sel, hsel, _⟩ := patchSelect_eq_ok hP h fun _ => Device.inOrder
  refine ⟨sel, hsel, fun dev fuel hfuel => ?_⟩
  obtain ⟨sel', hsel', hrun⟩ := patchSelect_eq_ok hP h dev
  rw [hrun fuel hfuel, hsel'.unique hsel]

/-- On more ranks than the index allows the ByElement setup overflows an int. -/
theorem patchSelect_eq_overflow (hP : 0 < P) (h : WithinLimits mode rawPatches globalIds)
    (htable : ¬ TableInInt mode P) (dev : Fin P → Device) (fuel : ℕ) :
    patchSelect mode dev fuel rawPatches globalIds = .error .overflow := by
  obtain ⟨rfl, hlarge⟩ := Classical.not_imp.mp htable
  rw [patchSelect_of_ids dev fuel h.ids_length]
  exact ByElementRun.patchSelect_eq_overflow hP dev h.hashes h.ids_length (h.slots rfl)
    (fun hfits => hlarge hfits.2) fuel

/-- So it returns for any input within the limits just when the index is an int. -/
theorem returns_iff (hP : 0 < P) (h : WithinLimits mode rawPatches globalIds)
    (dev : Fin P → Device) {fuel : ℕ} (hfuel : (globalUniq rawPatches).length + 1 < fuel) :
    (∃ sels, patchSelect mode dev fuel rawPatches globalIds = .ok sels) ↔ TableInInt mode P := by
  constructor
  · intro hreturns
    obtain ⟨sels, hrun⟩ := hreturns
    by_contra htable
    rw [patchSelect_eq_overflow hP h htable] at hrun
    cases hrun
  · intro htable
    obtain ⟨sel, _, hrun⟩ := patchSelect_eq_ok hP { h with table := htable } dev
    exact ⟨_, hrun fuel hfuel⟩

section SmallInput

/-- Few patches and occurrences over all ranks are counted in int in either mode. -/
theorem countsInInt_of_total_le (mode : PartitionMode)
    (hpatches : (gather rawPatches).length ≤ intMax)
    (htotal : (gather rawPatches).flatten.length ≤ intMax) : CountsInInt mode rawPatches where
  hashes := countsFit_of_total_le htotal
  patches r := by
    have hend := block_end_le (fun s => (rawPatches s).length) r
    rw [length_gather] at hpatches
    omega
  incidences _ r := by
    have hcards : ((rawPatches r).map fun patch => patch.toFinset.card).sum ≤
        ((rawPatches r).map List.length).sum :=
      List.sum_le_sum fun patch _ => patch.toFinset_card_le
    have hone := Finset.single_le_sum (f := fun r => (rawPatches r).flatten.length)
      (fun s _ => Nat.zero_le _) (Finset.mem_univ r)
    rw [length_flatten_gather] at htotal
    rw [← List.length_flatten] at hcards
    omega

/-- And no patch of them is over the wire bound. -/
theorem withinLimits_of_total_le (mode : PartitionMode)
    (hpatches : (gather rawPatches).length ≤ intMax)
    (htotal : (gather rawPatches).flatten.length + P < intMax)
    (hids : ∀ r, (globalIds r).length = (rawPatches r).length) :
    WithinLimits mode rawPatches globalIds where
  toCountsInInt := countsInInt_of_total_le mode hpatches (by omega)
  ids_length := hids
  slots _ := hpatches
  wire _ r patch hpatch := by
    have hcard := patch.toFinset_card_le
    have hlength := (List.sublist_flatten_of_mem (mem_gather.mpr ⟨r, hpatch⟩)).length_le
    unfold wireMax
    omega

theorem admissible_of_total_le (mode : PartitionMode) (htable : TableFits P)
    (hpatches : (gather rawPatches).length ≤ intMax)
    (htotal : (gather rawPatches).flatten.length + P < intMax)
    (hids : ∀ r, (globalIds r).length = (rawPatches r).length) :
    Admissible mode rawPatches globalIds :=
  { withinLimits_of_total_le mode hpatches htotal hids with table := fun _ => htable }

end SmallInput

section ManyRanks

/-- One patch on every rank, all with the same hash. -/
def onePatchEach (P : ℕ) : Fin P → List (List Hash) := fun _ => [[7]]

def oneIdEach (P : ℕ) : Fin P → List PatchId := fun r => [r]

theorem length_gather_onePatchEach (P : ℕ) : (gather (onePatchEach P)).length = P := by
  rw [length_gather, displacement_last]
  simp [onePatchEach]

theorem withinLimits_onePatchEach (mode : PartitionMode) (h : P < 2 ^ 30) :
    WithinLimits mode (onePatchEach P) (oneIdEach P) := by
  have htotal : (gather (onePatchEach P)).flatten.length = P := by
    rw [length_flatten_gather]
    simp [onePatchEach]
  apply withinLimits_of_total_le mode
  · rw [length_gather_onePatchEach]
    unfold intMax
    omega
  · rw [htotal]
    unfold intMax
    omega
  · exact fun _ => rfl

end ManyRanks

section Returned

variable {dev : Fin P → Device} {fuel : ℕ} {sels : Fin P → PatchSelection}

theorem ids_of_patchSelect (h : patchSelect mode dev fuel rawPatches globalIds = .ok sels)
    (r : Fin P) :
    (globalIds r).length = (rawPatches r).length := by
  obtain ⟨checked, hcheck, _⟩ := bind_eq_ok.mp h
  have hr := onRanks_eq_ok_iff.mp hcheck r
  by_contra hne
  rw [if_pos hne] at hr
  cases hr

end Returned

end PatternSearch.Selector
