import PatternSearch.IdAssignment
import PatternSearch.Selection
import PatternSearch.Transpose

/-!
The preprocessing shared by the algorithm layers: the hash mapping, then on every rank the
CSR of its own id patches and its transpose. Slots number the patches of all ranks in
rank-major input order.
-/

namespace PatternSearch.Setup

open Machine Collectives Csr Transpose HashMapping IdAssignment Selection SortedLists

structure PatchSet where
  N : ℕ
  shardHashes : List Hash
  shardStart : ℕ
  patches : PatchCsr
  inv : InvertedIndex

variable {P : ℕ}

def patchSetOf (mapped : IdMappedPatches) : PatchSet :=
  let patches := buildPatchCsr mapped.idPatches
  { N := mapped.N
    shardHashes := mapped.shardHashes
    shardStart := mapped.shardStart
    patches
    inv := buildInvertedIndex patches }

def buildPatchSet (rawPatches : Fin P → List (List Hash)) : Except Fault (Fin P → PatchSet) := do
  let mapped ← mapHashesToElementIds rawPatches
  return fun r => patchSetOf (mapped r)

/-- The slot of local patch p on rank r. -/
def slotOf (rows : Fin P → List (List ElementId)) (r : Fin P) (p : ℕ) : ℕ :=
  displacement (fun s => (rows s).length) r + p

/-- The patch id the caller gave to a slot. -/
def gidOf (globalIds : Fin P → List PatchId) (slot : ℕ) : PatchId := (gather globalIds).getD slot 0

theorem getD_gather {α : Type} (f : Fin P → List α) (r : Fin P) {p : ℕ} (hp : p < (f r).length)
    (d : α) : (gather f).getD (displacement (fun s => (f s).length) r + p) d = (f r).getD p d := by
  rw [List.getD_eq_getElem?_getD, List.getD_eq_getElem?_getD, getElem?_gather f r p hp]

theorem rowSet_slotOf (rows : Fin P → List (List ElementId)) (r : Fin P) {p : ℕ}
    (hp : p < (rows r).length) :
    rowSet (gather rows) (slotOf rows r p) = ((rows r).getD p []).toFinset := by
  rw [rowSet, slotOf, getD_gather rows r hp]

/-- The slots are the blocks of the ranks' patches, one after the other. -/
theorem range_displacement (counts : Fin P → ℕ) :
    List.range (displacement counts P) =
      (List.finRange P).flatMap fun r =>
        (List.range (counts r)).map fun p => displacement counts r + p := by
  induction P with
  | zero => rfl
  | succ P ih =>
    rw [displacement_cons_succ, List.range_add, ih, List.finRange_succ, List.flatMap_cons,
      List.flatMap_map, List.map_flatMap]
    congr 1
    · simp [displacement_zero]
    · apply List.flatMap_congr
      intro r _
      rw [List.map_map]
      apply List.map_congr_left
      intro p _
      rw [Fin.val_succ, displacement_cons_succ, Nat.add_assoc]
      rfl

/-- The blocks of the ranks cover all positions. -/
theorem exists_block (counts : Fin P → ℕ) {x : ℕ} (h : x < displacement counts P) :
    ∃ r : Fin P, displacement counts r ≤ x ∧ x < displacement counts r + counts r := by
  have hmem := List.mem_range.mpr h
  rw [range_displacement] at hmem
  obtain ⟨r, _, hr⟩ := List.mem_flatMap.mp hmem
  obtain ⟨p, hp, rfl⟩ := List.mem_map.mp hr
  have hlt := List.mem_range.mp hp
  exact ⟨r, by omega, by omega⟩

theorem exists_slotOf {rows : Fin P → List (List ElementId)} {slot : ℕ}
    (h : slot ∈ List.range (gather rows).length) :
    ∃ r p, p < (rows r).length ∧ slotOf rows r p = slot := by
  rw [List.mem_range, length_gather] at h
  obtain ⟨r, hlow, hhigh⟩ := exists_block _ h
  refine ⟨r, slot - displacement (fun s => (rows s).length) r, ?_, Nat.add_sub_cancel' hlow⟩
  omega

/-- Slots of different patches differ. -/
theorem slotOf_injective (rows : Fin P → List (List ElementId)) {r s : Fin P} {p q : ℕ}
    (hp : p < (rows r).length) (hq : q < (rows s).length) (h : slotOf rows r p = slotOf rows s q) :
    r = s ∧ p = q := by
  unfold slotOf at h
  have hrs : r = s := by
    apply block_unique (fun s => (rows s).length)
      (x := displacement (fun s => (rows s).length) r + p)
    · exact ⟨Nat.le_add_right .., Nat.add_lt_add_left hp _⟩
    · rw [h]
      exact ⟨Nat.le_add_right .., Nat.add_lt_add_left hq _⟩
  subst s
  exact ⟨rfl, Nat.add_left_cancel h⟩

section Mapped

variable {rawPatches : Fin P → List (List Hash)}

/-- The id patches of all ranks. -/
def idRows (rawPatches : Fin P → List (List Hash)) (r : Fin P) : List (List ElementId) :=
  (mapped rawPatches r).idPatches

theorem idPatches_mapped (r : Fin P) : (mapped rawPatches r).idPatches = idRows rawPatches r := rfl

theorem N_mapped (r : Fin P) : (mapped rawPatches r).N = (globalUniq rawPatches).length := rfl

theorem length_idRows (r : Fin P) : (idRows rawPatches r).length = (rawPatches r).length :=
  List.length_map ..

theorem mem_idRows {r : Fin P} {ids : List ElementId} (h : ids ∈ idRows rawPatches r) :
    ids.Pairwise (· < ·) ∧ ∀ id ∈ ids, id < (globalUniq rawPatches).length := by
  obtain ⟨patch, hpatch, rfl⟩ := List.mem_map.mp h
  refine ⟨sortUnique_pairwise _, ?_⟩
  intro id hid
  obtain ⟨a, ha, rfl⟩ := List.mem_map.mp ((mem_sortUnique _ _).mp hid)
  exact lowerBound_lt_length globalUniq_pairwise (mem_globalUniq.mpr ⟨r, patch, hpatch, ha⟩)

theorem rowsFit_of_forall {rows : List (List ElementId)} {N : ℕ}
    (h : ∀ ids ∈ rows, ids.Pairwise (· < ·) ∧ ∀ id ∈ ids, id < N) : RowsFit rows N := by
  have hrow : ∀ p, (rows.getD p []).Pairwise (· < ·) ∧ ∀ id ∈ rows.getD p [], id < N := by
    intro p
    by_cases hp : p < rows.length
    · rw [List.getD_eq_getElem _ _ hp]
      exact h _ (List.getElem_mem hp)
    · rw [List.getD_eq_default _ _ (not_lt.mp hp)]
      simp
  constructor
  · exact fun p => (hrow p).1.imp fun hlt => ne_of_lt hlt
  · intro p id hid
    exact Finset.mem_range.mpr ((hrow p).2 id (List.mem_toFinset.mp hid))

/-- After the mapping the rows of all ranks together fit the universe. -/
theorem rowsFit_idRows : RowsFit (gather (idRows rawPatches)) (globalUniq rawPatches).length := by
  apply rowsFit_of_forall
  intro ids hids
  obtain ⟨r, hr⟩ := mem_gather.mp hids
  exact mem_idRows hr

theorem rowsFit_idRows_rank (r : Fin P) :
    RowsFit (idRows rawPatches r) (globalUniq rawPatches).length :=
  rowsFit_of_forall fun _ hids => mem_idRows hids

/-- No translated patch has more elements than its rank has distinct hashes. -/
theorem length_row_le (r : Fin P) (p : ℕ) :
    ((idRows rawPatches r).getD p []).length ≤ (localUniq (rawPatches r)).length := by
  by_cases hp : p < (idRows rawPatches r).length
  · rw [List.getD_eq_getElem _ _ hp]
    obtain ⟨patch, hpatch, heq⟩ := List.mem_map.mp (List.getElem_mem hp)
    rw [← heq, length_sortUnique]
    have hsub : (patch.map (lowerBound (globalUniq rawPatches))).toFinset ⊆
        (localUniq (rawPatches r)).toFinset.image (lowerBound (globalUniq rawPatches)) := by
      intro id hid
      obtain ⟨a, ha, rfl⟩ := List.mem_map.mp (List.mem_toFinset.mp hid)
      exact Finset.mem_image_of_mem _
        (List.mem_toFinset.mpr (mem_localUniq.mpr ⟨patch, hpatch, ha⟩))
    exact le_trans (Finset.card_le_card hsub)
      (le_trans Finset.card_image_le (List.toFinset_card_le _))
  · rw [List.getD_eq_default _ _ (not_lt.mp hp)]
    exact Nat.zero_le _

theorem buildPatchSet_eq_ok_iff (hP : 0 < P) (ps : Fin P → PatchSet) :
    buildPatchSet rawPatches = .ok ps ↔
      CountsFit rawPatches ∧ ps = fun r => patchSetOf (mapped rawPatches r) := by
  unfold buildPatchSet
  simp only [bind_eq_ok, mapHashes_eq_ok_iff hP, pure_eq_ok, Except.ok.injEq]
  constructor
  · intro h
    obtain ⟨_, ⟨hfit, rfl⟩, rfl⟩ := h
    exact ⟨hfit, rfl⟩
  · intro h
    obtain ⟨hfit, rfl⟩ := h
    exact ⟨_, ⟨hfit, rfl⟩, rfl⟩

end Mapped

end PatternSearch.Setup
