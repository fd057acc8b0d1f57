import PatternSearch.StatsStages

/-!
Routing the statistics to the owners. The keys of a rank's inverted index are the ids of its
distinct hashes in the order of the hashes, so the keys, the degrees and the reduced
locations of a rank pair up by position. The owner read off the shard starts is the owner of
the hash partition, and so every owner is sent what the mapping sent it.
-/

namespace PatternSearch.StatsRouting

open Machine Collectives Bucketing SortedLists Csr Transpose HashMapping IdAssignment Setup
  PatternStats StatsStages

variable {P : ℕ}

section Owner

/-- The search runs over the starts of all shards but the first. -/
theorem searchedStarts (sizes : Fin P → ℕ) (N : ℕ) :
    ((List.ofFn (fun r : Fin P => displacement sizes r) ++ [N]).take P).drop 1 =
      (List.range (P - 1)).map fun i => displacement sizes (i + 1) := by
  apply List.ext_getElem
  · simp
  · intro i hi _
    have hlt : i < P - 1 := by simpa using hi
    have hfront : 1 + i < P := by omega
    rw [List.getElem_drop, List.getElem_take, List.getElem_append_left (by simpa using hfront)]
    simp [Nat.add_comm 1 i]

/-- The partition point of the shard starts is the rank whose shard holds the id, also when
shards are empty. -/
theorem ownerOf_eq (sizes : Fin P → ℕ) (N : ℕ) {id : ℕ} (q : Fin P)
    (hlow : displacement sizes q ≤ id) (hhigh : id < displacement sizes (q + 1)) :
    ownerOf P (List.ofFn (fun r : Fin P => displacement sizes r) ++ [N]) id = q := by
  have hpoint : ∀ (l : List ℕ) (a : ℕ), upperBound l a = lowerBound l (a + 1) := by
    intro l a
    simp only [upperBound, lowerBound, Nat.lt_succ_iff]
  rw [ownerOf, searchedStarts, hpoint]
  apply lowerBound_unique
  · simp
    omega
  · intro i hi hiq
    have hmono := displacement_mono sizes (show i + 1 ≤ q from hiq)
    rw [List.getElem_map, List.getElem_range]
    omega
  · intro hq
    have hmono := displacement_mono sizes (le_refl ((q : ℕ) + 1))
    rw [List.getElem_map, List.getElem_range]
    omega

end Owner

section Index

variable {rawPatches : Fin P → List (List Hash)}

/-- The id of a hash. -/
def idIn (rawPatches : Fin P → List (List Hash)) (h : Hash) : ElementId :=
  lowerBound (globalUniq rawPatches) h

/-- The number of patches of a rank that contain a hash. -/
def degreeOf (patches : List (List Hash)) (h : Hash) : ℕ :=
  patches.countP fun patch => h ∈ patch

theorem mem_globalUniq_of_localUniq {r : Fin P} {h : Hash} (hh : h ∈ localUniq (rawPatches r)) :
    h ∈ globalUniq rawPatches := by
  obtain ⟨patch, hpatch, hmem⟩ := mem_localUniq.mp hh
  exact mem_globalUniq.mpr ⟨r, patch, hpatch, hmem⟩

theorem nodup_patch_idRows (r : Fin P) (p : ℕ) :
    ((buildPatchCsr (idRows rawPatches r)).patch p).Nodup := by
  rw [patch_eq_getD]
  exact (rowsFit_idRows_rank r).nodup p

theorem mem_idRow_iff {patch : List Hash} (hpatch : ∀ a ∈ patch, a ∈ globalUniq rawPatches)
    {h : Hash} (hh : h ∈ globalUniq rawPatches) :
    idIn rawPatches h ∈ sortUnique (patch.map (lowerBound (globalUniq rawPatches))) ↔
      h ∈ patch := by
  rw [mem_sortUnique, List.mem_map]
  constructor
  · intro hmem
    obtain ⟨a, ha, heq⟩ := hmem
    exact lowerBound_injOn globalUniq_pairwise (hpatch a ha) hh heq ▸ ha
  · exact fun hmem => ⟨h, hmem, rfl⟩

/-- The inverted index lists the ids of the rank's hashes in the order of the hashes. -/
theorem keys_patchSetOf (r : Fin P) : (patchSetOf (mapped rawPatches r)).inv.keys =
    (localUniq (rawPatches r)).map (idIn rawPatches) := by
  have hinv : (patchSetOf (mapped rawPatches r)).inv =
      buildInvertedIndex (buildPatchCsr (idRows rawPatches r)) := rfl
  rw [hinv]
  apply eq_of_pairwise_lt_of_mem_iff
  · rw [keys_buildInvertedIndex (nodup_patch_idRows r)]
    exact sortUnique_pairwise _
  · rw [List.pairwise_map]
    refine (sortUnique_pairwise (rawPatches r).flatten).imp_of_mem ?_
    intro a b ha hb hab
    exact (lowerBound_lt_iff globalUniq_pairwise (mem_globalUniq_of_localUniq ha)
      (mem_globalUniq_of_localUniq hb)).mpr hab
  · intro id
    rw [mem_keys_buildInvertedIndex (nodup_patch_idRows r), M_buildPatchCsr, List.mem_map]
    constructor
    · intro h
      obtain ⟨p, hp, hid⟩ := h
      rw [patch_buildPatchCsr _ p hp] at hid
      obtain ⟨patch, hpatch, heq⟩ := List.mem_map.mp (List.getElem_mem hp)
      rw [← heq, mem_sortUnique, List.mem_map] at hid
      obtain ⟨a, ha, rfl⟩ := hid
      exact ⟨a, mem_localUniq.mpr ⟨patch, hpatch, ha⟩, rfl⟩
    · intro h
      obtain ⟨a, ha, rfl⟩ := h
      obtain ⟨patch, hpatch, hmem⟩ := mem_localUniq.mp ha
      obtain ⟨p, hp, rfl⟩ := List.mem_iff_getElem.mp hpatch
      have hlt : p < (idRows rawPatches r).length := by
        rw [length_idRows]
        exact hp
      have hrow : (idRows rawPatches r)[p] =
          sortUnique ((rawPatches r)[p].map (lowerBound (globalUniq rawPatches))) :=
        List.getElem_map ..
      refine ⟨p, hlt, ?_⟩
      rw [patch_buildPatchCsr _ p hlt]
      rw [hrow, mem_sortUnique]
      exact List.mem_map_of_mem hmem

/-- The degree of a key is the number of patches its list of patches has. -/
theorem degrees_buildInvertedIndex {patches : PatchCsr} (hrows : ∀ p, (patches.patch p).Nodup) :
    degrees (buildInvertedIndex patches) =
      (buildInvertedIndex patches).keys.map fun e => (owners patches e).length := by
  rw [buildInvertedIndex_eq hrows]
  apply List.ext_getElem
  · simp [degrees]
  · intro i hi _
    have hlt : i <
        ((sortUnique ((incidences patches).map Prod.fst)).map (owners patches)).length := by
      simpa [degrees] using hi
    have hsize := patchSize_buildPatchCsr _ i hlt
    rw [List.getElem_map] at hsize
    simp only [degrees, List.getElem_map, List.getElem_range]
    exact hsize

theorem length_owners (rows : List (List ElementId)) (e : ElementId) :
    (owners (buildPatchCsr rows) e).length = rows.countP fun row => e ∈ row := by
  have hrows : (List.range rows.length).map (fun p => rows.getD p []) = rows :=
    map_getD_range rows []
  rw [owners, M_buildPatchCsr, ← List.countP_eq_length_filter]
  conv_rhs => rw [← hrows]
  rw [List.countP_map]
  simp only [patch_eq_getD]
  rfl

theorem degrees_patchSetOf (r : Fin P) : degrees (patchSetOf (mapped rawPatches r)).inv =
    (localUniq (rawPatches r)).map (degreeOf (rawPatches r)) := by
  have hinv : (patchSetOf (mapped rawPatches r)).inv =
      buildInvertedIndex (buildPatchCsr (idRows rawPatches r)) := rfl
  have hkeys : (patchSetOf (mapped rawPatches r)).inv.keys =
      (localUniq (rawPatches r)).map (idIn rawPatches) := keys_patchSetOf r
  rw [hinv] at hkeys ⊢
  rw [degrees_buildInvertedIndex (nodup_patch_idRows r), hkeys, List.map_map]
  apply List.map_congr_left
  intro h hh
  have hrow : idRows rawPatches r = (rawPatches r).map fun patch =>
    sortUnique (patch.map (lowerBound (globalUniq rawPatches))) := rfl
  rw [Function.comp_apply, length_owners, hrow, List.countP_map, degreeOf]
  apply List.countP_congr
  intro patch hpatch
  have hglobal : ∀ a ∈ patch, a ∈ globalUniq rawPatches :=
    fun a ha => mem_globalUniq.mpr ⟨r, patch, hpatch, ha⟩
  simpa using mem_idRow_iff hglobal (mem_globalUniq_of_localUniq hh)

theorem pairwise_shard (r : Fin P) : (shard rawPatches r).Pairwise (· < ·) :=
  bucket_pairwise globalUniq_pairwise r

/-- The ids of a shard are consecutive. -/
theorem shardStart_add (hP : 0 < P) (r : Fin P) {i : ℕ} (hi : i < (shard rawPatches r).length) :
    displacement (fun s => (shard rawPatches s).length) r + i =
      idIn rawPatches (shard rawPatches r)[i] := by
  have hstart := shardStart_add_lowerBound hP r (List.getElem_mem hi)
  have hindex : lowerBound (shard rawPatches r) (shard rawPatches r)[i] = i :=
    lowerBound_getElem (pairwise_shard r) i hi
  rw [hindex] at hstart
  exact hstart

/-- The owner read off the shard starts is the owner of the hash. -/
theorem ownerOf_shardStarts (hP : 0 < P) (r : Fin P) {h : Hash}
    (hh : h ∈ globalUniq rawPatches) :
    ownerOf P (shardStarts (fun s => patchSetOf (mapped rawPatches s)) r) (idIn rawPatches h) =
      owner rawPatches h := by
  let q : Fin P := ⟨owner rawPatches h, owner_lt hP h⟩
  have hshard : h ∈ shard rawPatches q := mem_bucket.mpr ⟨hh, rfl⟩
  have hpos := shardStart_add_lowerBound hP q hshard
  have hlt := lowerBound_lt_length (bucket_pairwise globalUniq_pairwise q) hshard
  have hstep := displacement_succ (fun s => (shard rawPatches s).length) q
  refine ownerOf_eq (fun s => (shard rawPatches s).length) _ q ?_ ?_
  · unfold idIn
    omega
  · unfold idIn
    have hlt' : lowerBound (shard rawPatches q) h < (shard rawPatches q).length := hlt
    omega

end Index

section Exchange

variable {α : Type} {rawPatches : Fin P → List (List Hash)}

theorem doubled_eq (counts : Fin P → ℕ) :
    doubled counts =
      if ∀ r, 2 * counts r ≤ intMax then .ok fun r => 2 * counts r else .error .overflow := by
  rw [doubled, ← onRanks_ite]
  congr 1
  funext r
  rw [intAdd, Nat.two_mul]

theorem tally_owners (hP : 0 < P) (hfit : CountsFit rawPatches) (r : Fin P) :
    tally (P := P) (ownerOf P (shardStarts (fun s => patchSetOf (mapped rawPatches s)) r))
        (patchSetOf (mapped rawPatches r)).inv.keys =
      .ok fun t => (routed rawPatches r t).length := by
  have howner : ∀ h ∈ localUniq (rawPatches r),
      ownerOf P (shardStarts (fun s => patchSetOf (mapped rawPatches s)) r) (idIn rawPatches h) =
        owner rawPatches h :=
    fun h hh => ownerOf_shardStarts hP r (mem_globalUniq_of_localUniq hh)
  have hsize : ∀ t : Fin P, bucketSize
      (ownerOf P (shardStarts (fun s => patchSetOf (mapped rawPatches s)) r))
      ((localUniq (rawPatches r)).map (idIn rawPatches)) t = (routed rawPatches r t).length := by
    intro t
    rw [bucketSize, bucket_map howner, List.length_map]
    rfl
  rw [keys_patchSetOf, tally_eq, if_pos]
  · exact congrArg Except.ok (funext hsize)
  · intro t
    rw [hsize]
    exact le_trans (length_routed_le r t) (hfit.sent r)
  · intro id hid
    obtain ⟨h, hh, rfl⟩ := List.mem_map.mp hid
    rw [howner h hh]
    exact owner_lt hP h

theorem packPoints_gather (f : Fin P → List (Point α)) :
    packPoints (gather f) = gather fun r => packPoints (f r) := by
  simp only [packPoints, gather_eq_flatMap, List.flatMap_assoc]

/-- A payload computed from the hashes of a rank is shipped like the hashes themselves. -/
theorem alltoallv_routed (hP : 0 < P) {β : Type} (f : Fin P → Hash → β) {room : Fin P → ℕ}
    (hroom : ∀ r, ∑ s, (routed rawPatches s r).length ≤ room r) :
    alltoallv (fun s => (localUniq (rawPatches s)).map (f s))
        (fun s r => (routed rawPatches s r).length) (fun r s => (routed rawPatches s r).length)
        room =
      .ok fun r => gather fun s => (routed rawPatches s r).map (f s) := by
  have hsend : (fun s => (localUniq (rawPatches s)).map (f s)) =
      fun s => gather fun r => (routed rawPatches s r).map (f s) := by
    funext s
    rw [← gather_routed hP s, map_gather]
  rw [hsend]
  apply alltoallv_eq_ok fun s r => (routed rawPatches s r).map (f s)
  · intro s r
    rw [List.length_map]
  · intro r s
    rw [List.length_map]
  · intro r
    rw [displacement_last]
    exact hroom r

/-- Points travel as twice as many coordinates. -/
theorem alltoallv_packPoints (hP : 0 < P) (loc : Fin P → Hash → Point α) {room : Fin P → ℕ}
    (hroom : ∀ r, ∑ s, (routed rawPatches s r).length ≤ room r) :
    alltoallv (fun s => packPoints ((localUniq (rawPatches s)).map (loc s)))
        (fun s r => 2 * (routed rawPatches s r).length)
        (fun r s => 2 * (routed rawPatches s r).length) (fun r => 2 * room r) =
      .ok fun r => packPoints (gather fun s => (routed rawPatches s r).map (loc s)) := by
  have hsend : (fun s => packPoints ((localUniq (rawPatches s)).map (loc s))) =
      fun s => gather fun r => packPoints ((routed rawPatches s r).map (loc s)) := by
    funext s
    rw [← gather_routed hP s, map_gather, packPoints_gather]
  simp only [hsend, packPoints_gather]
  apply alltoallv_eq_ok fun s r => packPoints ((routed rawPatches s r).map (loc s))
  · intro s r
    rw [length_packPoints, List.length_map]
  · intro r s
    rw [length_packPoints, List.length_map]
  · intro r
    rw [displacement_last, ← Finset.mul_sum]
    exact Nat.mul_le_mul_left 2 (hroom r)

/-- What arrives at rank r: an entry for every hash routed there, rank by rank. -/
def arrivalsAt (rawPatches : Fin P → List (List Hash)) (loc : Fin P → Hash → Point α)
    (r : Fin P) : Arrivals α where
  ids := gather fun s => (routed rawPatches s r).map (idIn rawPatches)
  degrees := gather fun s => (routed rawPatches s r).map (degreeOf (rawPatches s))
  points := gather fun s => (routed rawPatches s r).map (loc s)

/-- Every id of the shard arrives, and no other. -/
theorem sortUnique_arrivals_ids (hP : 0 < P) (r : Fin P) :
    sortUnique (gather fun s => (routed rawPatches s r).map (idIn rawPatches)) =
      (List.range (shard rawPatches r).length).map
        (displacement (fun s => (shard rawPatches s).length) r + ·) := by
  apply eq_of_pairwise_lt_of_mem_iff (sortUnique_pairwise _)
  · rw [List.pairwise_map]
    exact List.pairwise_lt_range.imp fun hij => Nat.add_lt_add_left hij _
  · intro id
    have harrived : (∃ s, ∃ h ∈ routed rawPatches s r, idIn rawPatches h = id) ↔
        ∃ h ∈ shard rawPatches r, idIn rawPatches h = id := by
      simp only [← sortUnique_arrivals, mem_sortUnique, mem_gather]
      constructor
      · rintro ⟨s, h, hh, heq⟩
        exact ⟨h, ⟨s, hh⟩, heq⟩
      · rintro ⟨h, ⟨s, hh⟩, heq⟩
        exact ⟨s, h, hh, heq⟩
    simp only [mem_sortUnique, mem_gather, List.mem_map, harrived, List.mem_range]
    constructor
    · rintro ⟨h, hh, rfl⟩
      obtain ⟨i, hi, rfl⟩ := List.mem_iff_getElem.mp hh
      exact ⟨i, hi, shardStart_add hP r hi⟩
    · rintro ⟨i, hi, rfl⟩
      exact ⟨_, List.getElem_mem hi, (shardStart_add hP r hi).symm⟩

/-- Every owner's part of a doubled exchange can be counted in int. -/
def DoubledFit (rawPatches : Fin P → List (List Hash)) : Prop :=
  ∀ s r, 2 * (routed rawPatches s r).length ≤ intMax

instance : DecidablePred (DoubledFit (P := P)) := fun rawPatches =>
  inferInstanceAs (Decidable (∀ s r, 2 * (routed rawPatches s r).length ≤ intMax))

/-- The three exchanges return just when the counts are looked up at an int index and, doubled,
fit in int. -/
theorem routeToOwners_eq (hP : 0 < P) (hfit : CountsFit rawPatches)
    (loc : Fin P → Hash → Point α) :
    routeToOwners (fun r => patchSetOf (mapped rawPatches r))
        (fun r => (localUniq (rawPatches r)).map (loc r)) =
      if TableFits P ∧ DoubledFit rawPatches then .ok (arrivalsAt rawPatches loc)
      else .error .overflow := by
  have hsendcounts := onRanks_eq_ok (tally_owners hP hfit)
  have htotal := onRanks_eq_ok fun r => (totalInt_eq_ok_iff
    (List.ofFn fun s : Fin P => (routed rawPatches s r).length) _).mpr
      ⟨by rw [List.sum_ofFn]; exact hfit.received r, rfl⟩
  have hsend2 : onRanks (fun r => doubled fun t => (routed rawPatches r t).length) =
      if ∀ s r, 2 * (routed rawPatches s r).length ≤ intMax then
        .ok fun r t => 2 * (routed rawPatches r t).length else .error .overflow := by
    simp only [doubled_eq, onRanks_ite]
  have hrecv2 : onRanks (fun r => doubled fun s => (routed rawPatches s r).length) =
      if ∀ r s, 2 * (routed rawPatches s r).length ≤ intMax then
        .ok fun r s => 2 * (routed rawPatches s r).length else .error .overflow := by
    simp only [doubled_eq, onRanks_ite]
  have hindex := onRanks_recvcountsInt
    (allgather fun (r t : Fin P) => (routed rawPatches r t).length)
  unfold routeToOwners
  simp only [hsendcounts, ok_bind]
  rw [hindex]
  by_cases htable : TableFits P
  swap
  · rw [if_neg htable, error_bind, if_neg fun h => htable h.1]
  rw [if_pos htable]
  simp only [ok_bind, allgather, htotal, hsend2, hrecv2]
  by_cases hdouble : ∀ s r, 2 * (routed rawPatches s r).length ≤ intMax
  · have hroom : ∀ r, ∑ s, (routed rawPatches s r).length ≤
        (List.ofFn fun s : Fin P => (routed rawPatches s r).length).sum :=
      fun r => le_of_eq (List.sum_ofFn ..).symm
    rw [if_pos hdouble, if_pos fun r s => hdouble s r,
      if_pos (show TableFits P ∧ DoubledFit rawPatches from ⟨htable, hdouble⟩)]
    simp only [ok_bind, keys_patchSetOf, degrees_patchSetOf, alltoallv_routed hP _ hroom,
      alltoallv_packPoints hP loc hroom, unpackPoints_packPoints, pure_eq_ok]
    rfl
  · rw [if_neg hdouble, error_bind, if_neg fun h => hdouble h.2]

theorem length_shard_le (hfit : CountsFit rawPatches) (r : Fin P) :
    (shard rawPatches r).length ≤ intMax := by
  rw [← sortUnique_arrivals]
  refine le_trans (length_sortUnique_le _) ?_
  rw [length_gather, displacement_last]
  exact hfit.received r

end Exchange

end PatternSearch.StatsRouting
