import PatternSearch.Selector

/-!
Redistribution of the incidences over the element shards. The shard ranges are computed by
products cut at N, the owner of an element by a division; the two agree unless the rounding up
of the shard size wraps around. After the exchange the rows of a slot on the ranks, each moved
back to its shard's base, lie behind one another as the row of the patch. The counts of the
exchange are looked up at an int index, so the ranks must not be too many.
-/

namespace PatternSearch.IncidenceSharding

open Machine Collectives Bucketing Csr Selection HashMapping IdAssignment Setup Incidence Shards
  ByElement ElementSetup Selector

variable {P : ℕ}

section Shards

variable {N : ℕ}

/-- The ranges of the ranks follow one another from 0 to N, and the owner computed by division
is the rank whose range holds the element. -/
structure ShardsPartition (N P : ℕ) : Prop where
  first : shardBase N P 0 = 0
  next : ∀ r, r + 1 < P → shardEnd N P r = shardBase N P (r + 1)
  base_le : ∀ r < P, shardBase N P r ≤ shardEnd N P r
  last : shardEnd N P (P - 1) = N
  owner : ∀ e < N, e / shardSize N P < P ∧ shardOwner N P e = e / shardSize N P ∧
    ∀ r < P, shardBase N P r ≤ e ∧ e < shardEnd N P r ↔ e / shardSize N P = r

theorem shardOwner_mono (N P : ℕ) {a b : ℕ} (h : a ≤ b) :
    shardOwner N P a ≤ shardOwner N P b := by
  unfold shardOwner
  split_ifs
  · exact Nat.le_refl 0
  · exact Nat.div_le_div_right h

theorem shardsPartition (hP : 0 < P) (hfit : N + P ≤ 2 ^ 64) : ShardsPartition N P := by
  constructor
  case first => rw [shardBase, Nat.zero_mul, Nat.zero_mod, Nat.zero_min]
  case next => exact fun r _ => rfl
  case base_le =>
    intro r hr
    rw [shardBase_eq hP hfit hr.le, shardEnd_eq hP hfit hr]
    exact min_le_min_right N (Nat.mul_le_mul_right (shardSize N P) (Nat.le_succ r))
  case last =>
    rw [shardEnd_eq hP hfit (by omega), Nat.sub_add_cancel hP]
    exact Nat.min_eq_right (le_mul_shardSize hP hfit)
  case owner =>
    intro e he
    have hpos := shardSize_pos hP hfit (Nat.zero_lt_of_lt he)
    have howner : shardOwner N P e = e / shardSize N P := if_neg (by omega)
    refine ⟨howner ▸ shardOwner_lt hP (by omega) he, howner, fun r hr => ?_⟩
    rw [← howner]
    exact (shardOwner_eq_iff hP hfit he hr).symm

/-- A shard size that has wrapped around leaves every shard empty. -/
theorem le_of_shardsPartition (hN : N < 2 ^ 64) (hP : P < 2 ^ 64) (h : ShardsPartition N P) :
    N + P ≤ 2 ^ 64 := by
  by_contra hwrap
  have hlast := h.last
  rw [shardEnd, shardSize_of_wrap hN.le (not_le.mp hwrap), Nat.mul_zero, Nat.zero_mod,
    Nat.zero_min] at hlast
  omega

/-- Moved back to the bases of their shards, the parts of a row make up the row. -/
theorem gather_subRow (hP : 0 < P) (hfit : N + P ≤ 2 ^ 64) {row : List ElementId}
    (hsorted : row.Pairwise (· < ·)) (hlt : ∀ e ∈ row, e < N) :
    gather (fun r : Fin P => (subRow N P r row).map (shardBase N P r + ·)) = row := by
  have hparts : ∀ r : Fin P, (subRow N P r row).map (shardBase N P r + ·) =
      bucket (shardOwner N P) row r := by
    intro r
    rw [subRow, List.map_map, bucket]
    conv_rhs => rw [← List.map_id (row.filter fun e => shardOwner N P e = r)]
    apply List.map_congr_left
    intro e he
    obtain ⟨hmem, howner⟩ := List.mem_filter.mp he
    have hrange := (shardOwner_eq_iff hP hfit (hlt e hmem) r.isLt).mp (of_decide_eq_true howner)
    exact Nat.add_sub_cancel' hrange.1
  simp only [hparts]
  exact gather_bucket hsorted (fun _ _ => shardOwner_mono N P)
    fun e he => shardOwner_lt hP (by omega) (hlt e he)

end Shards

section Exact

/-- The ranks together hold the rows of all patches, every row split over the shards. -/
structure HoldsRows (N : ℕ) (rows : Fin P → List (List ElementId))
    (globalIds : Fin P → List PatchId) (sh : Fin P → Sharded) : Prop where
  slotStart : ∀ q, (sh q).slots.slotStart = displacement (fun s => (rows s).length) q
  mGlobal : ∀ r, (sh r).slots.mGlobal = ∑ q, (rows q).length
  slot : ∀ s < ∑ q, (rows q).length, ∃ q, ∃ p < (rows q).length, s = (sh q).slots.slotStart + p
  gid : ∀ q, ∀ p < (rows q).length, ∀ r,
    (sh r).slots.slotToGid[(sh q).slots.slotStart + p]? = (globalIds q)[p]?
  count : ∀ r, (sh r).sub.M = ∑ q, (rows q).length
  data : ∀ r, (sh r).sub.data = (List.range (sh r).sub.M).flatMap (sh r).sub.patch
  rows : ∀ q, ∀ p < (rows q).length,
    gather (fun r => ((sh r).sub.patch ((sh q).slots.slotStart + p)).map (shardBase N P r + ·)) =
      (rows q).getD p []
  local_lt : ∀ r, ∀ e ∈ (sh r).sub.data, e < shardExtent N P r

theorem data_eq_flatMap_patch (rows : List (List ElementId)) :
    (buildPatchCsr rows).data =
      (List.range (buildPatchCsr rows).M).flatMap (buildPatchCsr rows).patch := by
  rw [data_buildPatchCsr, M_buildPatchCsr, List.flatMap_def]
  congr 1
  apply List.ext_getElem
  · simp
  · intro p hp _
    rw [List.getElem_map, List.getElem_range, patch_eq_getD, List.getD_eq_getElem _ _ hp]

section Rows

variable {N : ℕ} {rows : Fin P → List (List ElementId)}
  (hrows : ∀ r, ∀ row ∈ rows r, row.Pairwise (· < ·) ∧ ∀ e ∈ row, e < N)
include hrows

/-- Also a slot that no patch has stands for a sorted row of elements. -/
theorem row_of_slot (s : ℕ) : ((gather rows).getD s []).Pairwise (· < ·) ∧
    ∀ e ∈ (gather rows).getD s [], e < N := by
  by_cases hs : s < (gather rows).length
  · obtain ⟨q, p, hp, rfl⟩ := exists_slotOf (List.mem_range.mpr hs)
    rw [slotOf, getD_gather rows q hp, List.getD_eq_getElem _ _ hp]
    exact hrows q _ (List.getElem_mem hp)
  · rw [List.getD_eq_default _ _ (not_lt.mp hs)]
    exact ⟨List.Pairwise.nil, fun e he => absurd he List.not_mem_nil⟩

theorem incidencesFit (hslots : (gather rows).length ≤ intMax)
    (hincidences : ∀ r, (rows r).flatten.length ≤ intMax) (htable : TableFits P)
    (hfit : N + P ≤ 2 ^ 64) : IncidencesFit N rows where
  rows_fit := row_of_slot hrows
  slots_le := hslots
  incidences_le := hincidences
  table_fits := htable
  shards_fit := hfit

/-- The local ids stay inside the shard. -/
theorem lt_shardExtent (hP : 0 < P) (hfit : N + P ≤ 2 ^ 64) (r : Fin P) {e : ElementId}
    (he : e ∈ (shardCsr N rows r).data) : e < shardExtent N P r := by
  rw [shardCsr, data_buildPatchCsr] at he
  obtain ⟨part, hpart, hmem⟩ := List.mem_flatten.mp he
  obtain ⟨row, hrowmem, rfl⟩ := List.mem_map.mp hpart
  obtain ⟨q, hq⟩ := mem_gather.mp hrowmem
  have hset := List.mem_toFinset.mpr hmem
  rw [toFinset_subRow hP hfit (hrows q row hq).2 r.isLt] at hset
  exact Finset.mem_range.mp (localPart_subset_range hset)

theorem holdsRows_exactSharded (hP : 0 < P) (hfit : N + P ≤ 2 ^ 64)
    {globalIds : Fin P → List PatchId} (hids : ∀ r, (globalIds r).length = (rows r).length) :
    HoldsRows N rows globalIds (exactSharded N rows globalIds) := by
  have hlen : (gather rows).length = ∑ r, (rows r).length :=
    (length_gather rows).trans (displacement_last _)
  constructor
  case slotStart => exact fun q => rfl
  case mGlobal => exact fun r => hlen
  case slot =>
    intro s hs
    have hmem : s ∈ List.range (gather rows).length := List.mem_range.mpr (hlen ▸ hs)
    obtain ⟨q, p, hp, rfl⟩ := exists_slotOf hmem
    exact ⟨q, p, hp, rfl⟩
  case gid =>
    intro q p hp r
    have hcounts : (fun s => (rows s).length) = fun s => (globalIds s).length :=
      funext fun s => (hids s).symm
    show (gather globalIds)[displacement (fun s => (rows s).length) q + p]? = _
    rw [hcounts]
    exact getElem?_gather globalIds q p (by rw [hids]; exact hp)
  case count =>
    intro r
    show (buildPatchCsr (subRows N P r (gather rows))).M = _
    rw [M_buildPatchCsr, subRows, List.length_map, hlen]
  case data => exact fun r => data_eq_flatMap_patch _
  case rows =>
    intro q p hp
    have hslot := row_of_slot hrows (slotOf rows q p)
    rw [slotOf, getD_gather rows q hp] at hslot
    show gather (fun r => ((shardCsr N rows r).patch (displacement (fun s => (rows s).length) q +
      p)).map (shardBase N P r + ·)) = _
    simp only [shardCsr, patch_eq_getD, getD_subRows, getD_gather rows q hp]
    exact gather_subRow hP hfit hslot.1 hslot.2
  case local_lt => exact fun r e he => lt_shardExtent hrows hP hfit r he

end Rows

/-- Redistribution loses and duplicates nothing: the shards partition the elements, and each
slot's rows on the ranks make up the row of the patch that the slot stands for. -/
def Redistributes (N : ℕ) (m : Fin P → IdMappedPatches) (globalIds : Fin P → List PatchId) : Prop :=
  ShardsPartition N P ∧ ∃ sh, redistribute m globalIds = .ok sh ∧
    HoldsRows N (fun r => (m r).idPatches) globalIds sh

variable {N : ℕ} {m : Fin P → IdMappedPatches} {globalIds : Fin P → List PatchId}

/-- Without the int index there is no redistribution. -/
theorem tableFits_of_redistributes (h : Redistributes N m globalIds) : TableFits P := by
  obtain ⟨-, sh, hsh, -⟩ := h
  obtain ⟨slots, -, hsh⟩ := bind_eq_ok.mp hsh
  obtain ⟨sub, hsub, -⟩ := bind_eq_ok.mp hsh
  obtain ⟨ex, hex, -⟩ := bind_eq_ok.mp hsub
  exact tableFits_of_exchangeIncidences hex

/-- It is exact, for any number of elements and any rows, just when the index into the table of
the counts stays in int on every rank and the shard size is rounded up without a wrap. -/
theorem redistribution_exact_iff (hP : 0 < P) (hN64 : N < 2 ^ 64) (hN : ∀ r, (m r).N = N)
    (hrows : ∀ r, ∀ row ∈ (m r).idPatches, row.Pairwise (· < ·) ∧ ∀ e ∈ row, e < N)
    (hids : ∀ r, (globalIds r).length = (m r).idPatches.length)
    (hslots : ∑ r, (m r).idPatches.length ≤ intMax)
    (hincidences : ∀ r, (m r).idPatches.flatten.length ≤ intMax) :
    Redistributes N m globalIds ↔ TableFits P ∧ N + P ≤ 2 ^ 64 := by
  constructor
  · intro h
    have htable := tableFits_of_redistributes h
    have hsmall := htable.lt_two_pow
    exact ⟨htable, le_of_shardsPartition hN64 (by omega) h.1⟩
  · intro h
    obtain ⟨htable, hfit⟩ := h
    have htotal : (gather fun r => (m r).idPatches).length ≤ intMax := by
      rw [length_gather, displacement_last]
      exact hslots
    have hexact := redistribute_eq_ok hP hN (fun _ => rfl)
      (incidencesFit hrows htotal hincidences htable hfit) hids
    exact ⟨shardsPartition hP hfit, _, hexact, holdsRows_exactSharded hrows hP hfit hids⟩

/-- Two elements on four ranks, two shards of them empty, and a patch without elements. -/
theorem redistribution_exact_iff_empty_shards :
    ∃ m sh, (∀ r, (m r).idPatches = ![[[0, 1], []], [], [[1]], []] r) ∧
      redistribute (P := 4) m ![[10, 20], [], [30], []] = .ok sh ∧
      gather (fun r => ((sh r).sub.patch 0).map (shardBase 2 4 r + ·)) = [0, 1] := by
  let m : Fin 4 → IdMappedPatches := fun r =>
    { idPatches := ![[[0, 1], []], [], [[1]], []] r
      N := 2
      shardHashes := []
      shardStart := 0 }
  have hids : ∀ r, (![[10, 20], [], [30], []] r : List PatchId).length =
      (m r).idPatches.length := by decide
  obtain ⟨-, sh, hsh, hholds⟩ := (redistribution_exact_iff (N := 2) (P := 4) (m := m) (by decide)
    (by decide) (fun _ => rfl) (by decide) hids (by decide) (by decide)).mpr (by decide)
  have hrow := hholds.rows 0 0 (by decide)
  rw [hholds.slotStart] at hrow
  exact ⟨m, sh, fun _ => rfl, hsh, hrow⟩

/-- One patch on each of 46341 ranks: the last rank's index passes INT_MAX. -/
theorem not_redistributes_many_ranks :
    ∃ m, mapHashesToElementIds (onePatchEach 46341) = .ok m ∧
      ∀ N, ¬ Redistributes N m (oneIdEach 46341) := by
  have hlimits := withinLimits_onePatchEach (P := 46341) .byElement (by decide)
  refine ⟨_, (mapHashes_eq_ok_iff (by decide) _).mpr ⟨hlimits.hashes, rfl⟩, fun N h => ?_⟩
  exact absurd (tableFits_of_redistributes h) (by decide)

end Exact

end PatternSearch.IncidenceSharding
