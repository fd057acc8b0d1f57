import Mathlib.Data.List.Find
import PatternSearch.ByElement

/-!
Setup of the ByElement mode. Redistributing the incidences hands every rank, for each global
slot, exactly the elements of that patch inside its shard; they arrive in slot order, so the
sort that follows finds them sorted. The wire check compares the patch sizes with the bound.
-/

namespace PatternSearch.ElementSetup

open Machine Collectives Bucketing SortedLists Csr KeyRuns Transpose Selection HashMapping
  IdAssignment Setup Shards ByElement

variable {P : ℕ}

section Rows

/-- The part of a row inside shard r, in shard-local ids. -/
def subRow (N P r : ℕ) (row : List ElementId) : List ElementId :=
  (row.filter fun e => shardOwner N P e = r).map (· - shardBase N P r)

def subRows (N P r : ℕ) (rows : List (List ElementId)) : List (List ElementId) :=
  rows.map (subRow N P r)

variable {N : ℕ} {row : List ElementId}

section Row

variable (hP : 0 < P) (hfit : N + P ≤ 2 ^ 64) (hrow : ∀ e ∈ row, e < N) {r : ℕ} (hr : r < P)
include hP hfit hrow hr

theorem toFinset_subRow : (subRow N P r row).toFinset = localPart N P r row.toFinset := by
  ext e
  simp only [subRow, List.mem_toFinset, List.mem_map, List.mem_filter, decide_eq_true_eq,
    mem_localPart]
  constructor
  · intro h
    obtain ⟨x, ⟨hx, howner⟩, rfl⟩ := h
    have hrange := (shardOwner_eq_iff hP hfit (hrow x hx) hr).mp howner
    refine ⟨?_, ?_⟩
    · unfold shardExtent
      omega
    · rw [Nat.add_sub_cancel' hrange.1]
      exact hx
  · intro h
    obtain ⟨he, hmem⟩ := h
    have howner : shardOwner N P (shardBase N P r + e) = r := by
      apply (shardOwner_eq_iff hP hfit (hrow _ hmem) hr).mpr
      unfold shardExtent at he
      omega
    exact ⟨_, ⟨hmem, howner⟩, Nat.add_sub_cancel_left ..⟩

theorem pairwise_subRow (hsorted : row.Pairwise (· < ·)) :
    (subRow N P r row).Pairwise (· < ·) := by
  rw [subRow, List.pairwise_map]
  refine (hsorted.filter _).imp_of_mem ?_
  intro a b ha hb hab
  have hra := (shardOwner_eq_iff hP hfit (hrow a (List.mem_filter.mp ha).1) hr).mp
    (by simpa using (List.mem_filter.mp ha).2)
  exact Nat.sub_lt_sub_right hra.1 hab

end Row

theorem getD_subRows (r : ℕ) (rows : List (List ElementId)) (s : ℕ) :
    (subRows N P r rows).getD s [] = subRow N P r (rows.getD s []) := by
  rw [subRows, List.getD_eq_getElem?_getD, List.getElem?_map, List.getD_eq_getElem?_getD]
  cases rows[s]? with
  | none => rfl
  | some row => rfl

theorem map_snd_slotEntries (slotStart : ℕ) (rows : List (List ElementId)) :
    (slotEntries slotStart rows).map Prod.snd = rows.flatten := by
  have hrows : rows = (List.range rows.length).map fun p => rows.getD p [] := by
    apply List.ext_getElem
    · simp
    · intro p hp _
      rw [List.getElem_map, List.getElem_range, List.getD_eq_getElem _ _ hp]
  rw [slotEntries, List.map_flatMap]
  conv_rhs => rw [hrows]
  rw [List.flatMap_def]
  simp [Function.comp_def]

/-- The number of incidences is the size of the rows. -/
theorem length_slotEntries (slotStart : ℕ) (rows : List (List ElementId)) :
    (slotEntries slotStart rows).length = rows.flatten.length := by
  rw [← map_snd_slotEntries slotStart rows, List.length_map]

/-- The incidences of all ranks in rank order are those of the concatenated rows. -/
theorem gather_slotEntries (rows : Fin P → List (List ElementId)) :
    gather (fun s => slotEntries (displacement (fun s => (rows s).length) s) (rows s)) =
      slotEntries 0 (gather rows) := by
  rw [slotEntries, length_gather, range_displacement, gather_eq_flatMap, List.flatMap_assoc]
  apply List.flatMap_congr
  intro r _
  rw [slotEntries, List.flatMap_map]
  apply List.flatMap_congr
  intro p hp
  rw [getD_gather rows r (List.mem_range.mp hp)]
  apply List.map_congr_left
  intro e _
  rw [Nat.zero_add]

/-- What arrives at a rank, in shard-local ids, is the incidence list of its sub rows. -/
theorem map_filter_slotEntries (r : ℕ) (rows : List (List ElementId)) :
    ((slotEntries 0 rows).filter fun x => shardOwner N P x.2 = r).map
        (fun x => (x.1, x.2 - shardBase N P r)) =
      slotEntries 0 (subRows N P r rows) := by
  unfold slotEntries
  have hlen : (subRows N P r rows).length = rows.length := List.length_map ..
  rw [List.filter_flatMap, List.map_flatMap, hlen]
  apply List.flatMap_congr
  intro p _
  rw [getD_subRows, subRow, List.filter_map, List.map_map, List.map_map]
  rfl

/-- The incidence list of ascending rows is sorted already. -/
theorem pairwise_slotEntries (rows : List (List ElementId))
    (hrows : ∀ p, (rows.getD p []).Pairwise (· < ·)) :
    (slotEntries 0 rows).Pairwise pairLe := by
  unfold slotEntries
  rw [List.pairwise_flatMap]
  constructor
  · intro p _
    rw [List.pairwise_map]
    exact (hrows p).imp fun hlt => Or.inr ⟨rfl, le_of_lt hlt⟩
  · refine List.pairwise_lt_range.imp ?_
    intro p q hpq x hx y hy
    obtain ⟨e, _, rfl⟩ := List.mem_map.mp hx
    obtain ⟨e', _, rfl⟩ := List.mem_map.mp hy
    left
    omega

end Rows

section SubCsr

theorem slotEntries_concat (rows : List (List ElementId)) (row : List ElementId) :
    slotEntries 0 (rows ++ [row]) = slotEntries 0 rows ++ row.map fun e => (rows.length, e) := by
  unfold slotEntries
  rw [List.length_append, List.length_singleton, List.range_succ, List.flatMap_append]
  congr 1
  · apply List.flatMap_congr
    intro p hp
    rw [List.getD_append _ _ _ _ (List.mem_range.mp hp)]
  · simp

private theorem modify_append_cons (front back : List ℕ) (x : ℕ) (f : ℕ → ℕ) :
    (front ++ x :: back).modify front.length f = front ++ f x :: back := by
  induction front with
  | nil => rfl
  | cons y front ih =>
    rw [List.cons_append, List.length_cons, List.modify_succ_cons, ih]
    rfl

private theorem foldl_modify_row (row : List ElementId) (front back : List ℕ) (first x : ℕ) :
    (row.map fun e => (front.length, e)).foldl
        (fun offsets (y : ℕ × ℕ) => offsets.modify (y.1 + 1) (· + 1))
        (first :: front ++ x :: back) =
      first :: front ++ (x + row.length) :: back := by
  induction row generalizing x with
  | nil => rfl
  | cons e row ih =>
    have hstep := modify_append_cons (first :: front) back x (· + 1)
    rw [List.length_cons] at hstep
    rw [List.map_cons, List.foldl_cons, hstep, ih, List.length_cons, Nat.add_assoc, Nat.add_comm 1]

/-- The histogram of an incidence list holds the row lengths, shifted by one. -/
theorem histogram_slotEntries (rows : List (List ElementId)) (extra : ℕ) :
    histogram (rows.length + extra) (slotEntries 0 rows) =
      0 :: rows.map List.length ++ List.replicate extra 0 := by
  induction rows using List.reverseRecOn generalizing extra with
  | nil =>
    rw [List.length_nil, Nat.zero_add]
    rfl
  | append_singleton rows row ih =>
    have hstep := ih (extra + 1)
    have hrow := foldl_modify_row row (rows.map List.length) (List.replicate extra 0) 0 0
    rw [List.length_map] at hrow
    unfold histogram at hstep ⊢
    rw [slotEntries_concat, List.foldl_append, List.length_append, List.length_singleton,
      Nat.add_assoc rows.length, Nat.add_comm 1, hstep, List.replicate_succ, hrow]
    simp

/-- From the arrivals of rank r the sub CSR is the layout of its sub rows. -/
theorem subCsr_eq {N : ℕ} (hP : 0 < P) (hfit : N + P ≤ 2 ^ 64) {rows : List (List ElementId)}
    (hrows : ∀ s, (rows.getD s []).Pairwise (· < ·) ∧ ∀ e ∈ rows.getD s [], e < N) {r : ℕ}
    (hr : r < P)
    {arrivals : List (PatchId × ElementId)}
    (harr : arrivals = (slotEntries 0 rows).filter fun x => shardOwner N P x.2 = r) :
    subCsr rows.length (shardBase N P r) (arrivals.map Prod.fst) (arrivals.map Prod.snd) =
      buildPatchCsr (subRows N P r rows) := by
  have hzip : (arrivals.map Prod.fst).zip ((arrivals.map Prod.snd).map (· - shardBase N P r)) =
      arrivals.map fun x => (x.1, x.2 - shardBase N P r) := by
    rw [List.map_map, List.zip_map']
    rfl
  have hsorted : (slotEntries 0 (subRows N P r rows)).Pairwise pairLe := by
    apply pairwise_slotEntries
    intro s
    rw [getD_subRows]
    exact pairwise_subRow hP hfit (hrows s).2 hr (hrows s).1
  have hhist := histogram_slotEntries (subRows N P r rows) 0
  have hlen : (subRows N P r rows).length = rows.length := List.length_map ..
  rw [Nat.add_zero, hlen, List.replicate_zero, List.append_nil] at hhist
  have hcsr : buildPatchCsr (subRows N P r rows) =
      { data := (subRows N P r rows).flatten
        offsets := ((subRows N P r rows).map List.length).scanl (· + ·) 0 } := by
    rw [← data_buildPatchCsr]
    rfl
  unfold subCsr
  rw [hzip, harr, map_filter_slotEntries, hsorted.insertionSort_eq, hcsr]
  simp only [map_snd_slotEntries, hhist]
  rfl

end SubCsr

section Exchange

variable {N : ℕ} (rows : Fin P → List (List ElementId))

/-- The incidences rank s sends to rank r. -/
def routedEntries (N : ℕ) (rows : Fin P → List (List ElementId)) (s r : Fin P) :
    List (PatchId × ElementId) :=
  bucket (fun x : PatchId × ElementId => shardOwner N P x.2)
    (slotEntries (displacement (fun s => (rows s).length) s) (rows s)) r

/-- The incidence exchange when all counts are exact. -/
def exactIncidences (N : ℕ) (rows : Fin P → List (List ElementId)) (r : Fin P) :
    IncidenceExchange P where
  sent := exactPlan P (fun x : PatchId × ElementId => shardOwner N P x.2)
    (slotEntries (displacement (fun s => (rows s).length) r) (rows r))
  recvSlots := gather fun s => (routedEntries N rows s r).map Prod.fst
  recvElems := gather fun s => (routedEntries N rows s r).map Prod.snd

theorem mem_slotEntries {slotStart : ℕ} {rows : List (List ElementId)}
    {x : PatchId × ElementId} (hx : x ∈ slotEntries slotStart rows) :
    ∃ p < rows.length, x.2 ∈ rows.getD p [] := by
  obtain ⟨p, hp, hmem⟩ := List.mem_flatMap.mp hx
  obtain ⟨e, he, rfl⟩ := List.mem_map.mp hmem
  exact ⟨p, List.mem_range.mp hp, he⟩

variable {rows}

/-- What the senders have grouped is transposed. -/
theorem alltoallv_exactIncidences {α : Type} (proj : PatchId × ElementId → α) :
    alltoallv (fun r => (exactIncidences N rows r).sent.buffer.map proj)
        (fun r => (exactIncidences N rows r).sent.counts)
        (fun r s => (exactIncidences N rows s).sent.counts r)
        (fun r => (List.ofFn fun s => (exactIncidences N rows s).sent.counts r).sum) =
      .ok fun r => gather fun s => (routedEntries N rows s r).map proj := by
  simp only [exactIncidences, exactPlan, map_gather]
  apply alltoallv_eq_ok fun s r => (routedEntries N rows s r).map proj
  · intro s r
    rw [List.length_map]
    rfl
  · intro r s
    rw [List.length_map]
    rfl
  · intro r
    rw [displacement_last, List.sum_ofFn]

section Returns

variable (hP : 0 < P) (hN : N ≤ 2 ^ 64) (hrows : ∀ r s, ∀ e ∈ (rows r).getD s [], e < N)
include hP hN hrows

theorem owner_of_slotEntries_lt (slotStart : ℕ) (r : Fin P) :
    ∀ x ∈ slotEntries slotStart (rows r), shardOwner N P x.2 < P := by
  intro x hx
  obtain ⟨p, _, hp⟩ := mem_slotEntries hx
  exact shardOwner_lt hP hN (hrows r p x.2 hp)

/-- The senders count exactly when every rank's incidences fit in int. -/
theorem planIncidences_eq_ok_iff (sent : Fin P → Plan (PatchId × ElementId) P) :
    planIncidences (fun _ => N) (fun r => displacement (fun s => (rows s).length) r) rows =
        .ok sent ↔
      (∀ r, (rows r).flatten.length ≤ intMax) ∧
        sent = fun r => (exactIncidences N rows r).sent := by
  have hplan (r : Fin P) (p : Plan (PatchId × ElementId) P) :=
    plan_eq_ok_iff (owner_of_slotEntries_lt hP hN hrows
      (displacement (fun s => (rows s).length) r) r) hP p
  unfold planIncidences
  simp only [onRanks_eq_ok_iff, hplan, length_slotEntries, forall_and, funext_iff]
  rfl

/-- The incidence exchange returns exactly when every rank's incidences fit in int and so does
the index into the table of their counts. -/
theorem exchangeIncidences_eq_ok_iff (ex : Fin P → IncidenceExchange P) :
    exchangeIncidences (fun _ => N) (fun r => displacement (fun s => (rows s).length) r) rows =
        .ok ex ↔
      (∀ r, (rows r).flatten.length ≤ intMax) ∧ TableFits P ∧ ex = exactIncidences N rows := by
  unfold exchangeIncidences
  simp only [bind_eq_ok, planIncidences_eq_ok_iff hP hN hrows, onRanks_recvcountsInt_eq_ok_iff,
    pure_eq_ok, Except.ok.injEq, allgather]
  constructor
  · intro h
    obtain ⟨sent, ⟨hfit, rfl⟩, recvcounts, ⟨htable, rfl⟩, recvSlots, hslots, recvElems, helems,
      rfl⟩ := h
    rw [alltoallv_exactIncidences] at hslots helems
    obtain rfl := Except.ok.inj hslots
    obtain rfl := Except.ok.inj helems
    exact ⟨hfit, htable, rfl⟩
  · intro h
    obtain ⟨hfit, htable, rfl⟩ := h
    exact ⟨_, ⟨hfit, rfl⟩, _, ⟨htable, rfl⟩, _, alltoallv_exactIncidences _, _,
      alltoallv_exactIncidences _, rfl⟩

/-- Otherwise an int overflows. -/
theorem exchangeIncidences_eq_error
    (h : ¬ ((∀ r, (rows r).flatten.length ≤ intMax) ∧ TableFits P)) :
    exchangeIncidences (fun _ => N) (fun r => displacement (fun s => (rows s).length) r) rows =
      .error .overflow := by
  unfold exchangeIncidences
  cases hsent : planIncidences (fun _ => N) (fun r => displacement (fun s => (rows s).length) r)
      rows with
  | ok sent =>
    have hfit := ((planIncidences_eq_ok_iff hP hN hrows sent).mp hsent).1
    have hindex := onRanks_recvcountsInt (allgather fun r => (sent r).counts)
    rw [if_neg fun htable => h ⟨hfit, htable⟩] at hindex
    simp only [ok_bind, hindex, error_bind]
  | error e =>
    obtain ⟨r, hr⟩ := exists_error_of_onRanks hsent
    rw [error_bind, overflow_of_plan (owner_of_slotEntries_lt hP hN hrows _ r) hr]

end Returns

theorem tableFits_of_exchangeIncidences {N slotStart : Fin P → ℕ}
    {idPatches : Fin P → List (List ElementId)} {ex : Fin P → IncidenceExchange P}
    (h : exchangeIncidences N slotStart idPatches = .ok ex) : TableFits P := by
  obtain ⟨sent, _, h⟩ := bind_eq_ok.mp h
  obtain ⟨recvcounts, htable, _⟩ := bind_eq_ok.mp h
  exact ((onRanks_recvcountsInt_eq_ok_iff _ _).mp htable).1

/-- Everything that arrives at a rank, in order. -/
theorem gather_routedEntries (r : Fin P) :
    gather (fun s => routedEntries N rows s r) =
      (slotEntries 0 (gather rows)).filter fun x => shardOwner N P x.2 = r := by
  rw [← gather_slotEntries, filter_gather]
  rfl

end Exchange

section Checks

theorem assignSlots_eq_ok (hP : 0 < P) {mLocal : Fin P → ℕ} {globalIds : Fin P → List PatchId}
    (htotal : displacement mLocal P ≤ intMax) (hids : ∀ r, (globalIds r).length = mLocal r) :
    assignSlots mLocal globalIds = .ok fun r =>
      { slotStart := displacement mLocal r
        mGlobal := displacement mLocal P
        slotToGid := gather globalIds } := by
  have hcast : ∀ r, (toInt32 (mLocal r)).toNat = mLocal r := by
    intro r
    have hend := block_end_le mLocal r
    unfold intMax at htotal
    rw [toInt32_eq_self (by omega) (by omega), Int.toNat_natCast]
  have htake : ∀ r, (globalIds r).take (mLocal r) = globalIds r := fun r =>
    List.take_of_length_le (le_of_eq (hids r))
  unfold assignSlots countSlots checkSlotRange gatherSlotIds
  simp only [exscan, bcastTotal_eq_ok hP, ok_bind, if_neg (not_lt.mpr htotal)]
  rw [onRanks_eq_ok (g := fun _ => ()) fun _ => rfl, ok_bind]
  have hgather : allgatherv globalIds (allgather mLocal) = .ok fun _ => gather globalIds :=
    allgatherv_eq_ok fun r s => (hids s).symm
  simp only [hcast, htake, hgather]
  rfl

/-- Too many patches for ArgMax's index type are rejected on every rank. -/
theorem assignSlots_eq_error (hP : 0 < P) {mLocal : Fin P → ℕ} (globalIds : Fin P → List PatchId)
    (htotal : intMax < displacement mLocal P) :
    assignSlots mLocal globalIds = .error slotRangeError := by
  unfold assignSlots countSlots checkSlotRange
  simp only [exscan, bcastTotal_eq_ok hP, ok_bind, if_pos htotal]
  rw [onRanks_eq_error hP fun _ => rfl, error_bind]

/-- All ranks reach the verdict on the first slot whose sum is over the bound. -/
theorem wireVerdicts_eq {M : ℕ} (g : List PatchId) (init : Fin P → List ℤ)
    (hlen : ∀ r, (init r).length = M) :
    wireVerdicts (fun _ => M) (fun _ => g) init = .ok fun _ =>
      match (List.range M).find? fun s =>
          decide (wireMax P < toInt64 (∑ r, (init r).getD s 0)) with
      | some s => .error (wireError (g.getD s 0) (toInt64 (∑ r, (init r).getD s 0)))
      | none => .ok () := by
  have hfind : (List.range M).find? (fun s => wireMax P < (columnSums toInt64 M init).getD s 0) =
      (List.range M).find? fun s => wireMax P < toInt64 (∑ r, (init r).getD s 0) := by
    apply List.find?_congr
    intro s hs
    rw [getD_columnSums toInt64 init (List.mem_range.mp hs)]
  unfold wireVerdicts checkSums
  rw [allreduceSum_eq_ok M (fun _ => rfl) fun r => le_of_eq (hlen r).symm, ok_bind]
  simp only [hfind]
  cases hslot : (List.range M).find? fun s =>
      decide (wireMax P < toInt64 (∑ r, (init r).getD s 0)) with
  | none => rfl
  | some s =>
    have hs := List.mem_range.mp (List.mem_of_find?_eq_some hslot)
    simp only [getD_columnSums toInt64 init hs]
    rfl

end Checks

section Prepare

variable {N : ℕ} {rows : Fin P → List (List ElementId)} {globalIds : Fin P → List PatchId}

/-- The sub CSR of one rank. -/
def shardCsr (N : ℕ) (rows : Fin P → List (List ElementId)) (r : Fin P) : PatchCsr :=
  buildPatchCsr (subRows N P r (gather rows))

/-- What setup leaves on a rank when nothing is rejected. -/
def elemSetup (N : ℕ) (rows : Fin P → List (List ElementId)) (globalIds : Fin P → List PatchId)
    (r : Fin P) : ElemSetup where
  N := N
  mGlobal := (gather rows).length
  slotToGid := gather globalIds
  shardExtent := shardExtent N P r
  sub := shardCsr N rows r
  inv := buildInvertedIndex (shardCsr N rows r)
  maxSubLen :=
    ((List.range (gather rows).length).map (subLen (shardCsr N rows r).offsets)).foldl max 0
  initialScores := initScores (gather rows).length (shardCsr N rows r).offsets

/-- Rows that are ascending, with ids below N, and small enough to be counted in int, on ranks
few enough to look the counts up in int and to share N without wrapping around. -/
structure IncidencesFit (N : ℕ) (rows : Fin P → List (List ElementId)) : Prop where
  rows_fit : ∀ s, ((gather rows).getD s []).Pairwise (· < ·) ∧ ∀ e ∈ (gather rows).getD s [], e < N
  slots_le : (gather rows).length ≤ intMax
  incidences_le : ∀ r, (rows r).flatten.length ≤ intMax
  table_fits : TableFits P
  shards_fit : N + P ≤ 2 ^ 64

theorem IncidencesFit.mem_lt (h : IncidencesFit N rows) {r : Fin P} {s : ℕ} {e : ElementId}
    (he : e ∈ (rows r).getD s []) : e < N := by
  by_cases hs : s < (rows r).length
  · have hrow := h.rows_fit (slotOf rows r s)
    rw [slotOf, getD_gather rows r hs] at hrow
    exact hrow.2 e he
  · rw [List.getD_eq_default _ _ (not_lt.mp hs)] at he
    cases he

theorem IncidencesFit.le_two_pow (h : IncidencesFit N rows) : N ≤ 2 ^ 64 :=
  le_trans (Nat.le_add_right N P) h.shards_fit

theorem IncidencesFit.length_row_le (h : IncidencesFit N rows) (s : ℕ) :
    ((gather rows).getD s []).length ≤ intMax := by
  by_cases hs : s < (gather rows).length
  · obtain ⟨r, p, hp, rfl⟩ := exists_slotOf (List.mem_range.mpr hs)
    rw [slotOf, getD_gather rows r hp, List.getD_eq_getElem _ _ hp]
    have hsub := List.sublist_flatten_of_mem (List.getElem_mem hp)
    exact le_trans hsub.length_le (h.incidences_le r)
  · rw [List.getD_eq_default _ _ (not_lt.mp hs)]
    exact Nat.zero_le _

theorem subLen_shardCsr (r : Fin P) {s : ℕ} (hs : s < (gather rows).length) :
    subLen (shardCsr N rows r).offsets s = (subRow N P r ((gather rows).getD s [])).length := by
  have hlen : s < (subRows N P r (gather rows)).length := by
    rw [subRows, List.length_map]
    exact hs
  have hsize := patchSize_buildPatchCsr (subRows N P r (gather rows)) s hlen
  rw [← List.getD_eq_getElem _ [] hlen, getD_subRows] at hsize
  exact hsize

/-- The lengths of a row's parts over all shards add up to the size of its set. -/
theorem sum_length_subRow (hP : 0 < P) (h : IncidencesFit N rows) (s : ℕ) :
    ∑ r : Fin P, (subRow N P r ((gather rows).getD s [])).length =
      (rowSet (gather rows) s).card := by
  obtain ⟨hsorted, hlt⟩ := h.rows_fit s
  have hpart : ∀ r : Fin P, (subRow N P r ((gather rows).getD s [])).length =
      (localPart N P r (rowSet (gather rows) s)).card := by
    intro r
    have hnodup : (subRow N P r ((gather rows).getD s [])).Nodup :=
      (pairwise_subRow hP h.shards_fit hlt r.isLt hsorted).imp fun hab => ne_of_lt hab
    rw [← List.toFinset_card_of_nodup hnodup, toFinset_subRow hP h.shards_fit hlt r.isLt]
    rfl
  simp only [hpart]
  apply sum_card_localPart hP h.shards_fit
  intro e he
  exact Finset.mem_range.mpr (hlt e (List.mem_toFinset.mp he))

theorem getD_initScores (h : IncidencesFit N rows) (r : Fin P) {s : ℕ}
    (hs : s < (gather rows).length) :
    (initScores (gather rows).length (shardCsr N rows r).offsets).getD s 0 =
      ((subRow N P r ((gather rows).getD s [])).length : ℤ) := by
  have hle : (subRow N P r ((gather rows).getD s [])).length ≤ intMax := by
    rw [subRow, List.length_map]
    exact le_trans (List.length_filter_le _ _) (h.length_row_le s)
  unfold intMax at hle
  rw [initScores, List.getD_eq_getElem _ _ (by simpa using hs), List.getElem_map,
    List.getElem_range, subLen_shardCsr r hs]
  apply toInt32_eq_self
  · omega
  · omega

/-- The initial sums that travel through the wire check are the sizes of the patches. -/
theorem sum_initScores (hP : 0 < P) (h : IncidencesFit N rows) {s : ℕ}
    (hs : s < (gather rows).length) :
    toInt64 (∑ r, (initScores (gather rows).length (shardCsr N rows r).offsets).getD s 0) =
      ((rowSet (gather rows) s).card : ℤ) := by
  simp only [getD_initScores h _ hs]
  rw [← Nat.cast_sum, sum_length_subRow hP h]
  have hcard : (rowSet (gather rows) s).card ≤ intMax :=
    le_trans (List.toFinset_card_le _) (h.length_row_le s)
  unfold intMax at hcard
  apply toInt64_eq_self
  · omega
  · omega

/-- The first slot whose patch is too large for the wire. -/
def firstOversized (rows : Fin P → List (List ElementId)) : Option ℕ :=
  (List.range (gather rows).length).find? fun s =>
    decide (wireMax P < ((rowSet (gather rows) s).card : ℤ))

/-- The incidence exchange of rows that fit is exact. -/
theorem exchangeIncidences_eq_ok (hP : 0 < P) (h : IncidencesFit N rows) :
    exchangeIncidences (fun _ => N) (fun r => displacement (fun s => (rows s).length) r) rows =
      .ok (exactIncidences N rows) :=
  (exchangeIncidences_eq_ok_iff hP h.le_two_pow (fun _ _ _ he => h.mem_lt he) _).mpr
    ⟨h.incidences_le, h.table_fits, rfl⟩

/-- And what arrives is laid out as the shard of the rank. -/
theorem subCsr_exactIncidences (hP : 0 < P) (h : IncidencesFit N rows) (r : Fin P) :
    subCsr (gather rows).length (shardBase N P r) (exactIncidences N rows r).recvSlots
      (exactIncidences N rows r).recvElems = shardCsr N rows r := by
  simp only [exactIncidences]
  rw [← map_gather, ← map_gather]
  exact subCsr_eq hP h.shards_fit h.rows_fit r.isLt (gather_routedEntries r)

theorem wireVerdicts_shardCsr (hP : 0 < P) (h : IncidencesFit N rows)
    (globalIds : Fin P → List PatchId) :
    wireVerdicts (fun _ => (gather rows).length) (fun _ => gather globalIds)
        (fun r => initScores (gather rows).length (shardCsr N rows r).offsets) =
      .ok fun _ => match firstOversized rows with
        | some s => .error (wireError ((gather globalIds).getD s 0) (rowSet (gather rows) s).card)
        | none => .ok () := by
  have hfind : (List.range (gather rows).length).find? (fun s => wireMax P <
        toInt64 (∑ r, (initScores (gather rows).length (shardCsr N rows r).offsets).getD s 0)) =
      firstOversized rows := by
    apply List.find?_congr
    intro s hs
    rw [sum_initScores hP h (List.mem_range.mp hs)]
  rw [wireVerdicts_eq (gather globalIds) _ fun r => by
    rw [initScores, List.length_map, List.length_range], hfind]
  cases hover : firstOversized rows with
  | some s =>
    have hs := List.mem_range.mp (List.mem_of_find?_eq_some hover)
    simp only [sum_initScores hP h hs]
  | none => rfl

/-- What the redistribution leaves on a rank. -/
def exactSharded (N : ℕ) (rows : Fin P → List (List ElementId)) (globalIds : Fin P → List PatchId)
    (r : Fin P) : Sharded where
  slots :=
    { slotStart := displacement (fun s => (rows s).length) r
      mGlobal := (gather rows).length
      slotToGid := gather globalIds }
  sub := shardCsr N rows r

/-- The redistribution of rows that fit is exact. -/
theorem redistribute_eq_ok (hP : 0 < P) {m : Fin P → IdMappedPatches} (hN : ∀ r, (m r).N = N)
    (hrows : ∀ r, (m r).idPatches = rows r) (h : IncidencesFit N rows)
    (hids : ∀ r, (globalIds r).length = (rows r).length) :
    redistribute m globalIds = .ok (exactSharded N rows globalIds) := by
  have htotal : displacement (fun r => (rows r).length) P = (gather rows).length :=
    (length_gather rows).symm
  have hslots := assignSlots_eq_ok hP (by rw [htotal]; exact h.slots_le) hids
  unfold redistribute shardIncidences
  simp only [hN, hrows, hslots, htotal, ok_bind]
  rw [exchangeIncidences_eq_ok hP h]
  simp only [ok_bind, pure_eq_ok, subCsr_exactIncidences hP h]
  rfl

theorem redistribute_eq_slotRangeError (hP : 0 < P) {m : Fin P → IdMappedPatches}
    (globalIds : Fin P → List PatchId)
    (htotal : intMax < displacement (fun r => (m r).idPatches.length) P) :
    redistribute m globalIds = .error slotRangeError := by
  unfold redistribute
  rw [assignSlots_eq_error hP globalIds htotal, error_bind]

/-- Incidences or indices that leave the range of int stop the redistribution. -/
theorem redistribute_eq_overflow (hP : 0 < P) (hle : N ≤ 2 ^ 64) {m : Fin P → IdMappedPatches}
    (hN : ∀ r, (m r).N = N) (hrows : ∀ r, (m r).idPatches = rows r)
    (hlt : ∀ r s, ∀ e ∈ (rows r).getD s [], e < N)
    (htotal : displacement (fun r => (rows r).length) P ≤ intMax)
    (hids : ∀ r, (globalIds r).length = (rows r).length)
    (h : ¬ ((∀ r, (rows r).flatten.length ≤ intMax) ∧ TableFits P)) :
    redistribute m globalIds = .error .overflow := by
  unfold redistribute shardIncidences
  simp only [hN, hrows, assignSlots_eq_ok hP htotal hids, ok_bind]
  rw [exchangeIncidences_eq_error hP hle hlt h]
  simp only [error_bind]

theorem prepare_of_redistribute_error {m : Fin P → IdMappedPatches} {e : Fault}
    (h : redistribute m globalIds = .error e) : prepare m globalIds = .error e := by
  unfold prepare
  rw [h, error_bind]

/-- Setup either rejects the first oversized patch on all ranks or is exact on all ranks. -/
theorem prepare_eq (hP : 0 < P) {m : Fin P → IdMappedPatches} (hN : ∀ r, (m r).N = N)
    (hrows : ∀ r, (m r).idPatches = rows r) (h : IncidencesFit N rows)
    (hids : ∀ r, (globalIds r).length = (rows r).length) :
    prepare m globalIds =
      match firstOversized rows with
      | some s => .error (wireError ((gather globalIds).getD s 0) (rowSet (gather rows) s).card)
      | none => .ok (elemSetup N rows globalIds) := by
  have hagree : agree (fun r => 0 < (exactSharded N rows globalIds r).slots.mGlobal) =
      .ok (decide (0 < (gather rows).length)) :=
    agree_const (P := P) hP (decide (0 < (gather rows).length))
  unfold prepare
  rw [redistribute_eq_ok hP hN hrows h hids, ok_bind]
  simp only [hN]
  rw [hagree, ok_bind]
  dsimp only [exactSharded]
  unfold wireCheck
  rw [wireVerdicts_shardCsr hP h, ok_bind]
  cases hover : firstOversized rows with
  | some s =>
    have hs := List.mem_range.mp (List.mem_of_find?_eq_some hover)
    rw [if_pos (by simp only [decide_eq_true_eq]; omega), onRanks_eq_error hP fun _ => rfl]
    rfl
  | none =>
    rw [onRanks_eq_ok fun _ => rfl]
    by_cases hM : 0 < (gather rows).length
    · rw [if_pos (by simpa using hM)]
      rfl
    · rw [if_neg (by simpa using hM)]
      rfl

end Prepare

end PatternSearch.ElementSetup
