import PatternSearch.StatsRouting

/-!
All stages of the pattern statistics in a row. Whatever the number of occurrences, a run in
which every rank finds all its distinct hashes counts every patch, and reports for every hash
the least of the locations that the sorts were handed.
-/

namespace PatternSearch.StatsRun

open Machine Collectives Bucketing SortedLists KeyRuns KeyedReduction TopK Csr Kernels HashMapping
  IdAssignment Setup PatternStats StatsStages StatsRouting

variable {P : ℕ} {α : Type}

/-- The patches without their coordinates. -/
def hashesOf (located : Fin P → LocatedPatches α) (r : Fin P) : List (List Hash) :=
  (located r).map fun patch => patch.map Prod.fst

theorem gather_hashesOf (located : Fin P → LocatedPatches α) :
    gather (hashesOf located) = (gather located).map fun patch => patch.map Prod.fst :=
  (map_gather _ _).symm

theorem length_gather_hashesOf (located : Fin P → LocatedPatches α) :
    (gather (hashesOf located)).length = (gather located).length := by
  rw [gather_hashesOf, List.length_map]

section Arrivals

variable {rawPatches : Fin P → List (List Hash)} {ν : Type}

/-- The ranks whose patches contain a hash. -/
def ranksWith (rawPatches : Fin P → List (List Hash)) (h : Hash) : List (Fin P) :=
  (List.finRange P).filter fun s => h ∈ localUniq (rawPatches s)

theorem mem_ranksWith {h : Hash} {s : Fin P} :
    s ∈ ranksWith rawPatches h ↔ h ∈ localUniq (rawPatches s) := by
  simp [ranksWith]

theorem valuesOf_gather {κ : Type} [LinearOrder κ] (f : Fin P → List (κ × ν)) (k : κ) :
    valuesOf (gather f) k = (List.finRange P).flatMap fun s => valuesOf (f s) k := by
  rw [valuesOf, filter_gather, map_gather, gather_eq_flatMap]
  rfl

/-- Every rank that has a hash contributes one value under its id. -/
theorem valuesOf_arrivals (f : Fin P → Hash → ν) (r : Fin P) {h : Hash}
    (hh : h ∈ shard rawPatches r) :
    valuesOf (gather fun s => (routed rawPatches s r).map fun a => (idIn rawPatches a, f s a))
        (idIn rawPatches h) =
      (ranksWith rawPatches h).map fun s => f s h := by
  obtain ⟨hmem, howner⟩ := mem_bucket.mp hh
  have hrank : ∀ s, valuesOf ((routed rawPatches s r).map fun a => (idIn rawPatches a, f s a))
      (idIn rawPatches h) = if h ∈ localUniq (rawPatches s) then [f s h] else [] := by
    intro s
    have hfilter : (routed rawPatches s r).filter
          (fun a => idIn rawPatches a = idIn rawPatches h) =
        (routed rawPatches s r).filter fun a => a = h := by
      apply List.filter_congr
      intro a ha
      have hglobal := mem_globalUniq_of_localUniq (mem_bucket.mp ha).1
      have hiff : idIn rawPatches a = idIn rawPatches h ↔ a = h :=
        ⟨fun heq => lowerBound_injOn globalUniq_pairwise hglobal hmem heq, fun heq => heq ▸ rfl⟩
      simp only [hiff]
    have hnodup : (routed rawPatches s r).Nodup := (sortUnique_nodup _).filter _
    have hrouted : h ∈ routed rawPatches s r ↔ h ∈ localUniq (rawPatches s) :=
      mem_bucket.trans (and_iff_left howner)
    have hvalues : valuesOf ((routed rawPatches s r).map fun a => (idIn rawPatches a, f s a))
        (idIn rawPatches h) = ((routed rawPatches s r).filter
          fun a => idIn rawPatches a = idIn rawPatches h).map (f s) := by
      rw [valuesOf, List.filter_map, List.map_map]
      rfl
    rw [hvalues, hfilter, List.filter_eq, hnodup.count]
    simp only [hrouted]
    split_ifs <;> rfl
  rw [valuesOf_gather]
  simp only [hrank]
  rw [ranksWith]
  induction List.finRange P with
  | nil => rfl
  | cons s ranks ih =>
    rw [List.flatMap_cons, ih]
    by_cases hs : h ∈ localUniq (rawPatches s)
    · rw [if_pos hs, List.filter_cons_of_pos (by simpa using hs)]
      rfl
    · rw [if_neg hs, List.filter_cons_of_neg (by simpa using hs)]
      rfl

/-- Ranks without a hash do not change what is summed over the ranks. -/
theorem flatMap_ranksWith {h : Hash} (f : Fin P → List ν)
    (hnone : ∀ s, h ∉ localUniq (rawPatches s) → f s = []) :
    (ranksWith rawPatches h).flatMap f = (List.finRange P).flatMap f := by
  rw [ranksWith]
  induction List.finRange P with
  | nil => rfl
  | cons s ranks ih =>
    by_cases hs : h ∈ localUniq (rawPatches s)
    · rw [List.filter_cons_of_pos (by simpa using hs), List.flatMap_cons, List.flatMap_cons, ih]
    · rw [List.filter_cons_of_neg (by simpa using hs), List.flatMap_cons, hnone s hs, ih]
      rfl

/-- The degrees of a hash over the ranks that have it count the patches of all ranks. -/
theorem sum_degrees (h : Hash) :
    ((ranksWith rawPatches h).map fun s => degreeOf (rawPatches s) h).sum =
      degreeOf (gather rawPatches) h := by
  have hlen : ∀ s, degreeOf (rawPatches s) h =
      ((rawPatches s).filter fun patch => h ∈ patch).length :=
    fun s => List.countP_eq_length_filter ..
  have hnone : ∀ s, h ∉ localUniq (rawPatches s) →
      (rawPatches s).filter (fun patch => h ∈ patch) = [] := by
    intro s hs
    rw [List.filter_eq_nil_iff]
    intro patch hpatch hmem
    exact hs (mem_localUniq.mpr ⟨patch, hpatch, by simpa using hmem⟩)
  have hall : (ranksWith rawPatches h).flatMap
        (fun s => (rawPatches s).filter fun patch => h ∈ patch) =
      (List.finRange P).flatMap fun s => (rawPatches s).filter fun patch => h ∈ patch :=
    flatMap_ranksWith _ hnone
  rw [degreeOf, List.countP_eq_length_filter, filter_gather, gather_eq_flatMap, ← hall,
    List.length_flatMap]
  simp only [hlen]

end Arrivals

section Locations

variable [LinearOrder α] [Zero α] (located : Fin P → LocatedPatches α)

/-- The occurrences of a rank, in the order of its patches. -/
def occurrences (r : Fin P) : List (Hash × Point α) := (located r).flatten

/-- The occurrences of all ranks that the local sorts are handed. -/
def keptOccurrences : List (Hash × Point α) := gather fun r => kept (occurrences located r)

/-- The entry a run reports for a hash. -/
def reportedStat (h : Hash) : PatternStat α where
  hash := h
  count := degreeOf (gather (hashesOf located)) h
  rep := locationOf (keptOccurrences located) h

/-- Every rank still sees all of its distinct hashes. -/
def AllHashesKept : Prop :=
  ∀ r, (sortUnique ((kept (occurrences located r)).map Prod.fst)).length =
    (localUniq (hashesOf located r)).length

variable {located}

omit [LinearOrder α] [Zero α] in
theorem flatten_hashesOf (r : Fin P) :
    (hashesOf located r).flatten = (occurrences located r).map Prod.fst :=
  List.map_flatten.symm

section Uncut

variable (hocc : ∀ r, (occurrences located r).length ≤ intMax)
include hocc

omit [LinearOrder α] [Zero α] in
theorem items_nonneg (r : Fin P) : 0 ≤ toInt32 (occurrences located r).length := by
  rw [toInt32_natCast (hocc r)]
  exact Int.natCast_nonneg _

omit [LinearOrder α] [Zero α] in
theorem kept_occurrences (r : Fin P) : kept (occurrences located r) = occurrences located r :=
  kept_eq_self (hocc r)

omit [LinearOrder α] [Zero α] in
theorem allHashesKept : AllHashesKept located := by
  intro r
  rw [kept_occurrences hocc, ← flatten_hashesOf, localUniq]

end Uncut

omit [LinearOrder α] [Zero α] in
/-- As many distinct hashes among the kept occurrences means the same ones. -/
theorem hashes_kept (hkept : AllHashesKept located) (r : Fin P) :
    sortUnique ((kept (occurrences located r)).map Prod.fst) = localUniq (hashesOf located r) := by
  have hcard := hkept r
  rw [localUniq, flatten_hashesOf, length_sortUnique, length_sortUnique] at hcard
  rw [localUniq, flatten_hashesOf]
  have hsub : ((kept (occurrences located r)).map Prod.fst).toFinset ⊆
      ((occurrences located r).map Prod.fst).toFinset := by
    intro h hh
    have hmem := List.mem_toFinset.mp hh
    exact List.mem_toFinset.mpr (List.map_subset _ (List.take_subset _ _) hmem)
  have heq := Finset.eq_of_subset_of_card_le hsub (le_of_eq hcard.symm)
  apply sortUnique_congr
  intro h
  rw [← List.mem_toFinset, heq, List.mem_toFinset]

/-- The reduced locations of a rank stand in the order of its hashes. -/
theorem locations_kept (hkept : AllHashesKept located) (r : Fin P) :
    (representatives (kept (occurrences located r))).map Prod.snd =
      (localUniq (hashesOf located r)).map (locationOf (kept (occurrences located r))) := by
  rw [representatives, hashes_kept hkept, List.map_map]
  simp only [Function.comp_def]

/-- The least of the ranks' least locations. -/
theorem location_of_ranks (hkept : AllHashesKept located) (h : Hash) :
    reduceRun min ((ranksWith (hashesOf located) h).map fun s =>
        locationOf (kept (occurrences located s)) h) =
      locationOf (keptOccurrences located) h := by
  have hmem : ∀ s, valuesOf (kept (occurrences located s)) h ≠ [] ↔
      h ∈ localUniq (hashesOf located s) := by
    intro s
    rw [valuesOf_ne_nil, ← hashes_kept hkept, mem_sortUnique]
  have hne : ∀ s ∈ ranksWith (hashesOf located) h,
      valuesOf (kept (occurrences located s)) h ≠ [] :=
    fun s hs => (hmem s).mpr (mem_ranksWith.mp hs)
  have hnone : ∀ s, h ∉ localUniq (hashesOf located s) →
      valuesOf (kept (occurrences located s)) h = [] :=
    fun s hs => not_not.mp fun hnil => hs ((hmem s).mp hnil)
  have hparts := reduceRun_min_flatMap (ranksWith (hashesOf located) h)
    (fun s => valuesOf (kept (occurrences located s)) h) hne
  rw [flatMap_ranksWith _ hnone, ← valuesOf_gather] at hparts
  exact hparts

theorem count_lt {rawPatches : Fin P → List (List Hash)}
    (hpatches : (gather rawPatches).length < 2 ^ 64) (h : Hash) :
    degreeOf (gather rawPatches) h < 2 ^ 64 :=
  lt_of_le_of_lt List.countP_le_length hpatches

/-- What is routed to rank r: the id of a hash, its degree and its location on the sender. -/
def arrivedEntries (located : Fin P → LocatedPatches α) (r : Fin P) :
    List (ElementId × ℕ × Point α) :=
  gather fun s => (routed (hashesOf located) s r).map fun h =>
    (idIn (hashesOf located) h, degreeOf (hashesOf located s) h,
      locationOf (kept (occurrences located s)) h)

theorem arrivalsAt_eq_arrivedEntries (r : Fin P) :
    arrivalsAt (hashesOf located) (fun s => locationOf (kept (occurrences located s))) r =
      { ids := (arrivedEntries located r).map Prod.fst
        degrees := (arrivedEntries located r).map fun e => e.2.1
        points := (arrivedEntries located r).map fun e => e.2.2 } := by
  simp only [arrivalsAt, arrivedEntries, map_gather, List.map_map, Function.comp_def]

/-- The degrees that arrive for a slot add up to the count of its hash. -/
theorem sum_arrived_degrees (hP : 0 < P) (r : Fin P) {i : ℕ}
    (hi : i < (shard (hashesOf located) r).length) :
    (valuesOf ((arrivedEntries located r).map fun e => (e.1, e.2.1))
        (displacement (fun s => (shard (hashesOf located) s).length) r + i)).sum =
      (reportedStat located (shard (hashesOf located) r)[i]).count := by
  have hvalues :=
    valuesOf_arrivals (fun s => degreeOf (hashesOf located s)) r (List.getElem_mem hi)
  rw [shardStart_add hP r hi, reportedStat, ← sum_degrees, ← hvalues, arrivedEntries, map_gather]
  simp only [List.map_map, Function.comp_def]

/-- The least of the locations that arrive for a slot is that of its hash. -/
theorem min_arrived_locations (hP : 0 < P) (hkept : AllHashesKept located) (r : Fin P) {i : ℕ}
    (hi : i < (shard (hashesOf located) r).length) :
    reduceRun min (valuesOf ((arrivedEntries located r).map fun e => (e.1, e.2.2))
        (displacement (fun s => (shard (hashesOf located) s).length) r + i)) =
      (reportedStat located (shard (hashesOf located) r)[i]).rep := by
  have hvalues := valuesOf_arrivals (fun s => locationOf (kept (occurrences located s))) r
    (List.getElem_mem hi)
  rw [shardStart_add hP r hi, reportedStat, ← location_of_ranks hkept, ← hvalues, arrivedEntries,
    map_gather]
  simp only [List.map_map, Function.comp_def]

/-- After stage D the shard of rank r holds the entries of its hashes. -/
theorem reduceArrivals_run (hfit : CountsFit (hashesOf located)) (hkept : AllHashesKept located)
    (hpatches : (gather (hashesOf located)).length < 2 ^ 64) (hP : 0 < P) (d : Device) (r : Fin P) :
    reduceArrivals d (shard (hashesOf located) r).length
        (displacement (fun s => (shard (hashesOf located) s).length) r)
        (arrivalsAt (hashesOf located) (fun s => locationOf (kept (occurrences located s))) r) =
      .ok { counts := (shard (hashesOf located) r).map fun h => (reportedStat located h).count
            points := (shard (hashesOf located) r).map fun h => (reportedStat located h).rep } := by
  have hids : sortUnique ((arrivedEntries located r).map Prod.fst) =
      (List.range (shard (hashesOf located) r).length).map
        (displacement (fun s => (shard (hashesOf located) s).length) r + ·) := by
    rw [← sortUnique_arrivals_ids hP, arrivedEntries, map_gather]
    simp only [List.map_map, Function.comp_def]
  have hentries : (arrivedEntries located r).length ≤ intMax := by
    rw [arrivedEntries, length_gather, displacement_last]
    simp only [List.length_map]
    exact hfit.received r
  have hsum : ∀ i < (shard (hashesOf located) r).length,
      (valuesOf ((arrivedEntries located r).map fun e => (e.1, e.2.1))
        (displacement (fun s => (shard (hashesOf located) s).length) r + i)).sum < 2 ^ 64 := by
    intro i hi
    rw [sum_arrived_degrees hP r hi]
    exact count_lt hpatches _
  rw [arrivalsAt_eq_arrivedEntries, reduceArrivals_eq_ok d _ hentries hids hsum,
    map_range_eq_map (g := fun h => (reportedStat located h).count) fun i hi =>
      sum_arrived_degrees hP r hi,
    map_range_eq_map (g := fun h => (reportedStat located h).rep) fun i hi =>
      min_arrived_locations hP hkept r hi]

end Locations

section Merge

theorem mergedStats_candidatesOf (stats : List (PatternStat α)) :
    mergedStats (stats.map PatternStat.hash) (stats.map PatternStat.count)
      (stats.map fun e => e.rep.x) (stats.map fun e => e.rep.y) = stats := by
  rw [mergedStats, List.zip_map', List.zip_map', List.zip_map', List.map_map]
  exact List.map_id _

/-- Every rank knows how many candidates every rank sends. -/
theorem candidate_counts (parts : Fin P → List (PatternStat α)) :
    allgather (fun r => (candidatesOf (parts r)).hash.length) = fun _ s => (parts s).length :=
  funext fun _ => funext fun _ => List.length_map ..

/-- The merge of lists that are few enough together. -/
theorem mergeCandidates_eq_ok (k : ℕ) (parts : Fin P → List (PatternStat α))
    (hfew : ∑ r, (parts r).length ≤ intMax / 8) :
    mergeCandidates k (fun r => candidatesOf (parts r)) =
      .ok fun _ => smallest statKey k (gather parts) := by
  have hcheck : ∀ _ : Fin P, checkCandidates k (∑ s, (parts s).length) = .ok () :=
    fun _ => if_neg (not_lt.mpr hfew)
  have hgather : ∀ {β : Type} (f : PatternStat α → β),
      allgatherv (fun r => (parts r).map f) (fun _ s => (parts s).length) =
        .ok fun _ => (gather parts).map f := by
    intro β f
    rw [map_gather]
    exact allgatherv_eq_ok fun _ s => (List.length_map ..).symm
  unfold mergeCandidates
  simp only [candidate_counts, onRanks_eq_ok hcheck, ok_bind]
  simp only [candidatesOf, hgather, ok_bind, pure_eq_ok, mergedStats_candidatesOf,
    partialSort_eq_smallest]

theorem mergeCandidates_eq_error (hP : 0 < P) (k : ℕ) (parts : Fin P → List (PatternStat α))
    (hmany : intMax / 8 < ∑ r, (parts r).length) :
    ∃ e, mergeCandidates k (fun r => candidatesOf (parts r)) = .error (.throws e) := by
  have hcheck : ∀ _ : Fin P, checkCandidates k (∑ s, (parts s).length) = .error _ :=
    fun _ => if_pos hmany
  unfold mergeCandidates
  simp only [candidate_counts, onRanks_eq_error hP hcheck, error_bind]
  exact ⟨_, rfl⟩

end Merge

section Run

variable [LinearOrder α] [Zero α] {located : Fin P → LocatedPatches α}

/-- The number of candidates all ranks gather. -/
def candidateCount (rawPatches : Fin P → List (List Hash)) (k : ℕ) : ℕ :=
  ∑ r, min k (shard rawPatches r).length

/-- The run after stage A and the mapping. -/
theorem run_eq_of_items (hP : 0 < P) (dev : Fin P → Device) (k : ℕ)
    (hitems : ∀ r, 0 ≤ toInt32 (occurrences located r).length)
    (hfit : CountsFit (hashesOf located)) :
    run dev located k = (do
      let _ ← onRanks fun r =>
        checkRuns (representatives (kept (occurrences located r))).length
          (patchSetOf (mapped (hashesOf located) r)).inv.keys.length
      let arrivals ← routeToOwners (fun r => patchSetOf (mapped (hashesOf located) r))
        fun r => (representatives (kept (occurrences located r))).map Prod.snd
      let arrays ← onRanks fun r =>
        reduceArrivals (dev r) (shard (hashesOf located) r).length
          (displacement (fun s => (shard (hashesOf located) s).length) r) (arrivals r)
      let candidates ← onRanks fun r => localTop k (shard (hashesOf located) r) (arrays r)
      mergeCandidates k candidates) := by
  have hreduced : onRanks (fun r => reduceOccurrences (located r).flatten) =
      .ok fun r => representatives (kept (occurrences located r)) :=
    onRanks_eq_ok fun r => reduceOccurrences_eq_ok (hitems r)
  have hset : buildPatchSet (fun r => (located r).map fun patch => patch.map Prod.fst) =
      .ok fun r => patchSetOf (mapped (hashesOf located) r) :=
    (buildPatchSet_eq_ok_iff hP _).mpr ⟨hfit, rfl⟩
  unfold run
  rw [hreduced, ok_bind, hset, ok_bind]
  rfl

/-- The check compares the hashes of the reduction with those of the inverted index. -/
theorem checkRuns_rank (located : Fin P → LocatedPatches α) (r : Fin P) :
    checkRuns (representatives (kept (occurrences located r))).length
        (patchSetOf (mapped (hashesOf located) r)).inv.keys.length =
      checkRuns (sortUnique ((kept (occurrences located r)).map Prod.fst)).length
        (localUniq (hashesOf located r)).length := by
  rw [keys_patchSetOf, representatives, List.length_map, List.length_map]

theorem checkRuns_eq_ok (hkept : AllHashesKept located) :
    onRanks (fun r => checkRuns (representatives (kept (occurrences located r))).length
        (patchSetOf (mapped (hashesOf located) r)).inv.keys.length) = .ok fun _ => () := by
  apply onRanks_eq_ok
  intro r
  rw [checkRuns_rank, hkept r]
  exact if_neg (not_not.mpr rfl)

/-- Stages A to E, once every rank passes the check of the number of hashes. -/
theorem run_eq_merge (hP : 0 < P) (dev : Fin P → Device) (k : ℕ)
    (hitems : ∀ r, 0 ≤ toInt32 (occurrences located r).length)
    (hfit : CountsFit (hashesOf located)) (hkept : AllHashesKept located)
    (hroutes : TableFits P ∧ DoubledFit (hashesOf located))
    (hpatches : (gather (hashesOf located)).length < 2 ^ 64) :
    run dev located k = mergeCandidates k fun r => candidatesOf
      (smallest statKey k ((shard (hashesOf located) r).map (reportedStat located))) := by
  have hroute := (routeToOwners_eq hP hfit fun r =>
    locationOf (kept (occurrences located r))).trans (if_pos hroutes)
  have harrays := onRanks_eq_ok fun r =>
    reduceArrivals_run hfit hkept hpatches hP (dev r) r
  have htop := onRanks_eq_ok fun r => localTop_eq_ok k (pairwise_shard r)
    (length_shard_le hfit r) (reportedStat located) (fun _ => rfl)
    fun h _ => count_lt hpatches h
  rw [run_eq_of_items hP dev k hitems hfit, checkRuns_eq_ok hkept, ok_bind]
  simp only [locations_kept hkept, hroute, harrays, htop, ok_bind]

/-- The owners' top lists contain the top of the whole list. -/
theorem smallest_gather_shards (hP : 0 < P) (k : ℕ) :
    smallest statKey k (gather fun r =>
        smallest statKey k ((shard (hashesOf located) r).map (reportedStat located))) =
      smallest statKey k ((globalUniq (hashesOf located)).map (reportedStat located)) := by
  have hwhole : gather (fun r => (shard (hashesOf located) r).map (reportedStat located)) =
      (globalUniq (hashesOf located)).map (reportedStat located) := by
    rw [← map_gather, gather_shard hP]
  have hnodup := nodup_statKeys (sortUnique_nodup (gather (hashesOf located)).flatten)
    fun h => (rfl : (reportedStat located h).hash = h)
  have hcut := smallest_flatten (List.ofFn fun r =>
    (shard (hashesOf located) r).map (reportedStat located)) (by
      change ((gather _).map statKey).Nodup
      rw [hwhole]
      exact hnodup) k
  rw [List.map_ofFn] at hcut
  rw [← hwhole]
  exact hcut

/-- Whether the whole run returns depends on the number of candidates alone. -/
theorem run_eq_ok (hP : 0 < P) (dev : Fin P → Device) {k : ℕ}
    (hitems : ∀ r, 0 ≤ toInt32 (occurrences located r).length)
    (hfit : CountsFit (hashesOf located)) (hkept : AllHashesKept located)
    (hroutes : TableFits P ∧ DoubledFit (hashesOf located))
    (hpatches : (gather (hashesOf located)).length < 2 ^ 64)
    (hfew : candidateCount (hashesOf located) k ≤ intMax / 8) :
    run dev located k =
      .ok fun _ =>
        smallest statKey k ((globalUniq (hashesOf located)).map (reportedStat located)) := by
  rw [run_eq_merge hP dev k hitems hfit hkept hroutes hpatches, mergeCandidates_eq_ok,
    smallest_gather_shards hP]
  simp only [length_smallest, List.length_map]
  exact hfew

/-- Routing checks neither the table index nor the doubling of the counts. -/
theorem run_eq_overflow (hP : 0 < P) (dev : Fin P → Device) {k : ℕ}
    (hitems : ∀ r, 0 ≤ toInt32 (occurrences located r).length)
    (hfit : CountsFit (hashesOf located)) (hkept : AllHashesKept located)
    (hnot : ¬ (TableFits P ∧ DoubledFit (hashesOf located))) :
    run dev located k = .error .overflow := by
  have hroute := (routeToOwners_eq hP hfit fun r =>
    locationOf (kept (occurrences located r))).trans (if_neg hnot)
  rw [run_eq_of_items hP dev k hitems hfit, checkRuns_eq_ok hkept, ok_bind]
  simp only [locations_kept hkept, hroute, error_bind]

theorem run_eq_error (hP : 0 < P) (dev : Fin P → Device) {k : ℕ}
    (hitems : ∀ r, 0 ≤ toInt32 (occurrences located r).length)
    (hfit : CountsFit (hashesOf located)) (hkept : AllHashesKept located)
    (hroutes : TableFits P ∧ DoubledFit (hashesOf located))
    (hpatches : (gather (hashesOf located)).length < 2 ^ 64)
    (hmany : intMax / 8 < candidateCount (hashesOf located) k) :
    ∃ e, run dev located k = .error (.throws e) := by
  rw [run_eq_merge hP dev k hitems hfit hkept hroutes hpatches]
  apply mergeCandidates_eq_error hP
  simp only [length_smallest, List.length_map]
  exact hmany

end Run

end PatternSearch.StatsRun
