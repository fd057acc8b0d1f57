import PatternSearch.AnyOrder
import PatternSearch.StatsCorrect

/-!
The pattern statistics, rank by rank. The ranks issue matching calls through all stages, so in
whatever order they issue and leave them, every rank ends with the first k entries of the one
table of all patches. Input that a rank cannot take stops the others in their first call.
-/

namespace PatternSearch.StatsInStep

open Machine Collectives Bucketing Csr Kernels HashMapping IdAssignment Setup PatternStats
  StatsStages StatsRouting StatsRun StatTable StatsCorrect TopK Selector Spmd RankCalls LockStep
  Interleaving AnyOrder

variable {P : ℕ} {C : Type}

section Stages

theorem gather_singleton (x : Fin P → ℕ) : gather (fun s => [x s]) = List.ofFn x := by
  rw [gather_eq_flatMap, ← List.map_eq_flatMap, List.ofFn_eq_map]

theorem together_routeToOwners {ps : Fin P → PatchSet} {minPts : Fin P → List (Point C)}
    {arrivals : Fin P → Arrivals C} (h : PatternStats.routeToOwners ps minPts = .ok arrivals) :
    Together (fun r => RankPrograms.routeToOwners r (ps r) (minPts r)) (.returned arrivals) := by
  obtain ⟨sendcounts, hsend, h⟩ := bind_eq_ok.mp h
  obtain ⟨recvcounts, hlookup, h⟩ := bind_eq_ok.mp h
  obtain ⟨totalRecv, htotal, h⟩ := bind_eq_ok.mp h
  obtain ⟨sendcounts2, hsend2, h⟩ := bind_eq_ok.mp h
  obtain ⟨recvcounts2, hrecv2, h⟩ := bind_eq_ok.mp h
  obtain ⟨ids, hids, h⟩ := bind_eq_ok.mp h
  obtain ⟨degs, hdegs, h⟩ := bind_eq_ok.mp h
  obtain ⟨points, hpoints, h⟩ := bind_eq_ok.mp h
  obtain rfl := Except.ok.inj h
  unfold RankPrograms.routeToOwners
  apply together_allgatherv (t := .word) (allgatherv_eq_ok fun _ _ => rfl)
  simp only [gather_singleton]
  apply together_compute hsend
  apply together_allgatherv (allgatherv_eq_ok fun _ _ => List.length_ofFn.symm)
  simp only [recvcountsOfInt_gather]
  apply together_compute hlookup
  apply together_compute htotal
  apply together_compute hsend2
  apply together_compute hrecv2
  apply together_alltoallv hids
  apply together_alltoallv hdegs
  exact together_alltoallv (t := .coord) hpoints (Spmd.Together.done _)

variable [LinearOrder C] [Zero C] {located : Fin P → LocatedPatches C}

/-- What every rank contributes to the merge. -/
def topOfShard (located : Fin P → LocatedPatches C) (k : ℕ) (r : Fin P) : List (PatternStat C) :=
  smallest statKey k ((shard (hashesOf located) r).map (reportedStat located))

/-- Behind the PatchSet the ranks run in step up to the merge. -/
theorem together_statsStages (hP : 0 < P) (dev : Fin P → Device) (hfit : StatAdmissible located)
    {k : ℕ} {ending : Ending P Fault (List (PatternStat C))}
    (hmerge : Together (fun r => RankPrograms.mergeCandidates k
      (candidatesOf (topOfShard located k r))) ending) :
    Together (fun r => RankPrograms.statsStages (dev r) r k
      (patchSetOf (mapped (hashesOf located) r))
      (representatives (kept (occurrences located r)))) ending := by
  have hkept := allHashesKept hfit.occurrences
  have hpatches : (gather (hashesOf located)).length < 2 ^ 64 := by
    rw [length_gather_hashesOf]
    exact hfit.patches
  have hroute := (routeToOwners_eq hP hfit.hashes fun r =>
    locationOf (kept (occurrences located r))).trans
      (if_pos ⟨hfit.table, hfit.doubled⟩)
  unfold RankPrograms.statsStages RankPrograms.topPatterns
  apply together_compute (checkRuns_eq_ok hkept)
  simp only [locations_kept hkept]
  apply (together_routeToOwners hroute).bind
  apply Spmd.Together.lift fun r => reduceArrivals_run hfit.hashes hkept hpatches hP (dev r) r
  apply Spmd.Together.lift fun r => localTop_eq_ok k (pairwise_shard r)
    (length_shard_le hfit.hashes r) (reportedStat located) (fun _ => rfl)
    fun h _ => count_lt hpatches h
  exact hmerge

/-- The whole run ends like the merge. -/
theorem together_of_merge (hP : 0 < P) (dev : Fin P → Device) (hfit : StatAdmissible located)
    {k : ℕ} {ending : Ending P Fault (List (PatternStat C))}
    (hmerge : Together (fun r => RankPrograms.mergeCandidates k
      (candidatesOf (topOfShard located k r))) ending) :
    Together (fun r => RankPrograms.patternStats (dev r) r (hashesOf located r)
      (coordsOf located r) k) ending := by
  have hmap := together_mapHashesToElementIds (C := C)
    ((mapHashes_eq_ok_iff hP _).mpr ⟨hfit.hashes, rfl⟩)
  unfold RankPrograms.patternStats RankPrograms.statsRun
  apply Spmd.Together.lift (checkInput_eq_ok located)
  apply Spmd.Together.lift fun r => reduceOccurrences_eq_ok (items_nonneg hfit.occurrences r)
  exact hmap.bind (together_statsStages hP dev hfit hmerge)

end Stages

section Merge

variable {k : ℕ} {parts : Fin P → List (PatternStat C)}

theorem together_mergeCandidates (hfew : ∑ r, (parts r).length ≤ intMax / 8) :
    Together (fun r => RankPrograms.mergeCandidates k (candidatesOf (parts r)))
      (.returned fun _ => smallest statKey k (gather parts)) := by
  have hall := mergeCandidates_eq_ok k parts hfew
  obtain ⟨verdicts, hverdicts, hall⟩ := bind_eq_ok.mp hall
  obtain ⟨allHash, hhash, hall⟩ := bind_eq_ok.mp hall
  obtain ⟨allCount, hcount, hall⟩ := bind_eq_ok.mp hall
  obtain ⟨allX, hx, hall⟩ := bind_eq_ok.mp hall
  obtain ⟨allY, hy, hall⟩ := bind_eq_ok.mp hall
  rw [← Except.ok.inj hall]
  unfold RankPrograms.mergeCandidates
  apply together_allgatherv (t := .word) (allgatherv_eq_ok fun _ _ => rfl)
  simp only [gather_singleton, List.sum_ofFn]
  apply together_compute hverdicts
  simp only [← gather_singleton, getD_gather_singleton]
  apply together_allgatherv (t := .hash) hhash
  apply together_allgatherv (t := .word) hcount
  apply together_allgatherv (t := .coord) hx
  exact together_allgatherv (t := .coord) hy (Spmd.Together.done _)

/-- The gathered counts are the same everywhere, so every rank rejects together. -/
theorem together_mergeCandidates_rejected {e : Fault}
    (h : checkCandidates k (∑ r, (parts r).length) = .error e) :
    Together (fun r => RankPrograms.mergeCandidates k (candidatesOf (parts r)))
      (.stopped fun _ => e) := by
  unfold RankPrograms.mergeCandidates
  apply together_allgatherv (t := .word) (allgatherv_eq_ok fun _ _ => rfl)
  apply Spmd.Together.lift_stopped
  intro r
  simpa only [gather_singleton, List.sum_ofFn, candidatesOf, List.length_map] using h

theorem few_of_checkCandidates {total : ℕ} (h : checkCandidates k total = .ok ()) :
    total ≤ intMax / 8 := by
  unfold checkCandidates at h
  split_ifs at h with hmany
  exact not_lt.mp hmany

end Merge

section Orders

variable [LinearOrder C] [Zero C] {located : Fin P → LocatedPatches C}

/-- The job of all ranks calling pattern_stats. -/
def statsJob (dev : Fin P → Device) (patches : Fin P → List (List Hash))
    (coords : Fin P → List (List (Point (Option C)))) (k : ℕ) :
    Job P (Collective P C) Collective.Reply Fault (List (PatternStat C)) :=
  start fun r => RankPrograms.patternStats (dev r) r (patches r) (coords r) k

theorem sum_topOfShard (k : ℕ) :
    ∑ r, (topOfShard located k r).length = candidateCount (hashesOf located) k := by
  simp only [topOfShard, length_smallest, List.length_map, candidateCount]

theorem smallest_topOfShard (hP : 0 < P) (hfit : StatCountsFit located) (k : ℕ) :
    smallest statKey k (gather (topOfShard located k)) = (statTable (gather located)).take k := by
  rw [← smallest_reportedStat (kept_occurrences hfit.occurrences), ← smallest_gather_shards hP]
  rfl

/-- What is reported was among the candidates. -/
theorem length_take_statTable_le (hP : 0 < P) (hfit : StatCountsFit located) (k : ℕ) :
    ((statTable (gather located)).take k).length ≤ candidateCount (hashesOf located) k := by
  rw [← smallest_topOfShard hP hfit, length_smallest, length_gather, displacement_last,
    sum_topOfShard]
  exact Nat.min_le_right _ _

theorem together_patternStats (hP : 0 < P) (dev : Fin P → Device) (hfit : StatAdmissible located)
    {k : ℕ} (hfew : candidateCount (hashesOf located) k ≤ intMax / 8) :
    Together (fun r => RankPrograms.patternStats (dev r) r (hashesOf located r)
        (coordsOf located r) k)
      (.returned fun _ => (statTable (gather located)).take k) := by
  rw [← smallest_topOfShard hP hfit.toStatCountsFit]
  exact together_of_merge hP dev hfit (together_mergeCandidates (by rwa [sum_topOfShard]))

/-- In whatever order the ranks issue and leave their calls, the statistics end on every rank
with the first k entries of the table of all patches; only when the ranks gather more
candidates than the merge can count does every order end by the same rejection. -/
theorem stats_in_any_order (hP : 0 < P) {Delivers : Library P (Collective P C) Collective.Reply}
    (hserves : Serves Delivers Matches) (dev : Fin P → Device)
    (located : Fin P → LocatedPatches C) (hfit : StatAdmissible located) :
    ∃ table, IsStatTable (gather located) table ∧ ∀ k,
      (checkCandidates k (candidateCount (hashesOf located) k) = .ok () →
        Returns Delivers (statsJob dev (hashesOf located) (coordsOf located) k)
          fun _ => table.take k) ∧
      ∀ e, checkCandidates k (candidateCount (hashesOf located) k) = .error e →
        Stops Delivers (statsJob dev (hashesOf located) (coordsOf located) k)
          fun _ e' => e' = e := by
  refine ⟨_, isStatTable_statTable _, fun k => ⟨fun hcheck => ?_, fun e hcheck => ?_⟩⟩
  · obtain ⟨rounds, hrun⟩ := together_patternStats hP dev hfit (few_of_checkCandidates hcheck)
    exact returns_of_inStep hserves hrun
  · obtain ⟨rounds, hrun⟩ := together_of_merge hP dev hfit
      (together_mergeCandidates_rejected (by rwa [sum_topOfShard]))
    exact stops_of_inStep hP hserves hrun

/-- The patches of the handcrafted test on two ranks, with an eager library. -/
theorem stats_in_any_order_handcrafted :
    ∃ table, IsStatTable (gather handcrafted) table ∧
      Returns Eager (statsJob (fun _ => Device.inOrder) (hashesOf handcrafted)
        (coordsOf handcrafted) 2) fun _ => table.take 2 := by
  obtain ⟨table, htable, hruns⟩ := stats_in_any_order (P := 2) (by decide) serves_eager
    (fun _ => Device.inOrder) handcrafted
    (statAdmissible_of_total_le (by decide) (by decide) (by decide))
  have hle := candidateCount_le (hashesOf handcrafted) 2
  have hfew : ¬ intMax / 8 < candidateCount (hashesOf handcrafted) 2 := by
    unfold intMax
    omega
  exact ⟨table, htable, (hruns 2).1 (if_neg hfew)⟩

end Orders

end PatternSearch.StatsInStep
