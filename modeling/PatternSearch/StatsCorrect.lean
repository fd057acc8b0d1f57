import PatternSearch.StatsRun
import PatternSearch.StatTable

/-!
Correctness of the pattern statistics. While the counts fit in int no occurrence is cut
off, and every rank returns the head of the one table of all patches; ranks, distribution
and order of the patches have dropped out. On too many ranks the routing overflows an int.
-/

namespace PatternSearch.StatsCorrect

open Machine Collectives Bucketing SortedLists TopK Csr Kernels HashMapping PatternStats
  StatsStages StatsRouting StatsRun StatTable

variable {P : ℕ} {α : Type}

section Input

/-- A finite point as the caller passes it. -/
def rawPoint (p : Point α) : Point (Option α) := ⟨some p.x, some p.y⟩

/-- The coordinates of the patches, patch by patch. -/
def coordsOf (located : Fin P → LocatedPatches α) (r : Fin P) : List (List (Point (Option α))) :=
  (located r).map fun patch => patch.map fun x => rawPoint x.2

theorem checkPatch_eq_ok (p : ℕ) (patch : List (Hash × Point α)) :
    checkPatch p (patch.map Prod.fst) (patch.map fun x => rawPoint x.2) = .ok patch := by
  have hfinite : ∀ patch : List (Hash × Point α),
      (patch.map fun x => rawPoint x.2).mapM finitePoint = some (patch.map Prod.snd) := by
    intro patch
    induction patch with
    | nil => rfl
    | cons x patch ih =>
      rw [List.map_cons, List.mapM_cons, ih]
      rfl
  unfold checkPatch
  rw [if_neg (by simp), hfinite]
  simp only [List.zip_map']
  exact congrArg Except.ok (List.map_id _)

/-- Coordinates of the same shape as the patches pass the checks. -/
theorem checkInput_eq_ok (located : Fin P → LocatedPatches α) (r : Fin P) :
    checkInput (hashesOf located r) (coordsOf located r) = .ok (located r) := by
  have hpatch : ∀ p ∈ List.range (hashesOf located r).length,
      checkPatch p ((hashesOf located r).getD p []) ((coordsOf located r).getD p []) =
        .ok ((located r).getD p []) := by
    intro p hp
    have hlt : p < (located r).length := by simpa [hashesOf] using hp
    have hhashes : (hashesOf located r).getD p [] = ((located r).getD p []).map Prod.fst := by
      simp [hashesOf, hlt]
    have hcoords : (coordsOf located r).getD p [] =
        ((located r).getD p []).map fun x => rawPoint x.2 := by
      simp [coordsOf, hlt]
    rw [hhashes, hcoords]
    exact checkPatch_eq_ok p _
  have hlen : (coordsOf located r).length = (hashesOf located r).length := by
    rw [coordsOf, hashesOf, List.length_map, List.length_map]
  unfold checkInput
  rw [if_neg (not_not.mpr hlen), mapM_eq_ok _ hpatch, hashesOf, List.length_map, map_getD_range]

end Input

section Counts

variable {located : Fin P → LocatedPatches α}

/-- The counts of a run: the occurrences of every rank, the hashes it sends and receives and
the coordinates it sends to one owner can be counted in int, and the patches in 64 bits. -/
structure StatCountsFit (located : Fin P → LocatedPatches α) : Prop where
  occurrences : ∀ r, (occurrences located r).length ≤ intMax
  hashes : CountsFit (hashesOf located)
  doubled : DoubledFit (hashesOf located)
  patches : (gather located).length < 2 ^ 64

theorem flatten_gather (located : Fin P → LocatedPatches α) :
    (gather located).flatten = gather fun r => occurrences located r := by
  rw [gather, List.flatten_flatten, List.map_ofFn]
  rfl

/-- Counts that fit, on ranks few enough to look the hash counts up at an int index. -/
structure StatAdmissible (located : Fin P → LocatedPatches α) : Prop extends
    StatCountsFit located where
  table : TableFits P

/-- In particular everything fits when twice the occurrences of all ranks can be counted. -/
theorem statCountsFit_of_total_le (hpatches : (gather located).length < 2 ^ 64)
    (htotal : 2 * (gather located).flatten.length ≤ intMax) : StatCountsFit located := by
  have hhashes : (gather (hashesOf located)).flatten.length = (gather located).flatten.length := by
    rw [gather_hashesOf, ← List.map_flatten, List.length_map]
  have hrank : ∀ r, (occurrences located r).length ≤ (gather located).flatten.length := by
    intro r
    rw [flatten_gather, length_gather, displacement_last]
    exact Finset.single_le_sum (f := fun r => (occurrences located r).length)
      (fun s _ => Nat.zero_le _) (Finset.mem_univ r)
  refine ⟨fun r => ?_, countsFit_of_total_le (by omega), fun s r => ?_, hpatches⟩
  · have hle := hrank r
    omega
  · have hle := hrank s
    have hrouted : (routed (hashesOf located) s r).length ≤
      (localUniq (hashesOf located s)).length := length_routed_le s r
    have hlocal := length_localUniq_le (hashesOf located s)
    rw [flatten_hashesOf, List.length_map] at hlocal
    omega

theorem statAdmissible_of_total_le (htable : TableFits P)
    (hpatches : (gather located).length < 2 ^ 64)
    (htotal : 2 * (gather located).flatten.length ≤ intMax) : StatAdmissible located :=
  { statCountsFit_of_total_le hpatches htotal with table := htable }

theorem candidateCount_le (rawPatches : Fin P → List (List Hash)) (k : ℕ) :
    candidateCount rawPatches k ≤ P * k := by
  have hsum := Finset.sum_le_card_nsmul Finset.univ
    (fun r => min k (shard rawPatches r).length) k fun r _ => Nat.min_le_left _ _
  simpa [candidateCount] using hsum

end Counts

variable [LinearOrder α] [Zero α] {located : Fin P → LocatedPatches α}

/-- What a run without cut occurrences reports is the table of all patches. -/
theorem smallest_reportedStat (hall : ∀ r, kept (occurrences located r) = occurrences located r)
    (k : ℕ) :
    smallest statKey k ((globalUniq (hashesOf located)).map (reportedStat located)) =
      (statTable (gather located)).take k := by
  have hhashes : globalUniq (hashesOf located) =
      sortUnique ((gather located).flatten.map Prod.fst) := by
    rw [globalUniq, gather_hashesOf, List.map_flatten]
  have hkept : keptOccurrences located = (gather located).flatten := by
    rw [flatten_gather, keptOccurrences]
    simp only [hall]
  have hstat : reportedStat located = fun h =>
      { hash := h
        count := degreeOf ((gather located).map fun patch => patch.map Prod.fst) h
        rep := locationOf (gather located).flatten h } := by
    funext h
    rw [reportedStat, gather_hashesOf, hkept]
  rw [smallest, hhashes, hstat]
  rfl

theorem patternStats_eq_run (dev : Fin P → Device) (located : Fin P → LocatedPatches α) (k : ℕ) :
    patternStats dev (hashesOf located) (coordsOf located) k = run dev located k := by
  unfold patternStats
  rw [onRanks_eq_ok (checkInput_eq_ok located), ok_bind]

theorem patternStats_eq_table (hP : 0 < P) (dev : Fin P → Device) (hfit : StatAdmissible located)
    {k : ℕ} (hfew : candidateCount (hashesOf located) k ≤ intMax / 8) :
    patternStats dev (hashesOf located) (coordsOf located) k =
      .ok fun _ => (statTable (gather located)).take k := by
  have hpatches : (gather (hashesOf located)).length < 2 ^ 64 := by
    rw [length_gather_hashesOf]
    exact hfit.patches
  rw [patternStats_eq_run, run_eq_ok hP dev (items_nonneg hfit.occurrences) hfit.hashes
    (allHashesKept hfit.occurrences) ⟨hfit.table, hfit.doubled⟩ hpatches hfew,
    smallest_reportedStat (kept_occurrences hfit.occurrences)]

/-- On more ranks than the table index allows the routing overflows an int. -/
theorem patternStats_eq_overflow (hP : 0 < P) (dev : Fin P → Device) (hfit : StatCountsFit located)
    (htable : ¬ TableFits P) (k : ℕ) :
    patternStats dev (hashesOf located) (coordsOf located) k = .error .overflow := by
  rw [patternStats_eq_run, run_eq_overflow hP dev (items_nonneg hfit.occurrences) hfit.hashes
    (allHashesKept hfit.occurrences) fun hroutes => htable hroutes.1]

/-- There is one table for all patches, and on every distribution of these patches whose counts
fit, every rank returns its first k entries, just when the ranks are few enough for the int index
of the routing. -/
theorem patternStats_correct (patches : LocatedPatches α) (k : ℕ) :
    ∃ table, IsStatTable patches table ∧
      ∀ (P : ℕ) (dev : Fin P → Device) (located : Fin P → LocatedPatches α), 0 < P →
        (gather located).Perm patches → StatCountsFit located →
        candidateCount (hashesOf located) k ≤ intMax / 8 →
        (patternStats dev (hashesOf located) (coordsOf located) k = .ok (fun _ => table.take k) ↔
          TableFits P) := by
  refine ⟨_, isStatTable_statTable patches, fun P dev located hP hperm hfit hfew => ?_⟩
  have htable := ((isStatTable_statTable (gather located)).perm hperm.symm).unique
    (isStatTable_statTable patches)
  rw [← htable]
  constructor
  · intro hrun
    by_contra hlarge
    rw [patternStats_eq_overflow hP dev hfit hlarge] at hrun
    cases hrun
  · exact fun hindex => patternStats_eq_table hP dev { hfit with table := hindex } hfew

/-- The patches of the handcrafted test on two ranks. -/
def handcrafted : Fin 2 → LocatedPatches ℕ :=
  ![[[(7, ⟨2, 2⟩), (3, ⟨5, 5⟩), (7, ⟨2, 1⟩)]], [[(3, ⟨4, 4⟩), (9, ⟨0, 9⟩)]]]

theorem patternStats_correct_handcrafted :
    patternStats (fun _ => Device.inOrder) (hashesOf handcrafted) (coordsOf handcrafted) 2 =
      .ok fun _ => [⟨3, 2, ⟨4, 4⟩⟩, ⟨7, 1, ⟨2, 1⟩⟩] := by
  obtain ⟨table, htable, hruns⟩ := patternStats_correct (gather handcrafted) 2
  have hrun := (hruns 2 (fun _ => Device.inOrder) handcrafted (by decide) (List.Perm.refl _)
    (statCountsFit_of_total_le (by decide) (by decide))
    (le_trans (candidateCount_le _ _) (by decide))).mpr (by decide)
  have heq := htable.unique (isStatTable_statTable _)
  have hvalue : statTable (gather handcrafted) =
      [⟨3, 2, ⟨4, 4⟩⟩, ⟨7, 1, ⟨2, 1⟩⟩, ⟨9, 1, ⟨0, 9⟩⟩] := by decide
  rw [hrun, heq, hvalue]
  rfl

section ManyRanks

/-- One occurrence on every rank, all of one hash. -/
def oneOccurrenceEach (P : ℕ) : Fin P → LocatedPatches ℕ := fun r => [[(7, ⟨r, 0⟩)]]

theorem statCountsFit_oneOccurrenceEach (h : P < 2 ^ 30) :
    StatCountsFit (oneOccurrenceEach P) := by
  have hpatches : (gather (oneOccurrenceEach P)).length = P := by
    rw [length_gather, displacement_last]
    simp [oneOccurrenceEach]
  have htotal : (gather (oneOccurrenceEach P)).flatten.length = P := by
    rw [length_flatten_gather]
    simp [oneOccurrenceEach]
  apply statCountsFit_of_total_le
  · rw [hpatches]
    omega
  · rw [htotal]
    unfold intMax
    omega

/-- Counts that fit, and candidates that are few enough, on 46341 ranks. -/
theorem not_patternStats_correct_many_ranks :
    StatCountsFit (oneOccurrenceEach 46341) ∧
      candidateCount (hashesOf (oneOccurrenceEach 46341)) 1 ≤ intMax / 8 ∧
      ∀ dev result, patternStats dev (hashesOf (oneOccurrenceEach 46341))
        (coordsOf (oneOccurrenceEach 46341)) 1 ≠ .ok result := by
  have hfit := statCountsFit_oneOccurrenceEach (show 46341 < 2 ^ 30 by decide)
  refine ⟨hfit, le_trans (candidateCount_le _ _) (by decide), fun dev result hrun => ?_⟩
  rw [patternStats_eq_overflow (by decide) dev hfit (by decide)] at hrun
  cases hrun

end ManyRanks

end PatternSearch.StatsCorrect
