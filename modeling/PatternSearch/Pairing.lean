import PatternSearch.Truncation

/-!
The two local reductions pair up by position. One pipeline sorts the raw hashes of a rank with
their locations, the other one the ids that the mapping assigned and their patches; the arrays
of both are joined by index alone. The i-th entries of all of them belong to the i-th smallest
hash of the rank, so the check of the two lengths never fails and an owner receives every id
with its own degree and location.
-/

namespace PatternSearch.Pairing

open Machine Collectives Bucketing SortedLists KeyedReduction Csr Kernels HashMapping IdAssignment
  Setup PatternStats StatsStages StatsRouting StatsRun

variable {P : ℕ} {α : Type}

section IthSmallest

variable {κ : Type} [LinearOrder κ]

/-- As many as i different elements of the list are smaller. -/
def IsIthSmallest (l : List κ) (i : ℕ) (a : κ) : Prop :=
  a ∈ l ∧ (l.toFinset.filter (· < a)).card = i

theorem toFinset_take {l : List κ} (hl : l.Pairwise (· < ·)) {i : ℕ} (hi : i < l.length) :
    l.toFinset.filter (· < l[i]) = (l.take i).toFinset := by
  ext a
  rw [Finset.mem_filter, List.mem_toFinset, List.mem_toFinset, List.mem_take_iff_getElem]
  constructor
  · rintro ⟨ha, hlt⟩
    obtain ⟨j, hj, rfl⟩ := List.mem_iff_getElem.mp ha
    rcases lt_or_ge j i with hji | hij
    · exact ⟨j, by omega, rfl⟩
    · rcases eq_or_lt_of_le hij with rfl | hij
      · exact absurd hlt (lt_irrefl _)
      · exact absurd hlt (lt_asymm (List.pairwise_iff_getElem.mp hl i j hi hj hij))
  · rintro ⟨j, hj, rfl⟩
    exact ⟨List.getElem_mem _, List.pairwise_iff_getElem.mp hl j i (by omega) hi (by omega)⟩

theorem isIthSmallest_sortUnique {l : List κ} {i : ℕ} (hi : i < (sortUnique l).length) :
    IsIthSmallest l i (sortUnique l)[i] := by
  have hsame : l.toFinset = (sortUnique l).toFinset := by
    ext a
    rw [List.mem_toFinset, List.mem_toFinset, mem_sortUnique]
  refine ⟨(mem_sortUnique _ _).mp (List.getElem_mem hi), ?_⟩
  rw [hsame, toFinset_take (sortUnique_pairwise l) hi,
    List.toFinset_card_of_nodup ((sortUnique_nodup l).sublist (List.take_sublist i _)),
    List.length_take, min_eq_left hi.le]

end IthSmallest

/-- The shards number the hash so. -/
def HasId (ps : Fin P → PatchSet) (id : ElementId) (h : Hash) : Prop :=
  ∃ r i, (ps r).shardHashes[i]? = some h ∧ (ps r).shardStart + i = id

theorem hasId_iff (hP : 0 < P) {rawPatches : Fin P → List (List Hash)} {h : Hash}
    (hh : h ∈ globalUniq rawPatches) (h' : Hash) :
    HasId (fun r => patchSetOf (mapped rawPatches r)) (idIn rawPatches h) h' ↔ h' = h := by
  constructor
  · rintro ⟨r, i, hget, hid⟩
    obtain ⟨hi, rfl⟩ := List.getElem?_eq_some_iff.mp hget
    have hmem : (shard rawPatches r)[i] ∈ globalUniq rawPatches :=
      (mem_bucket.mp (List.getElem_mem hi)).1
    exact lowerBound_injOn globalUniq_pairwise hmem hh ((shardStart_add hP r hi).symm.trans hid)
  · rintro rfl
    let r : Fin P := ⟨owner rawPatches h', owner_lt hP h'⟩
    have hshard : h' ∈ shard rawPatches r := mem_bucket.mpr ⟨hh, rfl⟩
    obtain ⟨i, hi, heq⟩ := List.mem_iff_getElem.mp hshard
    refine ⟨r, i, List.getElem?_eq_some_iff.mpr ⟨hi, heq⟩, ?_⟩
    exact (shardStart_add hP r hi).trans (congrArg (idIn rawPatches) heq)

/-- What the owners are sent: position by position an id, a degree and a location. -/
def columns (ps : PatchSet) (minPts : List (Point α)) : List (ElementId × ℕ × Point α) :=
  ps.inv.keys.zip ((degrees ps.inv).zip minPts)

/-- Every rank receives whole entries, those whose ids it owns, in the order of the senders. -/
def Aligned (ps : Fin P → PatchSet) (minPts : Fin P → List (Point α))
    (arrivals : Fin P → Arrivals α) : Prop :=
  ∀ r : Fin P, ∃ entries : List (ElementId × ℕ × Point α),
    entries = (gather fun s => (columns (ps s) (minPts s)).filter fun e =>
      ownerOf P (shardStarts ps s) e.1 = r) ∧
    arrivals r = { ids := entries.map Prod.fst
                   degrees := entries.map fun e => e.2.1
                   points := entries.map fun e => e.2.2 }

section Locations

variable [LinearOrder α]

/-- The least location of a hash, by x and then by y. -/
def IsLeastLocation (occurrences : List (Hash × Point α)) (h : Hash) (p : Point α) : Prop :=
  (h, p) ∈ occurrences ∧ ∀ q, (h, q) ∈ occurrences → p.x < q.x ∨ p.x = q.x ∧ p.y ≤ q.y

variable [Zero α]

theorem isLeastLocation_locationOf {occurrences : List (Hash × Point α)} {h : Hash}
    (hh : h ∈ occurrences.map Prod.fst) :
    IsLeastLocation occurrences h (locationOf occurrences h) := by
  obtain ⟨hmem, hleast⟩ := reduceRun_min_isLeast (valuesOf_ne_nil.mpr hh)
  refine ⟨mem_valuesOf.mp hmem, ?_⟩
  intro q hq
  exact (point_le_iff _ _).mp (hleast (mem_valuesOf.mpr hq))

/-- The reduction of a rank and the inverted index of its patch set speak of the same hashes at
the same positions. -/
structure Paired (located : LocatedPatches α) (ps : Fin P → PatchSet) (r : Fin P)
    (reduced : List (Hash × Point α)) : Prop where
  length_eq : reduced.length = (ps r).inv.keys.length
  check : checkRuns reduced.length (ps r).inv.keys.length = .ok ()
  entry : ∀ i (hi : i < (ps r).inv.keys.length), ∃ h p, reduced[i]? = some (h, p) ∧
    IsIthSmallest (located.flatten.map Prod.fst) i h ∧
    (∀ h', HasId ps (ps r).inv.keys[i] h' ↔ h' = h) ∧
    IsLeastLocation located.flatten h p ∧
    (degrees (ps r).inv)[i]? = some (located.countP fun patch => h ∈ patch.map Prod.fst)

variable {located : Fin P → LocatedPatches α}

theorem paired (hP : 0 < P) (r : Fin P) :
    Paired (located r) (fun s => patchSetOf (mapped (hashesOf located) s)) r
      (representatives (occurrences located r)) := by
  have hhashes : localUniq (hashesOf located r) =
      sortUnique ((occurrences located r).map Prod.fst) := by
    rw [localUniq, flatten_hashesOf]
  have hkeys := (keys_patchSetOf r).trans (congrArg (List.map (idIn (hashesOf located))) hhashes)
  have hlen : (representatives (occurrences located r)).length =
      (patchSetOf (mapped (hashesOf located) r)).inv.keys.length := by
    rw [hkeys, representatives, List.length_map, List.length_map]
  refine ⟨hlen, if_neg (not_not.mpr hlen), ?_⟩
  · intro i hi
    have hlt : i < (sortUnique ((occurrences located r).map Prod.fst)).length := by
      rw [hkeys, List.length_map] at hi
      exact hi
    have hmem := (mem_sortUnique _ _).mp (List.getElem_mem hlt)
    have hlocal : (sortUnique ((occurrences located r).map Prod.fst))[i] ∈
        localUniq (hashesOf located r) := by
      rw [hhashes]
      exact List.getElem_mem hlt
    refine ⟨_, locationOf (occurrences located r) _, ?_, isIthSmallest_sortUnique hlt, ?_,
      isLeastLocation_locationOf hmem, ?_⟩
    · rw [representatives, List.getElem?_map, List.getElem?_eq_getElem hlt]
      rfl
    · have hid : (patchSetOf (mapped (hashesOf located) r)).inv.keys[i] =
          idIn (hashesOf located) (sortUnique ((occurrences located r).map Prod.fst))[i] := by
        simp only [hkeys, List.getElem_map]
      rw [hid]
      exact hasId_iff hP (mem_globalUniq_of_localUniq hlocal)
    · rw [degrees_patchSetOf, hhashes, List.getElem?_map, List.getElem?_eq_getElem hlt,
        Option.map_some, degreeOf, hashesOf, List.countP_map]
      rfl

theorem columns_patchSetOf (s : Fin P) :
    columns (patchSetOf (mapped (hashesOf located) s))
        ((localUniq (hashesOf located s)).map (locationOf (occurrences located s))) =
      (localUniq (hashesOf located s)).map fun h =>
        (idIn (hashesOf located) h, degreeOf (hashesOf located s) h,
          locationOf (occurrences located s) h) := by
  rw [columns, keys_patchSetOf, degrees_patchSetOf, List.zip_map', List.zip_map']

/-- The owner of an entry is the owner of its hash. -/
theorem filter_columns (hP : 0 < P) (s r : Fin P) :
    (columns (patchSetOf (mapped (hashesOf located) s))
        ((localUniq (hashesOf located s)).map (locationOf (occurrences located s)))).filter
        (fun e => ownerOf P (shardStarts (fun t => patchSetOf (mapped (hashesOf located) t)) s) e.1
          = r) =
      (routed (hashesOf located) s r).map fun h =>
        (idIn (hashesOf located) h, degreeOf (hashesOf located s) h,
          locationOf (occurrences located s) h) := by
  rw [columns_patchSetOf, List.filter_map]
  congr 1
  apply List.filter_congr
  intro h hh
  simp only [Function.comp_apply, ownerOf_shardStarts hP s (mem_globalUniq_of_localUniq hh)]

theorem aligned_of_routeToOwners (hP : 0 < P)
    (hocc : ∀ r, (occurrences located r).length ≤ intMax) (hfit : CountsFit (hashesOf located))
    {arrivals : Fin P → Arrivals α}
    (hroute : routeToOwners (fun r => patchSetOf (mapped (hashesOf located) r))
      (fun r => (representatives (occurrences located r)).map Prod.snd) = .ok arrivals) :
    Aligned (fun r => patchSetOf (mapped (hashesOf located) r))
      (fun r => (representatives (occurrences located r)).map Prod.snd) arrivals := by
  have hkept := kept_occurrences hocc
  have hlocations := locations_kept (allHashesKept hocc)
  simp only [hkept] at hlocations
  simp only [hlocations] at hroute
  rw [routeToOwners_eq hP hfit] at hroute
  split_ifs at hroute
  cases hroute
  intro r
  refine ⟨arrivedEntries located r, ?_, ?_⟩
  · simp only [hlocations, filter_columns hP, arrivedEntries, hkept]
  · rw [← arrivalsAt_eq_arrivedEntries]
    simp only [hkept]

section Unreachable

variable {β : Type}

omit [LinearOrder α] [Zero α] in
theorem noThrow_ite {c : Prop} [Decidable c] {x y : Except Fault β} (hx : NoThrow x)
    (hy : NoThrow y) : NoThrow (if c then x else y) := by
  split_ifs
  · exact hx
  · exact hy

theorem noThrow_overflow : NoThrow (.error .overflow : Except Fault β) := fun _ h => by cases h

theorem noThrow_contract : NoThrow (.error .contract : Except Fault β) := fun _ h => by cases h

theorem noThrow_outOfBounds : NoThrow (.error .outOfBounds : Except Fault β) :=
  fun _ h => by cases h

theorem noThrow_mismatch : NoThrow (.error .mismatch : Except Fault β) := fun _ h => by cases h

omit [LinearOrder α] [Zero α] in
theorem noThrow_routeToOwners (hP : 0 < P) {rawPatches : Fin P → List (List Hash)}
    (hfit : CountsFit rawPatches) (loc : Fin P → Hash → Point α) :
    NoThrow (routeToOwners (fun r => patchSetOf (mapped rawPatches r))
      fun r => (localUniq (rawPatches r)).map (loc r)) := by
  rw [routeToOwners_eq hP hfit]
  exact noThrow_ite (NoThrow.ok _) noThrow_overflow

theorem noThrow_cubItems (items : List β) : NoThrow (cubItems items) := by
  rcases lt_or_ge (toInt32 items.length) 0 with hneg | hpos
  · rw [cubItems_of_neg hneg]
    exact noThrow_contract
  · rw [cubItems_of_nonneg hpos]
    exact NoThrow.ok _

theorem noThrow_reduceArrivals (d : Device) (n start : ℕ) (a : Arrivals α) :
    NoThrow (reduceArrivals d n start a) := by
  have hscatter : ∀ (out : ShardArrays α) (run : ElementId × ℕ × Point α),
      NoThrow (scatterRun start out run) :=
    fun out run => noThrow_ite (NoThrow.ok _) noThrow_outOfBounds
  have hruns : NoThrow (arrivedRuns a) := (noThrow_cubItems _).bind fun _ => NoThrow.ok _
  exact noThrow_ite (NoThrow.ok _) (hruns.bind fun runs => NoThrow.foldlM hscatter _ _)

omit [LinearOrder α] in
theorem noThrow_localTop (k : ℕ) (shard : List Hash) (arrays : ShardArrays α) :
    NoThrow (localTop k shard arrays) :=
  noThrow_ite (NoThrow.ok _) ((noThrow_cubItems _).bind fun _ => NoThrow.ok _)

theorem noThrow_allgatherv (send : Fin P → List β) (counts : Fin P → Fin P → ℕ) :
    NoThrow (allgatherv send counts) :=
  noThrow_ite (NoThrow.ok _) noThrow_mismatch

omit [LinearOrder α] [Zero α] in
/-- The merge throws nothing but its own check. -/
theorem mergeCandidates_throws {k : ℕ} {c : Fin P → Candidates α} {e : Thrown}
    (h : mergeCandidates k c = .error (.throws e)) : ∃ msg, e = .invalidArgument msg := by
  unfold mergeCandidates at h
  rcases bind_eq_error.mp h with hcheck | ⟨_, _, hgather⟩
  · obtain ⟨r, hr⟩ := exists_error_of_onRanks hcheck
    unfold checkCandidates at hr
    split_ifs at hr
    cases hr
    exact ⟨_, rfl⟩
  · refine absurd hgather (NoThrow.bind (noThrow_allgatherv _ _) (fun _ => ?_) e)
    exact (noThrow_allgatherv _ _).bind fun _ => (noThrow_allgatherv _ _).bind fun _ =>
      (noThrow_allgatherv _ _).bind fun _ => NoThrow.ok _

/-- No runtime_error leaves a run. -/
theorem run_ne_runtimeError (hP : 0 < P) (hocc : ∀ r, (occurrences located r).length ≤ intMax)
    (dev : Fin P → Device) (k : ℕ) (msg : String) :
    run dev located k ≠ .error (.throws (.runtimeError msg)) := by
  intro hrun
  have hitems := items_nonneg hocc
  by_cases hfit : CountsFit (hashesOf located)
  · rw [run_eq_of_items hP dev k hitems hfit, checkRuns_eq_ok (allHashesKept hocc), ok_bind] at hrun
    simp only [locations_kept (allHashesKept hocc)] at hrun
    rcases bind_eq_error.mp hrun with h | ⟨arrivals, _, hrun⟩
    · exact noThrow_routeToOwners hP hfit _ _ h
    rcases bind_eq_error.mp hrun with h | ⟨arrays, _, hrun⟩
    · exact NoThrow.onRanks (fun r => noThrow_reduceArrivals _ _ _ _) _ h
    rcases bind_eq_error.mp hrun with h | ⟨candidates, _, hrun⟩
    · exact NoThrow.onRanks (fun r => noThrow_localTop _ _ _) _ h
    obtain ⟨_, h⟩ := mergeCandidates_throws hrun
    cases h
  · obtain ⟨e, he, hne⟩ := Truncation.run_of_not_countsFit dev k hP hitems hfit
    exact hne _ (Except.error.inj (he.symm.trans hrun))

end Unreachable

/-- With occurrence counts that fit in int the two reductions pair up on every rank, and the
arrays sent to the owners stay aligned. -/
theorem reductions_pair_up (hP : 0 < P) (located : Fin P → LocatedPatches α)
    (hocc : ∀ r, (located r).flatten.length ≤ intMax) :
    ∃ reduced : Fin P → List (Hash × Point α),
      (∀ r, reduceOccurrences (located r).flatten = .ok (reduced r)) ∧
      (∀ ps, buildPatchSet (fun r => (located r).map fun patch => patch.map Prod.fst) = .ok ps →
        (∀ r, Paired (located r) ps r (reduced r)) ∧
        ∀ arrivals, routeToOwners ps (fun r => (reduced r).map Prod.snd) = .ok arrivals →
          Aligned ps (fun r => (reduced r).map Prod.snd) arrivals) ∧
      ∀ dev k msg, run dev located k ≠ .error (.throws (.runtimeError msg)) := by
  have hreduced : ∀ r, reduceOccurrences (located r).flatten =
      .ok (representatives (occurrences located r)) := by
    intro r
    have hrun := reduceOccurrences_eq (located r).flatten
    rwa [if_pos (by rw [toInt32_natCast (hocc r)]; exact Int.natCast_nonneg _),
      kept_eq_self (hocc r)] at hrun
  refine ⟨fun r => representatives (occurrences located r), hreduced, ?_, ?_⟩
  · intro ps hps
    obtain ⟨hfit, rfl⟩ := (buildPatchSet_eq_ok_iff hP ps).mp hps
    exact ⟨paired hP, fun arrivals => aligned_of_routeToOwners hP hocc hfit⟩
  · exact run_ne_runtimeError hP hocc

/-- The patches of the handcrafted test, up to the arrivals at the owners. -/
theorem reductions_pair_up_handcrafted :
    ∃ ps arrivals, buildPatchSet (fun r => (StatsCorrect.handcrafted r).map fun patch =>
        patch.map Prod.fst) = .ok ps ∧
      Paired (StatsCorrect.handcrafted 0) ps 0 [(3, ⟨5, 5⟩), (7, ⟨2, 1⟩)] ∧
      routeToOwners ps ![[⟨5, 5⟩, ⟨2, 1⟩], [⟨4, 4⟩, ⟨0, 9⟩]] = .ok arrivals ∧
      Aligned ps ![[⟨5, 5⟩, ⟨2, 1⟩], [⟨4, 4⟩, ⟨0, 9⟩]] arrivals := by
  obtain ⟨reduced, hreduced, hpaired, _⟩ :=
    reductions_pair_up (P := 2) (by decide) StatsCorrect.handcrafted (by decide)
  have hfit : StatsCorrect.StatCountsFit StatsCorrect.handcrafted :=
    StatsCorrect.statCountsFit_of_total_le (by decide) (by decide)
  have hbuild := (buildPatchSet_eq_ok_iff (P := 2) (by decide) _).mpr ⟨hfit.hashes, rfl⟩
  have hrank (r : Fin 2) : reduced r =
      (![[(3, ⟨5, 5⟩), (7, ⟨2, 1⟩)], [(3, ⟨4, 4⟩), (9, ⟨0, 9⟩)]] r : List (Hash × Point ℕ)) :=
    Except.ok.inj ((hreduced r).symm.trans (by decide +kernel +revert))
  have hminPts : (fun r => (reduced r).map Prod.snd) =
      ![[⟨5, 5⟩, ⟨2, 1⟩], [⟨4, 4⟩, ⟨0, 9⟩]] := by
    funext r
    rw [hrank]
    decide +revert
  have hlocations : (![[⟨5, 5⟩, ⟨2, 1⟩], [⟨4, 4⟩, ⟨0, 9⟩]] : Fin 2 → List (Point ℕ)) =
      fun r => (localUniq (hashesOf StatsCorrect.handcrafted r)).map
        (locationOf (occurrences StatsCorrect.handcrafted r)) := by
    funext r
    decide +kernel +revert
  have hroute := (routeToOwners_eq (by decide) hfit.hashes fun r =>
    locationOf (occurrences StatsCorrect.handcrafted r)).trans
      (if_pos ⟨by decide, hfit.doubled⟩)
  rw [← hlocations] at hroute
  obtain ⟨hpair, haligned⟩ := hpaired _ hbuild
  rw [hminPts] at haligned
  refine ⟨_, _, hbuild, ?_, hroute, haligned _ hroute⟩
  have hzero := hpair 0
  rwa [hrank] at hzero

end Locations

end PatternSearch.Pairing
