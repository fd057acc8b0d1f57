import PatternSearch.StatsRouting

/-!
Routing to the owners whatever the sizes of the shards. The search for the owner skips empty
shards in the right direction: its result is the one rank whose shard holds the id. So the
ascending keys of a rank are cut into one run for each owner, and what an owner reduces fills
its shard slot by slot.
-/

namespace PatternSearch.OwnerRouting

open Machine Collectives Bucketing SortedLists KeyRuns KeyedReduction Csr Kernels HashMapping
  IdAssignment Setup PatternStats StatsStages StatsRouting

variable {P : ℕ}

def shardSizes (ps : Fin P → PatchSet) (r : Fin P) : ℕ := (ps r).shardHashes.length

/-- Shards of any sizes one after the other, and keys that are ids, every id on some rank. -/
structure Sharded (ps : Fin P → PatchSet) : Prop where
  starts : ∀ r, (ps r).shardStart = displacement (shardSizes ps) r
  total : ∀ r, (ps r).N = displacement (shardSizes ps) P
  ascending : ∀ r, (ps r).inv.keys.Pairwise (· < ·)
  key_lt : ∀ r, ∀ id ∈ (ps r).inv.keys, id < displacement (shardSizes ps) P
  used : ∀ id < displacement (shardSizes ps) P, ∃ r, id ∈ (ps r).inv.keys

/-- The id lies between the start of shard r and the next one. -/
def InShard (starts : List ℕ) (r id : ℕ) : Prop :=
  starts.getD r 0 ≤ id ∧ id < starts.getD (r + 1) 0

instance (starts : List ℕ) (r : ℕ) : DecidablePred (InShard starts r) := fun id =>
  inferInstanceAs (Decidable (starts.getD r 0 ≤ id ∧ id < starts.getD (r + 1) 0))

section Mapped

variable {rawPatches : Fin P → List (List Hash)}

/-- The patch sets that the program builds are sharded. -/
theorem sharded_of_buildPatchSet (hP : 0 < P) {ps : Fin P → PatchSet}
    (h : buildPatchSet rawPatches = .ok ps) : Sharded ps := by
  obtain ⟨_, rfl⟩ := (buildPatchSet_eq_ok_iff hP ps).mp h
  have hsizes : shardSizes (fun r => patchSetOf (mapped rawPatches r)) =
      fun r => (shard rawPatches r).length := rfl
  have htotal : displacement (shardSizes fun r => patchSetOf (mapped rawPatches r)) P =
      (globalUniq rawPatches).length := by
    rw [hsizes, ← length_gather, gather_shard hP]
  refine ⟨fun r => rfl, fun r => ?_, fun r => ?_, fun r id hid => ?_, fun id hid => ?_⟩
  · rw [htotal]
    rfl
  · rw [keys_patchSetOf, List.pairwise_map]
    refine (sortUnique_pairwise (rawPatches r).flatten).imp_of_mem ?_
    intro a b ha hb hab
    exact (lowerBound_lt_iff globalUniq_pairwise (mem_globalUniq_of_localUniq ha)
      (mem_globalUniq_of_localUniq hb)).mpr hab
  · rw [keys_patchSetOf] at hid
    obtain ⟨a, ha, rfl⟩ := List.mem_map.mp hid
    rw [htotal]
    exact lowerBound_lt_length globalUniq_pairwise (mem_globalUniq_of_localUniq ha)
  · rw [htotal] at hid
    obtain ⟨r, patch, hpatch, hmem⟩ := mem_globalUniq.mp (List.getElem_mem hid)
    refine ⟨r, ?_⟩
    rw [keys_patchSetOf, List.mem_map]
    exact ⟨_, mem_localUniq.mpr ⟨patch, hpatch, hmem⟩,
      lowerBound_getElem globalUniq_pairwise id hid⟩

end Mapped

section Search

variable {ps : Fin P → PatchSet}

theorem shardStarts_eq (hps : Sharded ps) (s : Fin P) :
    shardStarts ps s = List.ofFn (fun r : Fin P => displacement (shardSizes ps) r) ++
      [displacement (shardSizes ps) P] := by
  simp only [shardStarts, hps.starts, hps.total]
  rfl

theorem getD_shardStarts (hps : Sharded ps) (s : Fin P) {r : ℕ} (hr : r ≤ P) :
    (shardStarts ps s).getD r 0 = displacement (shardSizes ps) r := by
  rw [shardStarts_eq hps]
  rcases lt_or_eq_of_le hr with hlt | rfl
  · rw [List.getD_append _ _ _ _ (by simpa using hlt),
      List.getD_eq_getElem _ _ (by simpa using hlt)]
    simp
  · rw [List.getD_append_right _ _ _ _ (by simp)]
    simp

theorem inShard_iff (hps : Sharded ps) (s r : Fin P) (id : ℕ) :
    InShard (shardStarts ps s) r id ↔
      displacement (shardSizes ps) r ≤ id ∧ id < displacement (shardSizes ps) (r + 1) := by
  rw [InShard, getD_shardStarts hps s r.is_lt.le, getD_shardStarts hps s r.is_lt]

theorem ownerOf_eq_iff (hps : Sharded ps) (s r : Fin P) {id : ℕ}
    (hid : id < displacement (shardSizes ps) P) :
    ownerOf P (shardStarts ps s) id = r ↔ InShard (shardStarts ps s) r id := by
  obtain ⟨q, hlow, hhigh⟩ := exists_block (shardSizes ps) hid
  have hnext := displacement_succ (shardSizes ps) q
  have howner := ownerOf_eq (shardSizes ps) (displacement (shardSizes ps) P) q hlow (by omega)
  rw [inShard_iff hps, shardStarts_eq hps, howner]
  constructor
  · intro h
    obtain rfl := Fin.ext h
    exact ⟨hlow, by omega⟩
  · rintro ⟨hlow', hhigh'⟩
    have hnext' := displacement_succ (shardSizes ps) r
    exact congrArg Fin.val (block_unique (shardSizes ps) ⟨hlow, hhigh⟩ ⟨hlow', by omega⟩)

theorem ownerOf_lt (hps : Sharded ps) (s : Fin P) {id : ℕ}
    (hid : id < displacement (shardSizes ps) P) : ownerOf P (shardStarts ps s) id < P := by
  obtain ⟨q, hlow, hhigh⟩ := exists_block (shardSizes ps) hid
  have hnext := displacement_succ (shardSizes ps) q
  have hq := (ownerOf_eq_iff hps s q hid).mpr ((inShard_iff hps s q id).mpr ⟨hlow, by omega⟩)
  rw [hq]
  exact q.is_lt

theorem ownerOf_mono (hps : Sharded ps) (s : Fin P) (a b : ℕ) (hab : a ≤ b) :
    ownerOf P (shardStarts ps s) a ≤ ownerOf P (shardStarts ps s) b := by
  rw [shardStarts_eq hps]
  apply upperBound_mono _ hab
  rw [searchedStarts, List.pairwise_map]
  exact List.pairwise_lt_range.imp fun hij => displacement_mono _ (by omega)

/-- The keys of a rank that one owner is sent. -/
theorem bucket_keys (hps : Sharded ps) (s r : Fin P) :
    bucket (ownerOf P (shardStarts ps s)) (ps s).inv.keys r =
      (ps s).inv.keys.filter fun id => InShard (shardStarts ps s) r id := by
  apply List.filter_congr
  intro id hid
  rw [decide_eq_decide]
  exact ownerOf_eq_iff hps s r (hps.key_lt s id hid)

theorem gather_bucket_keys (hps : Sharded ps) (s : Fin P) :
    gather (fun r : Fin P => bucket (ownerOf P (shardStarts ps s)) (ps s).inv.keys r) =
      (ps s).inv.keys :=
  gather_bucket (hps.ascending s) (ownerOf_mono hps s) fun id hid =>
    ownerOf_lt hps s (hps.key_lt s id hid)

/-- The send counts cut the keys into the runs of the owners. -/
theorem segment_keys (hps : Sharded ps) (s : Fin P) {sendcounts : Fin P → ℕ}
    (h : tally (ownerOf P (shardStarts ps s)) (ps s).inv.keys = .ok sendcounts) (r : Fin P) :
    segment (ps s).inv.keys sendcounts r =
      (ps s).inv.keys.filter fun id => InShard (shardStarts ps s) r id := by
  rw [tally_eq fun id hid => ownerOf_lt hps s (hps.key_lt s id hid)] at h
  split_ifs at h
  cases h
  have hsegment := segment_gather
    (fun r : Fin P => bucket (ownerOf P (shardStarts ps s)) (ps s).inv.keys r) r
  rw [gather_bucket_keys hps s, bucket_keys hps s r] at hsegment
  exact hsegment

end Search

section Exchange

variable {α : Type} {ps : Fin P → PatchSet}

theorem alltoallv_ok {β : Type} {send : Fin P → List β} {sendcounts recvcounts : Fin P → Fin P → ℕ}
    {room : Fin P → ℕ} {out : Fin P → List β}
    (h : alltoallv send sendcounts recvcounts room = .ok out) :
    out = fun r => gather fun s => segment (send s) (sendcounts s) r := by
  unfold alltoallv at h
  split_ifs at h
  exact (Except.ok.inj h).symm

/-- An owner is sent the ids of its shard, as many times as ranks have them. -/
theorem ids_of_routeToOwners (hps : Sharded ps) {minPts : Fin P → List (Point α)}
    {arrivals : Fin P → Arrivals α} (h : routeToOwners ps minPts = .ok arrivals) (r : Fin P) :
    (arrivals r).ids =
        (gather fun s => (ps s).inv.keys.filter fun id => InShard (shardStarts ps s) r id) ∧
      (arrivals r).ids.length ≤ intMax := by
  unfold routeToOwners at h
  simp only [bind_eq_ok, onRanks_eq_ok_iff, pure_eq_ok, Except.ok.injEq] at h
  obtain ⟨sendcounts, hsend, recvcounts, hrecv, totalRecv, htotal, _, _, _, _, ids, hids, _, _, _,
    _, rfl⟩ := h
  have hsegment : ids r =
      gather fun s => (ps s).inv.keys.filter fun id => InShard (shardStarts ps s) r id := by
    simp only [alltoallv_ok hids, segment_keys hps _ (hsend _)]
  refine ⟨hsegment, ?_⟩
  have hcount : ∀ s, sendcounts s r =
      ((ps s).inv.keys.filter fun id => InShard (shardStarts ps s) r id).length := by
    intro s
    have htally := hsend s
    rw [tally_eq fun id hid => ownerOf_lt hps s (hps.key_lt s id hid)] at htally
    split_ifs at htally
    rw [← Except.ok.inj htally, bucketSize, bucket_keys hps]
  have hlookup : recvcounts = fun r s => sendcounts s r :=
    ((onRanks_recvcountsInt_eq_ok_iff _ _).mp (onRanks_eq_ok_iff.mpr hrecv)).2
  have hsum := ((totalInt_eq_ok_iff _ _).mp (htotal r)).1
  rw [hlookup, List.sum_ofFn] at hsum
  simp only [hsegment, length_gather, displacement_last, ← hcount]
  exact hsum

/-- Every id of the shard arrives, and no other. -/
theorem sortUnique_ids (hps : Sharded ps) (r : Fin P) :
    sortUnique (gather fun s =>
        (ps s).inv.keys.filter fun id => InShard (shardStarts ps s) r id) =
      (List.range (ps r).shardHashes.length).map ((ps r).shardStart + ·) := by
  have hnext := displacement_succ (shardSizes ps) r
  have hsize : shardSizes ps r = (ps r).shardHashes.length := rfl
  have hend := displacement_mono (shardSizes ps) (show (r : ℕ) + 1 ≤ P from r.is_lt)
  apply eq_of_pairwise_lt_of_mem_iff (sortUnique_pairwise _)
  · rw [List.pairwise_map]
    exact List.pairwise_lt_range.imp fun hij => Nat.add_lt_add_left hij _
  · intro id
    simp only [mem_sortUnique, mem_gather, List.mem_filter, inShard_iff hps, decide_eq_true_eq,
      List.mem_map, List.mem_range, hps.starts]
    constructor
    · rintro ⟨s, _, hlow, hhigh⟩
      exact ⟨id - displacement (shardSizes ps) r, by omega, by omega⟩
    · rintro ⟨i, hi, rfl⟩
      obtain ⟨s, hs⟩ := hps.used (displacement (shardSizes ps) r + i) (by omega)
      exact ⟨s, hs, by omega, by omega⟩

end Exchange

section Scatter

variable {α : Type} [LinearOrder α] [Zero α]

/-- The arrivals entry by entry. -/
def entriesOf (a : Arrivals α) : List (ElementId × ℕ × Point α) :=
  (List.range a.ids.length).map fun i =>
    (a.ids.getD i 0, a.degrees.getD i 0, a.points.getD i default)

omit [LinearOrder α] in
theorem ids_entriesOf (a : Arrivals α) : (entriesOf a).map Prod.fst = a.ids := by
  rw [entriesOf, List.map_map]
  exact map_getD_range a.ids 0

omit [LinearOrder α] in
theorem getD_entriesOf {β : Type} (a : Arrivals α) (f : ElementId × ℕ × Point α → β) (b : β)
    {i : ℕ} (hi : i < a.ids.length) :
    ((entriesOf a).map f).getD i b =
      f (a.ids.getD i 0, a.degrees.getD i 0, a.points.getD i default) := by
  have hlen : i < ((entriesOf a).map f).length := by simpa [entriesOf] using hi
  rw [List.getD_eq_getElem _ _ hlen]
  simp only [entriesOf, List.getElem_map, List.getElem_range]

/-- Stage D reads the arrivals at the positions of the ids only. -/
theorem arrivedRuns_entriesOf {a : Arrivals α} (hfit : a.ids.length ≤ intMax) :
    arrivedRuns a =
      arrivedRuns
        { ids := (entriesOf a).map Prod.fst
          degrees := (entriesOf a).map fun e => e.2.1
          points := (entriesOf a).map fun e => e.2.2 } := by
  set sorted := sortPairs ((List.range a.ids.length).map fun i => (a.ids.getD i 0, i))
    with hsorted
  have hplace : ∀ x ∈ sorted, x.2 < a.ids.length := by
    intro x hx
    obtain ⟨i, hi, rfl⟩ := List.mem_map.mp ((perm_sortPairs _).mem_iff.mp hx)
    exact List.mem_range.mp hi
  have hdegrees : sorted.map (fun x => (x.1, a.degrees.getD x.2 0)) =
      sorted.map fun x => (x.1, ((entriesOf a).map fun e => e.2.1).getD x.2 0) :=
    List.map_congr_left fun x hx => by rw [getD_entriesOf a _ _ (hplace x hx)]
  have hpoints : sorted.map (fun x => (x.1, a.points.getD x.2 default)) =
      sorted.map fun x => (x.1, ((entriesOf a).map fun e => e.2.2).getD x.2 default) :=
    List.map_congr_left fun x hx => by rw [getD_entriesOf a _ _ (hplace x hx)]
  unfold arrivedRuns
  simp only [ids_entriesOf]
  rw [map_mod_range hfit, zip_range a.ids 0, cubItems_eq_ok (by simpa using hfit), ok_bind,
    ok_bind, ← hsorted, hdegrees, hpoints]

/-- A thread of the scatter writes the slot of its run and no other. -/
def WritesOwnSlot (start : ℕ) (run : ElementId × ℕ × Point α) : Prop :=
  ∀ out : ShardArrays α, run.1 - start < out.counts.length → run.1 - start < out.points.length →
    ∃ written, scatterRun start out run = .ok written ∧
      ∀ slot, written.counts[slot]? =
          (if slot = run.1 - start then some run.2.1 else out.counts[slot]?) ∧
        written.points[slot]? =
          if slot = run.1 - start then some run.2.2 else out.points[slot]?

omit [LinearOrder α] [Zero α] in
theorem writesOwnSlot {start : ℕ} {run : ElementId × ℕ × Point α} (h : start ≤ run.1) :
    WritesOwnSlot start run := by
  intro out hcounts hpoints
  refine ⟨_, if_pos ⟨h, hcounts, hpoints⟩, fun slot => ?_⟩
  simp [List.getElem?_set, hcounts, hpoints, eq_comm]

/-- Every slot of a shard is written by the thread of one run, and no run has a slot outside. -/
structure FillsOnce (start n : ℕ) (runs : List (ElementId × ℕ × Point α)) : Prop where
  slots : runs.map (fun run => run.1 - start) = List.range n
  writes : ∀ run ∈ runs, WritesOwnSlot start run

/-- What an owner reduces fills its shard. -/
theorem reduceArrivals_fills {ps : Fin P → PatchSet} (hps : Sharded ps)
    {minPts : Fin P → List (Point α)} {arrivals : Fin P → Arrivals α}
    (h : routeToOwners ps minPts = .ok arrivals) (d : Device) (r : Fin P) :
    ∃ runs, arrivedRuns (arrivals r) = .ok runs ∧
      FillsOnce (ps r).shardStart (ps r).shardHashes.length runs ∧
      reduceArrivals d (ps r).shardHashes.length (ps r).shardStart (arrivals r) =
        d.launch 0 0 runs (scatterRun (ps r).shardStart)
          (zeroedArrays (ps r).shardHashes.length) ∧
      reduceArrivals d (ps r).shardHashes.length (ps r).shardStart (arrivals r) =
        .ok { counts := runs.map fun run => run.2.1, points := runs.map fun run => run.2.2 } := by
  obtain ⟨hids, hfit⟩ := ids_of_routeToOwners hps h r
  have hslots : sortUnique ((entriesOf (arrivals r)).map Prod.fst) =
      (List.range (ps r).shardHashes.length).map ((ps r).shardStart + ·) := by
    rw [ids_entriesOf, hids, sortUnique_ids hps]
  have hentries : (entriesOf (arrivals r)).length ≤ intMax := by
    rw [entriesOf, List.length_map, List.length_range]
    exact hfit
  have hruns := (arrivedRuns_entriesOf hfit).trans (arrivedRuns_eq_ok _ hentries hslots)
  have hlaunch := reduceArrivals_eq_launch d (ps r).shardHashes.length (ps r).shardStart hruns
  refine ⟨_, hruns, ⟨?_, ?_⟩, hlaunch, hlaunch.trans ?_⟩
  · rw [List.map_map]
    conv_rhs => rw [← List.map_id (List.range (ps r).shardHashes.length)]
    exact List.map_congr_left fun i _ => Nat.add_sub_cancel_left ..
  · intro run hrun
    obtain ⟨i, _, rfl⟩ := List.mem_map.mp hrun
    exact writesOwnSlot (Nat.le_add_right _ _)
  · rw [launch_scatterRun, List.map_map, List.map_map]
    rfl

/-- For shards of any sizes the search finds the one rank whose shard holds an id, the send
counts cut the keys into the runs of their owners, and an owner's scatter writes every slot of
its shard once. -/
theorem owner_routing (ps : Fin P → PatchSet) (hps : Sharded ps) :
    (∀ s id, id < displacement (shardSizes ps) P →
      ownerOf P (shardStarts ps s) id < P ∧
      ∀ r : Fin P, InShard (shardStarts ps s) r id ↔ r = ownerOf P (shardStarts ps s) id) ∧
    (∀ s (sendcounts : Fin P → ℕ),
      tally (ownerOf P (shardStarts ps s)) (ps s).inv.keys = .ok sendcounts →
      gather (fun r => segment (ps s).inv.keys sendcounts r) = (ps s).inv.keys ∧
      ∀ r, ∀ id ∈ segment (ps s).inv.keys sendcounts r, InShard (shardStarts ps s) r id) ∧
    ∀ (minPts : Fin P → List (Point α)) arrivals, routeToOwners ps minPts = .ok arrivals →
      ∀ (d : Device) r, ∃ runs, arrivedRuns (arrivals r) = .ok runs ∧
        FillsOnce (ps r).shardStart (ps r).shardHashes.length runs ∧
        reduceArrivals d (ps r).shardHashes.length (ps r).shardStart (arrivals r) =
          d.launch 0 0 runs (scatterRun (ps r).shardStart)
            (zeroedArrays (ps r).shardHashes.length) ∧
        reduceArrivals d (ps r).shardHashes.length (ps r).shardStart (arrivals r) =
          .ok { counts := runs.map fun run => run.2.1
                points := runs.map fun run => run.2.2 } := by
  refine ⟨fun s id hid => ⟨ownerOf_lt hps s hid, fun r => ?_⟩, fun s sendcounts hsend => ⟨?_, ?_⟩,
    fun minPts arrivals h d r => reduceArrivals_fills hps h d r⟩
  · exact (ownerOf_eq_iff hps s r hid).symm.trans eq_comm
  · simp only [segment_keys hps s hsend, ← bucket_keys hps]
    exact gather_bucket_keys hps s
  · intro r id hid
    rw [segment_keys hps s hsend] at hid
    exact of_decide_eq_true (List.mem_filter.mp hid).2

/-- Three ranks and one hash, known to two of them: two of the shards are empty, and the owner
scatters the one run of both arrivals. -/
theorem owner_routing_empty_shards :
    ∃ (ps : Fin 3 → PatchSet) (arrivals : Fin 3 → Arrivals ℕ),
      buildPatchSet ![[[5]], [], [[5]]] = .ok ps ∧
      InShard (shardStarts ps 0) (ownerOf 3 (shardStarts ps 0) 0) 0 ∧
      routeToOwners ps (fun r => (localUniq (![[[5]], [], [[5]]] r)).map
        fun _ => ⟨9 - (r : ℕ), r⟩) = .ok arrivals ∧
      ∀ r, ∃ runs, arrivedRuns (arrivals r) = .ok runs ∧
        FillsOnce (ps r).shardStart (ps r).shardHashes.length runs ∧
        reduceArrivals Device.inOrder (ps r).shardHashes.length (ps r).shardStart (arrivals r) =
          .ok { counts := runs.map fun run => run.2.1
                points := runs.map fun run => run.2.2 } := by
  have hall : ∀ (ps : Fin 3 → PatchSet) minPts (arrivals : Fin 3 → Arrivals ℕ), Sharded ps →
      0 < displacement (shardSizes ps) 3 → routeToOwners ps minPts = .ok arrivals →
      InShard (shardStarts ps 0) (ownerOf 3 (shardStarts ps 0) 0) 0 ∧
      ∀ r, ∃ runs, arrivedRuns (arrivals r) = .ok runs ∧
        FillsOnce (ps r).shardStart (ps r).shardHashes.length runs ∧
        reduceArrivals Device.inOrder (ps r).shardHashes.length (ps r).shardStart (arrivals r) =
          .ok { counts := runs.map fun run => run.2.1
                points := runs.map fun run => run.2.2 } := by
    intro ps minPts arrivals hps hid hroute
    obtain ⟨hsearch, -, hscatter⟩ := owner_routing (α := ℕ) ps hps
    obtain ⟨hlt, hshard⟩ := hsearch 0 0 hid
    refine ⟨(hshard ⟨_, hlt⟩).mpr rfl, fun r => ?_⟩
    obtain ⟨runs, hruns, hfills, -, hout⟩ := hscatter minPts arrivals hroute Device.inOrder r
    exact ⟨runs, hruns, hfills, hout⟩
  have hfit : CountsFit ![[[5]], [], [[5]]] := countsFit_of_total_le (by decide)
  have hbuild := (buildPatchSet_eq_ok_iff (P := 3) (by decide) _).mpr ⟨hfit, rfl⟩
  have hdouble : DoubledFit ![[[5]], [], [[5]]] := fun s r =>
    le_trans (Nat.mul_le_mul_left 2 (length_routed_le s r)) (by decide +kernel +revert)
  have hroute := (routeToOwners_eq (by decide) hfit fun (r : Fin 3) _ =>
    (⟨9 - (r : ℕ), r⟩ : Point ℕ)).trans (if_pos ⟨by decide, hdouble⟩)
  obtain ⟨hsearch, hscatter⟩ := hall _ _ _ (sharded_of_buildPatchSet (by decide) hbuild)
    (by decide +kernel) hroute
  exact ⟨_, _, hbuild, hsearch, hroute, hscatter⟩

end Scatter

end PatternSearch.OwnerRouting
