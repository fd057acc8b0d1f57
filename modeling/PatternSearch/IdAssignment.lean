import PatternSearch.HashMapping

/-!
The result of the mapping. The exchange returns exactly when its counts fit in int, and the
ids that come back are the positions of the hashes in the ascending list of all hashes. The
splitters, the number of ranks and the split of the patches have dropped out.
-/

namespace PatternSearch.IdAssignment

open Machine Collectives Bucketing SortedLists Csr HashMapping

variable {P : ℕ}

section Dictionary

theorem lookup_foldl_emplace (entries map : List (Hash × ElementId)) (h : Hash) :
    (entries.foldl emplace map).lookup h = (map.lookup h).or (entries.lookup h) := by
  induction entries generalizing map with
  | nil => simp
  | cons entry entries ih =>
    obtain ⟨key, id⟩ := entry
    rw [List.foldl_cons, ih]
    unfold emplace
    by_cases hkey : key = h
    · subst hkey
      cases hmap : map.lookup key with
      | none => simp
      | some _ => simp [hmap]
    · have hne : (h == key) = false := by simpa using Ne.symm hkey
      have hskip (l : List (Hash × ElementId)) : ((key, id) :: l).lookup h = l.lookup h := by
        rw [List.lookup_cons, hne]
      rw [hskip]
      split_ifs
      · rfl
      · rw [hskip]

/-- Hashes paired positionally with their ids are all found. -/
theorem idOf_emplaced (sent : List Hash) (id : Hash → ElementId) {h : Hash} (hh : h ∈ sent) :
    idOf ((sent.zip (sent.map id)).foldl emplace []) h = .ok (id h) := by
  have hlookup : (sent.zip (sent.map id)).lookup h = some (id h) := by
    induction sent with
    | nil => simp at hh
    | cons a sent ih =>
      rw [List.map_cons, List.zip_cons_cons]
      by_cases ha : h = a
      · subst a
        simp
      · have hne : (h == a) = false := by simpa using ha
        rw [List.lookup_cons, hne]
        exact ih ((List.mem_cons.mp hh).resolve_left ha)
  rw [idOf, lookup_foldl_emplace, hlookup]
  rfl

end Dictionary

section Result

variable {rawPatches : Fin P → List (List Hash)}

/-- The mapping as a function of the universe: ids are positions in it. -/
def mapped (rawPatches : Fin P → List (List Hash)) (r : Fin P) : IdMappedPatches where
  idPatches := (rawPatches r).map fun patch =>
    sortUnique (patch.map (lowerBound (globalUniq rawPatches)))
  N := (globalUniq rawPatches).length
  shardHashes := shard rawPatches r
  shardStart := displacement (fun s => (shard rawPatches s).length) r

/-- The exchange when all counts are exact. -/
def exactExchange (rawPatches : Fin P → List (List Hash)) (r : Fin P) : HashExchange P where
  sent := exactPlan P (owner rawPatches) (localUniq (rawPatches r))
  recvcounts s := (routed rawPatches s r).length
  totalRecv := ∑ s, (routed rawPatches s r).length
  recvbuf := gather fun s => routed rawPatches s r

/-- The forward exchange returns exactly when the counts fit, and then with the true ones. -/
theorem exchangeHashes_eq_ok_iff (hP : 0 < P) (ex : Fin P → HashExchange P) :
    exchangeHashes rawPatches = .ok ex ↔ CountsFit rawPatches ∧ ex = exactExchange rawPatches := by
  have hsent (r : Fin P) (p : Plan Hash P) :
      plan (targetRankForHash (splitters rawPatches)) (localUniq (rawPatches r)) = .ok p ↔
        (localUniq (rawPatches r)).length ≤ intMax ∧
          p = exactPlan P (owner rawPatches) (localUniq (rawPatches r)) :=
    plan_eq_ok_iff (fun h _ => owner_lt hP h) hP p
  have hship (totalRecv : Fin P → ℕ)
      (htotal : totalRecv = fun r => ∑ s, (routed rawPatches s r).length) :
      alltoallv (fun r => (exactPlan P (owner rawPatches) (localUniq (rawPatches r))).buffer)
          (fun r => (exactPlan P (owner rawPatches) (localUniq (rawPatches r))).counts)
          (fun r s => (exactPlan P (owner rawPatches) (localUniq (rawPatches s))).counts r)
          totalRecv =
        .ok fun r => gather fun s => routed rawPatches s r := by
    apply alltoallv_eq_ok (routed rawPatches)
    · intro s r
      rfl
    · intro r s
      rfl
    · intro r
      rw [displacement_last, htotal]
      exact le_rfl
  unfold exchangeHashes
  rw [computeSplitters_eq hP, ok_bind]
  simp only [bind_eq_ok, onRanks_eq_ok_iff, hsent, pure_eq_ok, Except.ok.injEq, allgather,
    totalInt_eq_ok_iff, List.sum_ofFn]
  constructor
  · intro h
    obtain ⟨sent, hplan, totalRecv, htotal, recvbuf, hrecv, rfl⟩ := h
    obtain rfl : sent = fun r => exactPlan P (owner rawPatches) (localUniq (rawPatches r)) :=
      funext fun r => (hplan r).2
    obtain rfl : totalRecv = fun r => ∑ s, (routed rawPatches s r).length :=
      funext fun r => (htotal r).2
    rw [hship _ rfl] at hrecv
    obtain rfl := Except.ok.inj hrecv
    exact ⟨⟨fun r => (hplan r).1, fun r => (htotal r).1⟩, rfl⟩
  · intro h
    obtain ⟨hfit, rfl⟩ := h
    exact ⟨_, fun r => ⟨hfit.sent r, rfl⟩, _, fun r => ⟨hfit.received r, rfl⟩, _, hship _ rfl, rfl⟩

theorem noThrow_exchangeHashes (hP : 0 < P) : NoThrow (exchangeHashes rawPatches) := by
  unfold exchangeHashes
  rw [computeSplitters_eq hP, ok_bind]
  exact (NoThrow.onRanks fun r => noThrow_plan _ _).bind fun sent =>
    (NoThrow.onRanks fun r => NoThrow.totalInt _).bind fun totalRecv =>
      (noThrow_alltoallv _ _ _ _).bind fun recvbuf => NoThrow.ok _

/-- What a rank sent is its own list, whatever the splitters. -/
theorem gather_routed (hP : 0 < P) (r : Fin P) :
    gather (routed rawPatches r) = localUniq (rawPatches r) :=
  gather_bucket (sortUnique_pairwise _) owner_mono fun h _ => owner_lt hP h

theorem translate_eq_ok (hP : 0 < P) (r : Fin P) :
    translate (gather (routed rawPatches r))
        ((gather (routed rawPatches r)).map (lowerBound (globalUniq rawPatches))) (rawPatches r) =
      .ok (mapped rawPatches r).idPatches := by
  rw [gather_routed hP]
  apply mapM_eq_ok
  intro patch hpatch
  have hfound := mapM_eq_ok patch fun h hh =>
    idOf_emplaced (localUniq (rawPatches r)) (lowerBound (globalUniq rawPatches))
      (mem_localUniq.mpr ⟨patch, hpatch, hh⟩)
  rw [hfound]
  rfl

theorem assignIds_eq_ok (hP : 0 < P) :
    assignIds rawPatches (exactExchange rawPatches) = .ok (mapped rawPatches) := by
  have hN : displacement (fun s => (shard rawPatches s).length) P =
      (globalUniq rawPatches).length := by
    rw [← length_gather, gather_shard hP]
  -- Every id in a response is the position of the hash in the universe.
  have hresponse : ∀ r, (gather fun s => routed rawPatches s r).map (fun h =>
        displacement (fun s => (shard rawPatches s).length) r + lowerBound (shard rawPatches r) h) =
      gather fun s => (routed rawPatches s r).map (lowerBound (globalUniq rawPatches)) := by
    intro r
    rw [map_gather]
    congr 1
    funext s
    apply List.map_congr_left
    intro h hh
    apply shardStart_add_lowerBound hP
    rw [← sortUnique_arrivals, mem_sortUnique, mem_gather]
    exact ⟨s, hh⟩
  have hback : alltoallv
        (fun r => gather fun s => (routed rawPatches s r).map (lowerBound (globalUniq rawPatches)))
        (fun r s => (routed rawPatches s r).length) (fun r s => (routed rawPatches r s).length)
        (fun r => (gather (routed rawPatches r)).length) =
      .ok fun r => (gather (routed rawPatches r)).map (lowerBound (globalUniq rawPatches)) := by
    simp only [map_gather]
    apply alltoallv_eq_ok fun r s =>
      (routed rawPatches s r).map (lowerBound (globalUniq rawPatches))
    · intro s r
      rw [List.length_map]
    · intro r s
      rw [List.length_map]
    · intro r
      rw [length_gather]
  unfold assignIds
  simp only [exactExchange, sortUnique_arrivals, exscan, bcastTotal_eq_ok hP, ok_bind, hresponse,
    hN]
  have hsendbuf : ∀ r, (exactPlan P (owner rawPatches) (localUniq (rawPatches r))).buffer =
      gather (routed rawPatches r) := fun _ => rfl
  have hsendcounts : ∀ r, (exactPlan P (owner rawPatches) (localUniq (rawPatches r))).counts =
      fun s => (routed rawPatches r s).length := fun _ => rfl
  simp only [hsendbuf, hsendcounts, hback, ok_bind]
  apply onRanks_eq_ok
  intro r
  rw [translate_eq_ok hP, ok_bind]
  rfl

theorem mapHashes_eq_ok_iff (hP : 0 < P) (m : Fin P → IdMappedPatches) :
    mapHashesToElementIds rawPatches = .ok m ↔ CountsFit rawPatches ∧ m = mapped rawPatches := by
  unfold mapHashesToElementIds
  simp only [bind_eq_ok, exchangeHashes_eq_ok_iff hP]
  constructor
  · intro h
    obtain ⟨_, ⟨hfit, rfl⟩, hassign⟩ := h
    rw [assignIds_eq_ok hP] at hassign
    exact ⟨hfit, (Except.ok.inj hassign).symm⟩
  · intro h
    obtain ⟨hfit, rfl⟩ := h
    exact ⟨_, ⟨hfit, rfl⟩, assignIds_eq_ok hP⟩

end Result

/-- What the mapping promises: U is the ascending list of all hashes, cut into the shards in
rank order, and every id patch is the ascending list of the positions of its hashes in U. -/
structure IsMapping (U : List Hash) (rawPatches : Fin P → List (List Hash))
    (m : Fin P → IdMappedPatches) : Prop where
  ascending : U.Pairwise (· < ·)
  mem_iff : ∀ h, h ∈ U ↔ ∃ r, ∃ patch ∈ rawPatches r, h ∈ patch
  shards : gather (fun r => (m r).shardHashes) = U
  start : ∀ r, (m r).shardStart = ∑ s with s < r, (m s).shardHashes.length
  total : ∀ r, (m r).N = U.length
  order : ∀ r, (m r).idPatches.length = (rawPatches r).length
  ids_ascending : ∀ r, ∀ ids ∈ (m r).idPatches, ids.Pairwise (· < ·)
  ids : ∀ r (p : ℕ) (hp : p < (rawPatches r).length) (hq : p < (m r).idPatches.length) (id : ℕ),
    id ∈ (m r).idPatches[p] ↔ ∃ h ∈ (rawPatches r)[p], U[id]? = some h

theorem displacement_eq_sum (counts : Fin P → ℕ) (r : Fin P) :
    displacement counts r = ∑ s with s < r, counts s := by
  have hall : ∀ k ≤ P, displacement counts k = ∑ s with s.val < k, counts s := by
    intro k hk
    induction k with
    | zero => simp [displacement_zero]
    | succ k ih =>
      have hstep := displacement_succ counts ⟨k, hk⟩
      have hinsert : (Finset.univ.filter fun s : Fin P => s.val < k + 1) =
          insert ⟨k, hk⟩ (Finset.univ.filter fun s : Fin P => s.val < k) := by
        ext s
        simp only [Finset.mem_filter, Finset.mem_univ, true_and, Finset.mem_insert, Fin.ext_iff]
        omega
      rw [hinsert, Finset.sum_insert (by simp), ← ih (by omega)]
      exact hstep.trans (Nat.add_comm _ _)
  exact hall r r.isLt.le

theorem isMapping_mapped (hP : 0 < P) (rawPatches : Fin P → List (List Hash)) :
    IsMapping (globalUniq rawPatches) rawPatches (mapped rawPatches) where
  ascending := globalUniq_pairwise
  mem_iff _ := mem_globalUniq
  shards := gather_shard hP
  start r := displacement_eq_sum _ r
  total _ := rfl
  order r := List.length_map ..
  ids_ascending r ids hids := by
    obtain ⟨patch, _, rfl⟩ := List.mem_map.mp hids
    exact sortUnique_pairwise _
  ids r p hp hq id := by
    have hmem : ∀ h ∈ (rawPatches r)[p], h ∈ globalUniq rawPatches := fun h hh =>
      mem_globalUniq.mpr ⟨r, (rawPatches r)[p], List.getElem_mem hp, hh⟩
    have hget : (mapped rawPatches r).idPatches[p] =
        sortUnique ((rawPatches r)[p].map (lowerBound (globalUniq rawPatches))) :=
      List.getElem_map ..
    rw [hget, mem_sortUnique, List.mem_map]
    constructor
    · intro h
      obtain ⟨a, ha, rfl⟩ := h
      exact ⟨a, ha, getElem?_lowerBound globalUniq_pairwise (hmem a ha)⟩
    · intro h
      obtain ⟨a, ha, hid⟩ := h
      obtain ⟨hlt, heq⟩ := List.getElem?_eq_some_iff.mp hid
      refine ⟨a, ha, ?_⟩
      rw [← heq]
      exact lowerBound_getElem globalUniq_pairwise id hlt

/-- The universe depends on the patches alone, not on the ranks they lie on. -/
theorem globalUniq_congr {Q : ℕ} {rawPatches : Fin P → List (List Hash)}
    {rawPatches' : Fin Q → List (List Hash)}
    (h : (gather rawPatches').Perm (gather rawPatches)) :
    globalUniq rawPatches' = globalUniq rawPatches :=
  sortUnique_congr fun _ => h.flatten.mem_iff

/-- The mapping is correct on every distribution of the patches, and with the same list U
for all of them. -/
theorem mapHashesToElementIds_correct (hP : 0 < P) (rawPatches : Fin P → List (List Hash))
    (hfit : CountsFit rawPatches) :
    ∃ m, mapHashesToElementIds rawPatches = .ok m ∧
      IsMapping (globalUniq rawPatches) rawPatches m ∧
      ∀ (Q : ℕ) (rawPatches' : Fin Q → List (List Hash)), 0 < Q → CountsFit rawPatches' →
        (gather rawPatches').Perm (gather rawPatches) →
        ∃ m', mapHashesToElementIds rawPatches' = .ok m' ∧
          IsMapping (globalUniq rawPatches) rawPatches' m' := by
  refine ⟨_, (mapHashes_eq_ok_iff hP _).mpr ⟨hfit, rfl⟩, isMapping_mapped hP rawPatches, ?_⟩
  intro Q rawPatches' hQ hfit' hperm
  refine ⟨_, (mapHashes_eq_ok_iff hQ _).mpr ⟨hfit', rfl⟩, ?_⟩
  rw [← globalUniq_congr hperm]
  exact isMapping_mapped hQ rawPatches'

/-- Three ranks, one of them without patches. -/
theorem mapHashesToElementIds_correct_three_ranks :
    ∃ m, mapHashesToElementIds ![[[9, 2], [2, 2, 5]], [], [[], [5, 0]]] = .ok m ∧
      IsMapping [0, 2, 5, 9] ![[[9, 2], [2, 2, 5]], [], [[], [5, 0]]] m := by
  obtain ⟨m, hrun, hmapping, _⟩ := mapHashesToElementIds_correct (P := 3) (by decide)
    ![[[9, 2], [2, 2, 5]], [], [[], [5, 0]]] (countsFit_of_total_le (by decide))
  refine ⟨m, hrun, ?_⟩
  have huniq : globalUniq ![[[9, 2], [2, 2, 5]], [], [[], [5, 0]]] = [0, 2, 5, 9] := by decide
  exact huniq ▸ hmapping

end PatternSearch.IdAssignment
