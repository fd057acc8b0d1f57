import PatternSearch.PatternStats
import PatternSearch.TopK

/-!
The stages of the pattern statistics on one rank. The location functor is the minimum of the
lexicographic order and the output order is that of the count and hash, so the two
reductions and the two top lists are instances of the general ones.
-/

namespace PatternSearch.StatsStages

open Machine SortedLists KeyRuns KeyedReduction TopK Csr Kernels PatternStats

variable {α : Type}

/-- The position of an entry in the output. -/
def statKey (e : PatternStat α) : ℕᵒᵈ ×ₗ Hash := toLex (OrderDual.toDual e.count, e.hash)

theorem statKey_lt_iff (a b : PatternStat α) : statKey a < statKey b ↔ statBefore a b := by
  unfold statKey statBefore
  rw [Prod.Lex.toLex_lt_toLex, OrderDual.toDual_lt_toDual, OrderDual.toDual_inj]
  split_ifs with h
  · simp [h]
  · simp [not_not.mp h]

/-- Entries of different hashes have different positions. -/
theorem nodup_statKeys {hashes : List Hash} (hnodup : hashes.Nodup) {stat : Hash → PatternStat α}
    (hhash : ∀ h, (stat h).hash = h) : ((hashes.map stat).map statKey).Nodup := by
  rw [List.map_map]
  refine hnodup.map fun a b heq => ?_
  have hsnd := (Prod.mk.inj (toLex.injective heq)).2
  rw [hhash, hhash] at hsnd
  exact hsnd

theorem partialSort_eq_smallest (k : ℕ) (l : List (PatternStat α)) :
    partialSort k l = smallest statKey k l := by
  have hle : (fun a b : PatternStat α => ¬ statBefore b a) = fun a b => statKey a ≤ statKey b := by
    funext a b
    rw [← statKey_lt_iff, not_lt]
  unfold partialSort smallest sortBy
  congr 2

/-- A number that fits in int is not changed by the conversion. -/
theorem toInt32_natCast {n : ℕ} (h : n ≤ intMax) : toInt32 n = n := by
  unfold intMax at h
  apply toInt32_eq_self
  · omega
  · omega

theorem cubItems_of_nonneg {β : Type} {items : List β} (h : 0 ≤ toInt32 items.length) :
    cubItems items = .ok (items.take (toInt32 items.length).toNat) := by
  unfold cubItems
  exact if_neg (not_lt.mpr h)

theorem cubItems_of_neg {β : Type} {items : List β} (h : toInt32 items.length < 0) :
    cubItems items = .error .contract := by
  unfold cubItems
  exact if_pos h

theorem cubItems_eq_ok {β : Type} {items : List β} (h : items.length ≤ intMax) :
    cubItems items = .ok items := by
  have hitems := toInt32_natCast h
  rw [cubItems_of_nonneg (by omega), hitems, Int.toNat_natCast, List.take_length]

section LocalTop

variable [Zero α]

/-- The arrays of the given entries. -/
def candidatesOf (stats : List (PatternStat α)) : Candidates α where
  hash := stats.map PatternStat.hash
  count := stats.map PatternStat.count
  x := stats.map fun e => e.rep.x
  y := stats.map fun e => e.rep.y

theorem map_range_eq_map {β γ : Type} {l : List β} {f : ℕ → γ} {g : β → γ}
    (h : ∀ i (hi : i < l.length), f i = g l[i]) : (List.range l.length).map f = l.map g := by
  apply List.ext_getElem
  · simp
  · intro i hi _
    rw [List.getElem_map, List.getElem_map, List.getElem_range]
    exact h i (by simpa using hi)

theorem getD_map {β γ : Type} {l : List β} (f : β → γ) (b : β) (c : γ) {i : ℕ}
    (hi : i < l.length) : (l.map f).getD i c = f (l.getD i b) := by
  rw [List.getD_eq_getElem _ _ (by simpa using hi), List.getD_eq_getElem _ _ hi, List.getElem_map]

theorem map_mod_range {n : ℕ} (hn : n ≤ intMax) :
    (List.range n).map (· % 2 ^ 32) = List.range n := by
  unfold intMax at hn
  conv_rhs => rw [← List.map_id (List.range n)]
  apply List.map_congr_left
  intro i hi
  have hlt := List.mem_range.mp hi
  exact Nat.mod_eq_of_lt (by omega)

theorem zip_range {β : Type} (l : List β) (d : β) :
    l.zip (List.range l.length) = (List.range l.length).map fun i => (l.getD i d, i) := by
  apply List.ext_getElem
  · simp
  · intro i hi _
    have hlt : i < l.length := by simpa using hi
    simp [hlt]

omit [Zero α] in
/-- Sorting the slots of a shard by complemented count sorts its entries for the output. -/
theorem sorted_slots {shard : List Hash} (hshard : shard.Pairwise (· < ·))
    (stat : Hash → PatternStat α)
    (hhash : ∀ h, (stat h).hash = h) (hcount : ∀ h ∈ shard, (stat h).count < 2 ^ 64) :
    (sortPairs ((List.range shard.length).map fun i =>
        (invertCount (stat (shard.getD i 0)).count, i))).map (fun x => stat (shard.getD x.2 0)) =
      sortBy statKey (shard.map stat) := by
  set items := (List.range shard.length).map fun i =>
    (invertCount (stat (shard.getD i 0)).count, i) with hitems
  have hvalues : items.map Prod.snd = List.range shard.length := by
    rw [hitems, List.map_map]
    exact List.map_id _
  have hmem : ∀ x ∈ sortPairs items, ∃ hx : x.2 < shard.length,
      x.1 = invertCount (stat shard[x.2]).count := by
    intro x hx
    obtain ⟨i, hi, rfl⟩ := List.mem_map.mp ((perm_sortPairs items).mem_iff.mp hx)
    have hlt := List.mem_range.mp hi
    exact ⟨hlt, by rw [List.getD_eq_getElem _ _ hlt]⟩
  symm
  apply sortBy_eq
  · rw [List.pairwise_map]
    refine (pairwise_sortPairs_lex (by rw [hvalues]; exact List.pairwise_lt_range)).imp_of_mem ?_
    intro a b ha hb hab
    obtain ⟨hia, hca⟩ := hmem a ha
    obtain ⟨hib, hcb⟩ := hmem b hb
    have hlowa := hcount _ (List.getElem_mem hia)
    have hlowb := hcount _ (List.getElem_mem hib)
    rw [List.getD_eq_getElem _ _ hia, List.getD_eq_getElem _ _ hib, statKey_lt_iff, statBefore]
    unfold invertCount at hca hcb
    rcases hab with hlt | ⟨heq, hlt⟩
    · rw [if_pos (by omega)]
      omega
    · rw [if_neg (by omega), hhash, hhash]
      exact List.pairwise_iff_getElem.mp hshard _ _ hia hib hlt
  · have hwhole : items.map (fun x => stat (shard.getD x.2 0)) = shard.map stat := by
      conv_rhs => rw [← map_getD_range shard 0]
      rw [hitems, List.map_map, List.map_map]
      rfl
    rw [← hwhole]
    exact (perm_sortPairs items).map _

omit [Zero α] in
/-- Reading an array at the first sorted slots lists that field of the first sorted entries. -/
theorem map_topSlots {shard : List Hash} (hshard : shard.Pairwise (· < ·))
    (stat : Hash → PatternStat α) (hhash : ∀ h, (stat h).hash = h)
    (hcount : ∀ h ∈ shard, (stat h).count < 2 ^ 64) (k : ℕ) {β : Type} (read : ℕ → β)
    (field : PatternStat α → β)
    (hread : ∀ i < shard.length, read i = field (stat (shard.getD i 0))) :
    (((sortPairs ((List.range shard.length).map fun i =>
        (invertCount (stat (shard.getD i 0)).count, i))).map Prod.snd).take
          (min k shard.length)).map read =
      (smallest statKey k (shard.map stat)).map field := by
  have hlen : min k shard.length = min k ((sortPairs ((List.range shard.length).map fun i =>
      (invertCount (stat (shard.getD i 0)).count, i))).map Prod.snd).length := by
    rw [List.length_map, length_sortPairs, List.length_map, List.length_range]
  rw [smallest, hlen, ← List.take_eq_take_min, ← sorted_slots hshard stat hhash hcount,
    ← List.map_take, ← List.map_take, List.map_map, List.map_map, List.map_take, List.map_take]
  congr 1
  apply List.map_congr_left
  intro x hx
  obtain ⟨i, hi, rfl⟩ := List.mem_map.mp ((perm_sortPairs _).mem_iff.mp hx)
  exact hread i (List.mem_range.mp hi)

/-- Stage E hands over the first entries of the shard in the order of the output. -/
theorem localTop_eq_ok (k : ℕ) {shard : List Hash} (hshard : shard.Pairwise (· < ·))
    (hfit : shard.length ≤ intMax) (stat : Hash → PatternStat α)
    (hhash : ∀ h, (stat h).hash = h) (hcount : ∀ h ∈ shard, (stat h).count < 2 ^ 64) :
    localTop k shard { counts := shard.map fun h => (stat h).count
                       points := shard.map fun h => (stat h).rep } =
      .ok (candidatesOf (smallest statKey k (shard.map stat))) := by
  have hnone : min k shard.length = 0 → smallest statKey k (shard.map stat) = [] := by
    intro hzero
    rw [← List.length_eq_zero_iff, length_smallest, List.length_map]
    exact hzero
  unfold localTop
  by_cases hzero : min k shard.length = 0
  · rw [hnone hzero]
    exact if_pos hzero
  simp only [if_neg hzero]
  have hitems : ((shard.map fun h => (stat h).count).map invertCount).zip
        ((List.range shard.length).map (· % 2 ^ 32)) =
      (List.range shard.length).map fun i => (invertCount (stat (shard.getD i 0)).count, i) := by
    have hzip := zip_range (shard.map fun h => invertCount (stat h).count) 0
    rw [List.length_map] at hzip
    rw [map_mod_range hfit, List.map_map]
    refine hzip.trans (List.map_congr_left fun i hi => ?_)
    rw [getD_map _ 0 0 (List.mem_range.mp hi)]
  rw [hitems, cubItems_eq_ok (by simpa using hfit), ok_bind]
  simp only [pure_eq_ok, candidatesOf]
  rw [map_topSlots hshard stat hhash hcount k _ PatternStat.hash fun i _ => (hhash _).symm,
    map_topSlots hshard stat hhash hcount k _ PatternStat.count fun i hi => getD_map _ 0 0 hi,
    map_topSlots hshard stat hhash hcount k _ (fun e => e.rep.x) fun i hi =>
      congrArg Point.x (getD_map _ 0 default hi),
    map_topSlots hshard stat hhash hcount k _ (fun e => e.rep.y) fun i hi =>
      congrArg Point.y (getD_map _ 0 default hi)]

end LocalTop

theorem unpackPoints_packPoints (points : List (Point α)) :
    unpackPoints (packPoints points) = points := by
  induction points with
  | nil => rfl
  | cons p points ih =>
    have hpack : packPoints (p :: points) = p.x :: p.y :: packPoints points := rfl
    rw [hpack, unpackPoints, ih]

theorem length_packPoints (points : List (Point α)) :
    (packPoints points).length = 2 * points.length := by
  induction points with
  | nil => rfl
  | cons p points ih =>
    have hpack : packPoints (p :: points) = p.x :: p.y :: packPoints points := rfl
    rw [hpack, List.length_cons, List.length_cons, List.length_cons, ih]
    omega

section Locations

variable [LinearOrder α]

theorem point_le_iff (a b : Point α) : a ≤ b ↔ a.x < b.x ∨ a.x = b.x ∧ a.y ≤ b.y :=
  Prod.Lex.toLex_le_toLex

theorem lexMinPoint_eq_min : lexMinPoint = (min : Point α → Point α → Point α) := by
  funext a b
  rw [min_def]
  unfold lexMinPoint
  by_cases hx : a.x = b.x
  · rw [if_neg (not_not.mpr hx)]
    simp only [point_le_iff, hx, lt_irrefl, false_or, true_and]
  · rw [if_pos hx]
    simp only [point_le_iff, hx, false_and, or_false]

variable [Zero α]

/-- The occurrences the CUB calls of stage A see. -/
def kept (occurrences : List (Hash × Point α)) : List (Hash × Point α) :=
  occurrences.take (toInt32 occurrences.length).toNat

/-- The smallest location of a hash. -/
def locationOf (occurrences : List (Hash × Point α)) (h : Hash) : Point α :=
  reduceRun min (valuesOf occurrences h)

/-- One location for every distinct hash. -/
def representatives (occurrences : List (Hash × Point α)) : List (Hash × Point α) :=
  (sortUnique (occurrences.map Prod.fst)).map fun h => (h, locationOf occurrences h)

omit [LinearOrder α] [Zero α] in
theorem kept_eq_self {occurrences : List (Hash × Point α)} (h : occurrences.length ≤ intMax) :
    kept occurrences = occurrences := by
  rw [kept, toInt32_natCast h, Int.toNat_natCast, List.take_length]

theorem reduceOccurrences_eq_ok {occurrences : List (Hash × Point α)}
    (h : 0 ≤ toInt32 occurrences.length) :
    reduceOccurrences occurrences = .ok (representatives (kept occurrences)) := by
  unfold reduceOccurrences
  split_ifs with hempty
  · rw [List.length_eq_zero_iff.mp hempty, kept, List.take_nil]
    rfl
  · rw [cubItems_of_nonneg h, ok_bind, lexMinPoint_eq_min, reduceByKey_sortPairs]
    rfl

theorem reduceOccurrences_eq_error {occurrences : List (Hash × Point α)}
    (h : toInt32 occurrences.length < 0) : reduceOccurrences occurrences = .error .contract := by
  unfold reduceOccurrences
  split_ifs with hempty
  · rw [toInt32_natCast (by omega)] at h
    omega
  · rw [cubItems_of_neg h, error_bind]

/-- Stage A stops on a number of occurrences that the conversion makes negative. -/
theorem reduceOccurrences_eq (occurrences : List (Hash × Point α)) :
    reduceOccurrences occurrences =
      if 0 ≤ toInt32 occurrences.length then .ok (representatives (kept occurrences))
      else .error .contract := by
  split_ifs with h
  · exact reduceOccurrences_eq_ok h
  · exact reduceOccurrences_eq_error (not_le.mp h)

section Scatter

variable {n start : ℕ} (c : ℕ → ℕ) (p : ℕ → Point α)

/-- The shard arrays after the runs of the given slots have been scattered. -/
def partlyScattered (n : ℕ) (written : List ℕ) : ShardArrays α where
  counts := (List.range n).map fun i => if i ∈ written then c i else 0
  points := (List.range n).map fun i => if i ∈ written then p i else default

omit [LinearOrder α] in
theorem scatterRun_partlyScattered (written : List ℕ) {i : ℕ} (hi : i < n) :
    scatterRun start (partlyScattered c p n written) (start + i, c i, p i) =
      .ok (partlyScattered c p n (written ++ [i])) := by
  have hset : ∀ {β : Type} (f : ℕ → β) (zero : β),
      ((List.range n).map fun j => if j ∈ written then f j else zero).set i (f i) =
        (List.range n).map fun j => if j ∈ written ++ [i] then f j else zero := by
    intro β f zero
    apply List.ext_getElem
    · simp
    · intro j hj _
      have hlt : j < n := by simpa using hj
      by_cases heq : i = j
      · subst heq
        simp
      · rw [List.getElem_set_ne heq]
        simp [Ne.symm heq]
  have hslot : start + i - start = i := Nat.add_sub_cancel_left ..
  unfold scatterRun
  simp only [hslot]
  rw [if_pos ⟨Nat.le_add_right .., by simpa [partlyScattered] using hi,
    by simpa [partlyScattered] using hi⟩]
  simp only [partlyScattered, hset]

omit [LinearOrder α] in
/-- The scatter kernel fills the shard, whatever the order of its threads. -/
theorem launch_scatterRun (d : Device) :
    d.launch 0 0 ((List.range n).map fun i => (start + i, c i, p i)) (scatterRun start)
        (zeroedArrays n) =
      .ok { counts := (List.range n).map c, points := (List.range n).map p } := by
  have hperm := d.order_perm 0 0 ((List.range n).map fun i => (start + i, c i, p i))
  have hrun : ∀ (threads : List (ℕ × ℕ × Point α)) (written : List ℕ),
      (∀ x ∈ threads, ∃ i < n, x = (start + i, c i, p i)) →
      threads.foldlM (scatterRun start) (partlyScattered c p n written) =
        .ok (partlyScattered c p n (written ++ threads.map fun x => x.1 - start)) := by
    intro threads
    induction threads with
    | nil => simp
    | cons x threads ih =>
      intro written hthreads
      obtain ⟨i, hi, rfl⟩ := hthreads x (List.mem_cons_self ..)
      have htail := ih (written ++ [i]) fun y hy => hthreads y (List.mem_cons_of_mem _ hy)
      rw [List.foldlM_cons, scatterRun_partlyScattered c p written hi, ok_bind, htail]
      simp
  have hzero : partlyScattered c p n [] = zeroedArrays n := by
    simp [partlyScattered, zeroedArrays]
  have hall := hrun _ [] fun x hx => by
    obtain ⟨i, hi, rfl⟩ := List.mem_map.mp (hperm.mem_iff.mp hx)
    exact ⟨i, List.mem_range.mp hi, rfl⟩
  have hwritten : ∀ i < n, i ∈ (d.order 0 0 ((List.range n).map fun i =>
      (start + i, c i, p i))).map fun x => x.1 - start := by
    intro i hi
    refine List.mem_map.mpr ⟨(start + i, c i, p i), hperm.mem_iff.mpr ?_, by simp⟩
    exact List.mem_map.mpr ⟨i, List.mem_range.mpr hi, rfl⟩
  rw [Device.launch, ← hzero, hall, List.nil_append]
  unfold partlyScattered
  congr 2 <;>
  · apply List.map_congr_left
    intro i hi
    exact if_pos (hwritten i (List.mem_range.mp hi))

end Scatter

/-- The runs of the two reductions stand under the same ids and can be paired. -/
theorem zip_reductions {n start : ℕ} (entries : List (ElementId × ℕ × Point α))
    (hids : sortUnique (entries.map Prod.fst) = (List.range n).map (start + ·)) :
    ((reduceByKey sumU64 (sortPairs (entries.map fun e => (e.1, e.2.1)))).zip
        (reduceByKey min (sortPairs (entries.map fun e => (e.1, e.2.2))))).map
      (fun x => (x.1.1, x.1.2, x.2.2)) =
    (List.range n).map fun i => (start + i,
      reduceRun sumU64 (valuesOf (entries.map fun e => (e.1, e.2.1)) (start + i)),
      reduceRun min (valuesOf (entries.map fun e => (e.1, e.2.2)) (start + i))) := by
  have hdegrees : sortUnique ((entries.map fun e => (e.1, e.2.1)).map Prod.fst) =
      (List.range n).map (start + ·) := by
    rw [List.map_map]
    exact hids
  have hpoints : sortUnique ((entries.map fun e => (e.1, e.2.2)).map Prod.fst) =
      (List.range n).map (start + ·) := by
    rw [List.map_map]
    exact hids
  rw [reduceByKey_sortPairs, reduceByKey_sortPairs, hdegrees, hpoints, List.map_map, List.map_map,
    List.zip_map', List.map_map]
  rfl

/-- Stage D hands the scatter kernel one run for every slot of the shard. -/
theorem arrivedRuns_eq_ok {n start : ℕ} (entries : List (ElementId × ℕ × Point α))
    (hfit : entries.length ≤ intMax)
    (hids : sortUnique (entries.map Prod.fst) = (List.range n).map (start + ·)) :
    arrivedRuns
        { ids := entries.map Prod.fst
          degrees := entries.map fun e => e.2.1
          points := entries.map fun e => e.2.2 } =
      .ok ((List.range n).map fun i => (start + i,
        reduceRun sumU64 (valuesOf (entries.map fun e => (e.1, e.2.1)) (start + i)),
        reduceRun min (valuesOf (entries.map fun e => (e.1, e.2.2)) (start + i)))) := by
  have hlen : (entries.map Prod.fst).length = entries.length := List.length_map ..
  have hitems : (entries.map Prod.fst).zip ((List.range entries.length).map (· % 2 ^ 32)) =
      (List.range entries.length).map fun i => ((entries.map Prod.fst).getD i 0, i) := by
    have hzip := zip_range (entries.map Prod.fst) 0
    rw [hlen] at hzip
    rw [map_mod_range hfit, hzip]
  unfold arrivedRuns
  simp only [hlen]
  rw [hitems, cubItems_eq_ok (by simpa using hfit), ok_bind,
    sortPairs_positions entries Prod.fst (fun e => e.2.1) 0 0,
    sortPairs_positions entries Prod.fst (fun e => e.2.2) 0 default, lexMinPoint_eq_min,
    zip_reductions entries hids]
  rfl

/-- Without arrivals there is no launch, which is as good as one without threads. -/
theorem reduceArrivals_eq_launch (d : Device) (n start : ℕ) {a : Arrivals α}
    {runs : List (ElementId × ℕ × Point α)} (h : arrivedRuns a = .ok runs) :
    reduceArrivals d n start a = d.launch 0 0 runs (scatterRun start) (zeroedArrays n) := by
  unfold reduceArrivals
  split_ifs with hnone
  · have hsorted : sortPairs ([] : List (ElementId × ℕ)) = [] := (perm_sortPairs []).eq_nil
    have hempty : runs = [] := by
      rw [arrivedRuns, List.eq_nil_of_length_eq_zero hnone, List.zip_nil_left,
        cubItems_eq_ok (by exact Nat.zero_le intMax), ok_bind, hsorted] at h
      simpa [reduceByKey, runsByKey] using (Except.ok.inj h).symm
    rw [hempty, d.launch_nil]
  · rw [h, ok_bind]

/-- Stage D: every slot of the shard receives the sum of the degrees and the least of the
locations that arrived under its id. -/
theorem reduceArrivals_eq_ok (d : Device) {n start : ℕ} (entries : List (ElementId × ℕ × Point α))
    (hfit : entries.length ≤ intMax)
    (hids : sortUnique (entries.map Prod.fst) = (List.range n).map (start + ·))
    (hsum : ∀ i < n, (valuesOf (entries.map fun e => (e.1, e.2.1)) (start + i)).sum < 2 ^ 64) :
    reduceArrivals d n start
        { ids := entries.map Prod.fst
          degrees := entries.map fun e => e.2.1
          points := entries.map fun e => e.2.2 } =
      .ok { counts := (List.range n).map fun i =>
              (valuesOf (entries.map fun e => (e.1, e.2.1)) (start + i)).sum
            points := (List.range n).map fun i =>
              reduceRun min (valuesOf (entries.map fun e => (e.1, e.2.2)) (start + i)) } := by
  have hcounts : ((List.range n).map fun i =>
        reduceRun sumU64 (valuesOf (entries.map fun e => (e.1, e.2.1)) (start + i))) =
      (List.range n).map fun i =>
        (valuesOf (entries.map fun e => (e.1, e.2.1)) (start + i)).sum := by
    apply List.map_congr_left
    intro i hi
    exact reduceRun_add_mod (hsum i (List.mem_range.mp hi))
  rw [reduceArrivals_eq_launch d n start (arrivedRuns_eq_ok entries hfit hids),
    launch_scatterRun, hcounts]

end Locations

end PatternSearch.StatsStages
