import PatternSearch.ByElementRun

/-!
The int bookkeeping of the two host redistributions. Nothing in the code checks that a count,
an offset or a total stays in int. The only exception on the way is the check of the number
of slots, which comes between the two exchanges; so the bookkeeping is exact just when the
hashes can be counted in int and, unless that check throws, the incidences can too.
-/

namespace PatternSearch.Redistribution

open Machine Collectives Bucketing Csr Kernels HashMapping IdAssignment Setup Shards Incidence
  ByElement ElementSetup ByElementRun

variable {P : ℕ} {rawPatches : Fin P → List (List Hash)} {globalIds : Fin P → List PatchId}

/-- The int bookkeeping of the ByElement setup: of the hash exchange, and of the incidence
exchange up to its send buffers. -/
def bookkeeping (rawPatches : Fin P → List (List Hash)) (globalIds : Fin P → List PatchId) :
    Except Fault (Fin P → HashExchange P × Plan (PatchId × ElementId) P) := do
  let ex ← exchangeHashes rawPatches
  let m ← assignIds rawPatches ex
  let slots ← assignSlots (fun r => (m r).idPatches.length) globalIds
  let sent ← planIncidences (fun r => (m r).N) (fun r => (slots r).slotStart)
    fun r => (m r).idPatches
  return fun r => (ex r, sent r)

/-- The selector stops where its bookkeeping stops. -/
theorem patchSelect_of_bookkeeping_error (dev : Fin P → Device) (fuel : ℕ) {e : Fault}
    (h : bookkeeping rawPatches globalIds = .error e) :
    ByElement.patchSelect dev fuel rawPatches globalIds = .error e := by
  unfold ByElement.patchSelect mapHashesToElementIds
  rcases bind_eq_error.mp h with hex | ⟨ex, hex, h⟩
  · rw [hex]
    rfl
  rcases bind_eq_error.mp h with hmap | ⟨m, hmap, h⟩
  · rw [hex, ok_bind, hmap]
    rfl
  rw [hex, ok_bind, hmap, ok_bind]
  unfold prepare ByElement.redistribute
  rcases bind_eq_error.mp h with hslots | ⟨slots, hslots, h⟩
  · rw [hslots]
    rfl
  rcases bind_eq_error.mp h with hsent | ⟨sent, _, h⟩
  · rw [hslots, ok_bind, shardIncidences, exchangeIncidences, hsent]
    rfl
  cases h

/-- The bookkeeping of one exchange holds the true counts, offsets and final write heads. -/
structure PlanTrue {α : Type} (target : α → ℕ) (xs : List α) (p : Plan α P) : Prop where
  counts : ∀ t, p.counts t = xs.countP fun x => target x = t
  offsets : ∀ t, p.offsets t = ∑ s with s < t, p.counts s
  cursors : ∀ t, p.cursors t = p.offsets t + p.counts t

/-- The bookkeeping of the hash exchange on rank r. -/
structure HashCountsTrue (rawPatches : Fin P → List (List Hash)) (r : Fin P)
    (ex : HashExchange P) : Prop where
  sent : PlanTrue (targetRankForHash (splitters rawPatches)) (localUniq (rawPatches r)) ex.sent
  recvcounts : ∀ s, ex.recvcounts s = (localUniq (rawPatches s)).countP fun h =>
    decide (targetRankForHash (splitters rawPatches) h = r)
  totalRecv : ex.totalRecv = ∑ s, ex.recvcounts s

/-- Every int of both redistributions is exact, or an exception came first. -/
def CountsExact (rawPatches : Fin P → List (List Hash)) (globalIds : Fin P → List PatchId) : Prop :=
  (∃ b, bookkeeping rawPatches globalIds = .ok b ∧
    ∀ r, HashCountsTrue rawPatches r (b r).1 ∧
      PlanTrue (fun x : PatchId × ElementId => shardOwner (globalUniq rawPatches).length P x.2)
        (slotEntries (displacement (fun s => (rawPatches s).length) r) (idRows rawPatches r))
        (b r).2) ∨
  ∃ e, bookkeeping rawPatches globalIds = .error (.throws e)

theorem planTrue_exactPlan {α : Type} (target : α → ℕ) (xs : List α) :
    PlanTrue target xs (exactPlan P target xs) where
  counts _ := (List.countP_eq_length_filter ..).symm
  offsets t := displacement_eq_sum _ t
  cursors _ := rfl

/-- What is left of it once the hashes have been counted. -/
theorem bookkeeping_of_countsFit (hP : 0 < P) (hfit : CountsFit rawPatches)
    (globalIds : Fin P → List PatchId) :
    bookkeeping rawPatches globalIds = do
      let slots ← assignSlots (fun r => (idRows rawPatches r).length) globalIds
      let sent ← planIncidences (fun _ => (globalUniq rawPatches).length)
        (fun r => (slots r).slotStart) (idRows rawPatches)
      return fun r => (exactExchange rawPatches r, sent r) := by
  unfold bookkeeping
  rw [(exchangeHashes_eq_ok_iff hP _).mpr ⟨hfit, rfl⟩, ok_bind, assignIds_eq_ok hP, ok_bind]
  rfl

/-- Hashes that cannot be counted stop the run without an exception. -/
theorem countsFit_of_countsExact (hP : 0 < P) (h : CountsExact rawPatches globalIds) :
    CountsFit rawPatches := by
  cases hex : exchangeHashes rawPatches with
  | ok ex => exact ((exchangeHashes_eq_ok_iff hP ex).mp hex).1
  | error e =>
    have hstop : bookkeeping rawPatches globalIds = .error e := by
      rw [bookkeeping, hex, error_bind]
    rcases h with ⟨b, hrun, _⟩ | ⟨thrown, hrun⟩
    · rw [hstop] at hrun
      cases hrun
    · rw [hstop, Except.error.injEq] at hrun
      exact absurd (hrun ▸ hex) (noThrow_exchangeHashes hP thrown)

/-- With few enough patches the second exchange decides: it cannot throw either. -/
theorem countsExact_iff_incidences (hP : 0 < P) (hfit : CountsFit rawPatches)
    (hslots : (gather rawPatches).length ≤ intMax)
    (hids : ∀ r, (globalIds r).length = (rawPatches r).length) :
    CountsExact rawPatches globalIds ↔
      ∀ r, ((rawPatches r).map fun patch => patch.toFinset.card).sum ≤ intMax := by
  have htotal : displacement (fun r => (idRows rawPatches r).length) P ≤ intMax := by
    rw [← length_gather, length_gather_idRows]
    exact hslots
  have hlt : ∀ r s, ∀ e ∈ (idRows rawPatches r).getD s [], e < (globalUniq rawPatches).length :=
    fun _ _ _ => lt_of_mem_idRows
  have hplan (sent : Fin P → Plan (PatchId × ElementId) P) :=
    planIncidences_eq_ok_iff hP length_globalUniq_le_two_pow hlt sent
  simp only [length_flatten_idRows] at hplan
  have hassign := assignSlots_eq_ok hP htotal fun r => by rw [hids, length_idRows]
  have hrun := bookkeeping_of_countsFit hP hfit globalIds
  rw [hassign, ok_bind] at hrun
  constructor
  · intro h
    cases hsent : planIncidences (fun _ => (globalUniq rawPatches).length)
        (fun r => displacement (fun s => (idRows rawPatches s).length) r) (idRows rawPatches) with
    | ok sent => exact ((hplan sent).mp hsent).1
    | error e =>
      simp only [hsent, error_bind] at hrun
      rcases h with ⟨b, hb, _⟩ | ⟨thrown, hthrown⟩
      · rw [hrun] at hb
        cases hb
      · rw [hrun, Except.error.injEq] at hthrown
        exact absurd (hthrown ▸ hsent) (NoThrow.onRanks (fun r => noThrow_plan _ _) thrown)
  · intro hincidences
    simp only [(hplan _).mpr ⟨hincidences, rfl⟩, ok_bind] at hrun
    refine Or.inl ⟨_, hrun, fun r => ⟨⟨planTrue_exactPlan _ _, fun s => ?_, rfl⟩, ?_⟩⟩
    · exact (List.countP_eq_length_filter ..).symm
    · have hstart : (fun s => (idRows rawPatches s).length) = fun s => (rawPatches s).length :=
        funext fun s => length_idRows s
      rw [← hstart]
      exact planTrue_exactPlan _ _

/-- The bookkeeping is exact just when the distinct hashes of every rank and the hashes routed
to every rank number at most INT_MAX, and either the patches number more, so that setup
throws before the second exchange, or no rank has more than INT_MAX incidences. -/
theorem countsExact_iff (hP : 0 < P) (rawPatches : Fin P → List (List Hash))
    (globalIds : Fin P → List PatchId)
    (hids : ∀ r, (globalIds r).length = (rawPatches r).length) :
    CountsExact rawPatches globalIds ↔
      CountsFit rawPatches ∧ (intMax < (gather rawPatches).length ∨
        ∀ r, ((rawPatches r).map fun patch => patch.toFinset.card).sum ≤ intMax) := by
  by_cases hslots : intMax < (gather rawPatches).length
  · have hrest : CountsFit rawPatches → CountsExact rawPatches globalIds := by
      intro hfit
      have htotal : intMax < displacement (fun r => (idRows rawPatches r).length) P := by
        rw [← length_gather, length_gather_idRows]
        exact hslots
      have hthrown : bookkeeping rawPatches globalIds = .error slotRangeError := by
        rw [bookkeeping_of_countsFit hP hfit globalIds,
          assignSlots_eq_error hP globalIds htotal, error_bind]
      exact Or.inr ⟨_, hthrown⟩
    exact ⟨fun h => ⟨countsFit_of_countsExact hP h, Or.inl hslots⟩, fun h => hrest h.1⟩
  · constructor
    · intro h
      have hfit := countsFit_of_countsExact hP h
      exact ⟨hfit, Or.inr
        ((countsExact_iff_incidences hP hfit (not_lt.mp hslots) hids).mp h)⟩
    · intro h
      obtain ⟨hfit, hrest⟩ := h
      exact (countsExact_iff_incidences hP hfit (not_lt.mp hslots) hids).mpr
        (hrest.resolve_left hslots)

theorem countsExact_iff_two_ranks :
    CountsExact ![[[5, 7], [7]], [[9, 5, 9]]] ![[10, 20], [30]] :=
  (countsExact_iff (P := 2) (by decide) ![[[5, 7], [7]], [[9, 5, 9]]] ![[10, 20], [30]]
    (by decide)).mpr ⟨countsFit_of_total_le (by decide), Or.inr (by decide)⟩

/-- Patches of consecutive hashes. -/
def consecutivePatches (count size : ℕ) : List (List Hash) :=
  (List.range count).map fun p => (List.range size).map fun i => Fin.ofNat (2 ^ 64) (p * size + i)

theorem le_length_localUniq_consecutivePatches {count size : ℕ} (h : count * size ≤ 2 ^ 64) :
    count * size ≤ (localUniq (consecutivePatches count size)).length := by
  have hsubset : (Finset.range (count * size)).image (Fin.ofNat (2 ^ 64)) ⊆
      (consecutivePatches count size).flatten.toFinset := by
    intro a ha
    obtain ⟨n, hn, rfl⟩ := Finset.mem_image.mp ha
    have hn := Finset.mem_range.mp hn
    have hsize : 0 < size := by
      by_contra hzero
      obtain rfl : size = 0 := by omega
      omega
    rw [List.mem_toFinset, List.mem_flatten]
    refine ⟨_, List.mem_map_of_mem (List.mem_range.mpr (Nat.div_lt_of_lt_mul
      (show n < size * count by rw [Nat.mul_comm]; exact hn))), ?_⟩
    refine List.mem_map.mpr ⟨n % size, List.mem_range.mpr (Nat.mod_lt n hsize), ?_⟩
    rw [Nat.div_add_mod']
  have hcard := Finset.card_le_card hsubset
  rw [Finset.card_image_of_injOn (injOn_ofNat h), Finset.card_range] at hcard
  rw [localUniq, SortedLists.length_sortUnique]
  exact hcard

/-- One rank with 2^22 patches of 512 hashes, all distinct: 2^31 increments of one int. -/
theorem not_countsExact_at_scale :
    ¬ CountsExact (fun _ : Fin 1 => consecutivePatches 4194304 512)
      (fun _ => List.range 4194304) := by
  intro h
  have hsent := (countsFit_of_countsExact (by decide) h).sent 0
  have hlen := le_length_localUniq_consecutivePatches (show 4194304 * 512 ≤ 2 ^ 64 by omega)
  unfold intMax at hsent
  omega

end PatternSearch.Redistribution
