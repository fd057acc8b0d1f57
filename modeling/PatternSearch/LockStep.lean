import PatternSearch.RankPrograms

/-!
The ranks run in step through the hash mapping and through one pass of either loop: what the
lock-step model does on all ranks at once is what the programs of the ranks do together.
-/

namespace PatternSearch.LockStep

open Machine Collectives Csr Bucketing Kernels Loops HashMapping IdAssignment Setup Spmd RankCalls
  RankPrograms

variable {P : ℕ} {C : Type}

section Replies

theorem displacement_const (c : ℕ) (s : Fin P) : displacement (fun _ : Fin P => c) s = s * c := by
  unfold displacement
  rw [List.ofFn_const, List.take_replicate, List.sum_replicate, Nat.min_eq_left s.isLt.le,
    smul_eq_mul]

/-- The gathered counts hold, for every rank, what the others send to it. -/
theorem recvcountsOf_gather (counts : Fin P → Fin P → ℕ) (r : Fin P) :
    recvcountsOf r (gather fun s => List.ofFn (counts s)) = fun s => counts s r := by
  funext s
  have hlen : (fun s => (List.ofFn (counts s)).length) = fun _ : Fin P => P :=
    funext fun s => List.length_ofFn
  have hr : (r : ℕ) < (List.ofFn (counts s)).length := by
    rw [List.length_ofFn]
    exact r.isLt
  have hentry := getD_gather (fun s => List.ofFn (counts s)) s hr 0
  rw [hlen, displacement_const] at hentry
  rw [recvcountsOf, hentry, List.getD_eq_getElem _ _ hr, List.getElem_ofFn]

theorem recvcountsOfInt_gather (counts : Fin P → Fin P → ℕ) (r : Fin P) :
    recvcountsOfInt r (gather fun s => List.ofFn (counts s)) = recvcountsInt counts r := by
  have hentry : ∀ s : Fin P, (do
      let index ← tableIndex P s r
      return (gather fun s => List.ofFn (counts s)).getD index 0) = (do
      let _ ← tableIndex P s r
      return counts s r : Except Fault ℕ) := by
    intro s
    have hcounts := congrFun (recvcountsOf_gather counts r) s
    rw [recvcountsOf] at hcounts
    rw [tableIndex_eq]
    split_ifs
    · exact congrArg Except.ok hcounts
    · rfl
  exact congrArg onRanks (funext hentry)

/-- A gather of one value a rank. -/
theorem getD_gather_singleton (x : Fin P → ℕ) (s : Fin P) :
    (gather fun s => [x s]).getD s 0 = x s := by
  have hlen : (fun s => [x s].length) = fun _ : Fin P => 1 := rfl
  have hentry := getD_gather (fun s => [x s]) s (show 0 < [x s].length from Nat.one_pos) 0
  rw [hlen, displacement_const, Nat.mul_one, Nat.add_zero] at hentry
  exact hentry

end Replies

/-- The ranks leave a loop together, in the same pass, when the loop of all ranks returns. -/
theorem together_loop {σ ρ : Type} {all : (Fin P → σ) → Except Fault ((Fin P → σ) ⊕ (Fin P → ρ))}
    {step : Fin P → σ → RankM P C (σ ⊕ ρ)}
    (hstep : ∀ s outcome, all s = .ok outcome →
      Together (fun r => step r (s r)) (.returned (Spmd.Together.spread outcome)))
    {fuel : ℕ} {s : Fin P → σ} {result : Fin P → ρ} (h : loop all fuel s = .ok result) :
    ∃ n, Together (fun r => Prog.loop Fault.outOfFuel (step r) fuel (s r))
      (.returned fun r => (n, result r)) := by
  induction fuel generalizing s with
  | zero => cases h
  | succ fuel ih =>
    cases hrun : all s with
    | error e =>
      rw [loop_of_error fuel hrun] at h
      cases h
    | ok outcome =>
      cases outcome with
      | inl next =>
        rw [loop_of_continue fuel hrun] at h
        obtain ⟨n, hrest⟩ := ih h
        exact ⟨n + 1, Spmd.Together.loop_go (hstep s _ hrun) hrest⟩
      | inr last =>
        rw [loop_of_leave fuel hrun] at h
        obtain rfl := Except.ok.inj h
        exact ⟨1, Spmd.Together.loop_leave fuel (hstep s _ hrun)⟩

section Mapping

variable {rawPatches : Fin P → List (List Hash)}

theorem together_computeSplitters {uniq splitters : Fin P → List Hash}
    (h : HashMapping.computeSplitters uniq = .ok splitters) :
    Together (fun r => (RankPrograms.computeSplitters (uniq r) : RankM P C (List Hash)))
      (.returned splitters) := by
  unfold HashMapping.computeSplitters at h
  unfold RankPrograms.computeSplitters
  by_cases hone : P ≤ 1
  · simp only [if_pos hone] at h ⊢
    obtain rfl := Except.ok.inj h
    exact Spmd.Together.done _
  · simp only [if_neg hone] at h ⊢
    obtain ⟨allSamples, hgather, h⟩ := bind_eq_ok.mp h
    obtain rfl := Except.ok.inj h
    exact together_allgatherv hgather (Spmd.Together.done _)

theorem together_mapHashesToElementIds {m : Fin P → IdMappedPatches}
    (h : HashMapping.mapHashesToElementIds rawPatches = .ok m) :
    Together (fun r =>
        (RankPrograms.mapHashesToElementIds r (rawPatches r) : RankM P C IdMappedPatches))
      (.returned m) := by
  obtain ⟨ex, hexchange, hassign⟩ := bind_eq_ok.mp h
  obtain ⟨splitters, hsplitters, hexchange⟩ := bind_eq_ok.mp hexchange
  obtain ⟨sent, hsent, hexchange⟩ := bind_eq_ok.mp hexchange
  obtain ⟨totalRecv, htotal, hexchange⟩ := bind_eq_ok.mp hexchange
  obtain ⟨recvbuf, hrecv, hexchange⟩ := bind_eq_ok.mp hexchange
  obtain rfl := Except.ok.inj hexchange
  obtain ⟨nTotal, hbcast, hassign⟩ := bind_eq_ok.mp hassign
  obtain ⟨idBack, hback, htranslate⟩ := bind_eq_ok.mp hassign
  choose idPatches htranslated hmapped using
    fun r => bind_eq_ok.mp (onRanks_eq_ok_iff.mp htranslate r)
  obtain rfl : _ = m := funext fun r => Except.ok.inj (hmapped r)
  unfold RankPrograms.mapHashesToElementIds
  apply (together_computeSplitters hsplitters).bind
  apply together_compute hsent
  apply together_allgatherv (allgatherv_eq_ok fun _ _ => List.length_ofFn.symm)
  simp only [recvcountsOf_gather]
  apply together_compute htotal
  apply together_alltoallv hrecv
  apply together_exscan
  apply together_bcastValue hbcast
  apply together_alltoallv hback
  exact together_compute (onRanks_eq_ok htranslated) (Spmd.Together.done _)

/-- A rank with more hashes or arrivals than int counts leaves the defined behaviour. -/
theorem together_mapHashesToElementIds_overflow (hP : 0 < P) (h : ¬ CountsFit rawPatches) :
    ∃ q, Together (fun r =>
        (RankPrograms.mapHashesToElementIds r (rawPatches r) : RankM P C IdMappedPatches))
      (.undefined q .overflow) := by
  have howner : ∀ r, ∀ h ∈ localUniq (rawPatches r),
      targetRankForHash (splitters rawPatches) h < P := fun _ h _ => owner_lt hP h
  unfold RankPrograms.mapHashesToElementIds
  by_cases hsent : ∀ r, (localUniq (rawPatches r)).length ≤ intMax
  · obtain ⟨q, hq⟩ : ∃ q, intMax < ∑ s, (routed rawPatches s q).length := by
      by_contra hall
      exact h ⟨hsent, fun r => not_lt.mp fun hr => hall ⟨r, hr⟩⟩
    refine ⟨q, (together_computeSplitters (computeSplitters_eq hP)).bind ?_⟩
    apply together_compute (onRanks_eq_ok fun r =>
      (plan_eq_ok_iff (howner r) hP _).mpr ⟨hsent r, rfl⟩)
    apply together_allgatherv (allgatherv_eq_ok fun _ _ => List.length_ofFn.symm)
    simp only [recvcountsOf_gather]
    refine Spmd.Together.lift_undefined (totalInt_eq_error ?_) (.inl rfl) _
    rw [List.sum_ofFn]
    exact hq
  · obtain ⟨q, hq⟩ := not_forall.mp hsent
    refine ⟨q, (together_computeSplitters (computeSplitters_eq hP)).bind ?_⟩
    exact Spmd.Together.lift_undefined (plan_eq_error (howner q) hP (not_le.mp hq)) (.inl rfl) _

end Mapping

section ByPatch

open PatternSearch.ByPatch

variable {dev : Fin P → Device} {ps : Fin P → PatchSet} {globalIds : Fin P → List PatchId}
  {st : Fin P → RankState}

/-- One pass of the ByPatch loop, whichever way it goes. -/
theorem together_selectStep {outcome : (Fin P → RankState) ⊕ (Fin P → PatchSelection)}
    (h : ByPatch.selectStep dev ps globalIds st = .ok outcome) :
    Together (fun r => (RankPrograms.ByPatch.selectStep (dev r) r (ps r) (globalIds r) (st r) :
        RankM P C (RankState ⊕ PatchSelection)))
      (.returned (Spmd.Together.spread outcome)) := by
  obtain ⟨more, hmore, h⟩ := bind_eq_ok.mp h
  have hmore := of_agree hmore
  unfold RankPrograms.ByPatch.selectStep
  cases more with
  | false =>
    rw [if_neg Bool.false_ne_true] at h
    obtain rfl := Except.ok.inj h
    simp only [of_decide_eq_false (hmore _), if_false]
    exact Spmd.Together.done _
  | true =>
    rw [if_pos rfl] at h
    obtain ⟨best, hbest, h⟩ := bind_eq_ok.mp h
    obtain ⟨exhausted, hexhausted, h⟩ := bind_eq_ok.mp h
    have hexhausted := of_agree hexhausted
    simp only [of_decide_eq_true (hmore _), if_true]
    apply together_compute hbest
    apply together_allreduceMaxloc
    cases exhausted with
    | true =>
      rw [if_pos rfl] at h
      obtain rfl := Except.ok.inj h
      simp only [of_decide_eq_true (hexhausted _), if_true]
      exact Spmd.Together.done _
    | false =>
      rw [if_neg Bool.false_ne_true] at h
      obtain ⟨offered, hoffered, h⟩ := bind_eq_ok.mp h
      obtain ⟨winnerGlobal, hwinner, h⟩ := bind_eq_ok.mp h
      obtain ⟨built, hbuilt, h⟩ := bind_eq_ok.mp h
      obtain ⟨shipped, hshipped, h⟩ := bind_eq_ok.mp h
      obtain ⟨next, hnext, h⟩ := bind_eq_ok.mp h
      obtain rfl := Except.ok.inj h
      simp only [of_decide_eq_false (hexhausted _), if_false]
      apply together_compute hoffered
      apply together_bcastValue hwinner
      apply together_compute hbuilt
      apply together_bcast hshipped
      exact together_compute hnext (Spmd.Together.done _)

end ByPatch

section ByElement

open PatternSearch.ByElement Shards

theorem together_assignSlots {mLocal : Fin P → ℕ} {globalIds : Fin P → List PatchId}
    {slots : Fin P → Slots} (h : ByElement.assignSlots mLocal globalIds = .ok slots) :
    Together (fun r =>
        (RankPrograms.ByElement.assignSlots r (mLocal r) (globalIds r) : RankM P C Slots))
      (.returned slots) := by
  obtain ⟨mGlobal, hglobal, h⟩ := bind_eq_ok.mp h
  obtain ⟨checked, hcheck, h⟩ := bind_eq_ok.mp h
  obtain ⟨slotToGid, hgather, h⟩ := bind_eq_ok.mp h
  obtain rfl := Except.ok.inj h
  unfold RankPrograms.ByElement.assignSlots
  apply together_exscan
  apply together_bcastValue hglobal
  apply together_compute hcheck
  apply together_allgatherv (allgatherv_eq_ok fun _ _ => rfl)
  simp only [getD_gather_singleton]
  unfold gatherSlotIds allgather at hgather
  exact together_allgatherv hgather (Spmd.Together.done _)

/-- Too many patches are rejected on every rank, in the same place. -/
theorem together_assignSlots_stopped (hP : 0 < P) {mLocal : Fin P → ℕ}
    (globalIds : Fin P → List PatchId) (htotal : intMax < displacement mLocal P) :
    Together (fun r =>
        (RankPrograms.ByElement.assignSlots r (mLocal r) (globalIds r) : RankM P C Slots))
      (.stopped fun _ => slotRangeError) := by
  unfold RankPrograms.ByElement.assignSlots
  apply together_exscan
  apply together_bcastValue (bcastTotal_eq_ok hP mLocal)
  simp only [List.getD_cons_zero, if_pos htotal]
  exact Spmd.Together.lift_stopped (fun _ => rfl) _

theorem together_exchangeIncidences {N slotStart : Fin P → ℕ}
    {idPatches : Fin P → List (List ElementId)} {ex : Fin P → IncidenceExchange P}
    (h : ByElement.exchangeIncidences N slotStart idPatches = .ok ex) :
    Together (fun r => (RankPrograms.ByElement.exchangeIncidences r (N r) (slotStart r)
        (idPatches r) : RankM P C (List PatchId × List ElementId)))
      (.returned fun r => ((ex r).recvSlots, (ex r).recvElems)) := by
  obtain ⟨sent, hsent, h⟩ := bind_eq_ok.mp h
  obtain ⟨recvcounts, hcounts, h⟩ := bind_eq_ok.mp h
  obtain ⟨recvSlots, hslots, h⟩ := bind_eq_ok.mp h
  obtain ⟨recvElems, helems, h⟩ := bind_eq_ok.mp h
  obtain rfl := Except.ok.inj h
  unfold RankPrograms.ByElement.exchangeIncidences
  apply together_compute hsent
  apply together_allgatherv (allgatherv_eq_ok fun _ _ => List.length_ofFn.symm)
  simp only [recvcountsOfInt_gather]
  apply together_compute hcounts
  apply together_alltoallv hslots
  exact together_alltoallv helems (Spmd.Together.done _)

/-- A rank with more incidences than int counts leaves the defined behaviour, and so does one
whose index into the table of counts is no int. -/
theorem together_exchangeIncidences_overflow {N : ℕ} {rows : Fin P → List (List ElementId)}
    (hP : 0 < P) (hN : N ≤ 2 ^ 64) (hlt : ∀ r p, ∀ e ∈ (rows r).getD p [], e < N)
    (h : ¬ ((∀ r, (rows r).flatten.length ≤ intMax) ∧ TableFits P)) :
    ∃ q, Together (fun r => (RankPrograms.ByElement.exchangeIncidences r N
        (displacement (fun s => (rows s).length) r) (rows r) :
        RankM P C (List PatchId × List ElementId)))
      (.undefined q .overflow) := by
  have howner := fun r : Fin P => ElementSetup.owner_of_slotEntries_lt hP hN hlt
    (displacement (fun s => (rows s).length) r) r
  unfold RankPrograms.ByElement.exchangeIncidences
  by_cases hfit : ∀ r, (rows r).flatten.length ≤ intMax
  · obtain ⟨q, hq⟩ := exists_recvcountsInt_eq_error fun htable => h ⟨hfit, htable⟩
    refine ⟨q, together_compute (onRanks_eq_ok fun r => (plan_eq_ok_iff (howner r) hP _).mpr
      ⟨by rw [ElementSetup.length_slotEntries]; exact hfit r, rfl⟩) ?_⟩
    apply together_allgatherv (allgatherv_eq_ok fun _ _ => List.length_ofFn.symm)
    simp only [recvcountsOfInt_gather]
    exact Spmd.Together.lift_undefined (hq _) (.inl rfl) _
  · obtain ⟨q, hq⟩ := not_forall.mp hfit
    have hover := plan_eq_error (howner q) hP
      (by rw [ElementSetup.length_slotEntries]; exact not_le.mp hq)
    exact ⟨q, Spmd.Together.lift_undefined hover (.inl rfl) _⟩

/-- The ranks come to one verdict on the wire, as they check the same sums. -/
theorem together_wireCheck (hP : 0 < P) {mGlobal : ℕ} {slotToGid : List PatchId}
    {init : Fin P → List ℤ} {verdict : Except Fault Unit}
    (h : wireVerdicts (fun _ => mGlobal) (fun _ => slotToGid) init = .ok fun _ => verdict) :
    Together (fun r =>
        (RankPrograms.ByElement.wireCheck mGlobal slotToGid (init r) : RankM P C Unit))
      (Ending.alike verdict) := by
  obtain ⟨sum64, hsum, h⟩ := bind_eq_ok.mp h
  have hverdict := fun r => congrFun (Except.ok.inj h) r
  unfold RankPrograms.ByElement.wireCheck
  by_cases hpos : 0 < mGlobal
  · simp only [if_pos hpos]
    apply together_allreduceSum .int64 hsum
    cases verdict with
    | ok _ => exact Spmd.Together.lift hverdict (Spmd.Together.done _)
    | error e => exact Spmd.Together.lift_stopped hverdict _
  · simp only [if_neg hpos]
    cases verdict with
    | ok _ => exact Spmd.Together.done _
    | error e =>
      obtain rfl : mGlobal = 0 := Nat.eq_zero_of_not_pos hpos
      cases hverdict ⟨0, hP⟩

variable {dev : Fin P → Device} {su : Fin P → ElemSetup} {st : Fin P → RankState}

theorem together_elemIteration {next : Fin P → RankState}
    (h : ByElement.elemIteration dev su st = .ok next) :
    Together (fun r => (RankPrograms.ByElement.elemIteration (dev r) (su r) (st r) :
        RankM P C RankState))
      (.returned next) := by
  obtain ⟨full, hfull, hnext⟩ := bind_eq_ok.mp h
  have hscores : Together (fun r =>
      (RankPrograms.ByElement.fullScores (su r) (st r) : RankM P C (List ℤ)))
      (.returned full) := by
    unfold ByElement.fullScores at hfull
    unfold RankPrograms.ByElement.fullScores
    by_cases hone : 1 < P
    · simp only [if_pos hone] at hfull ⊢
      exact together_allreduceSum .int32 hfull (Spmd.Together.done _)
    · simp only [if_neg hone] at hfull ⊢
      obtain rfl := Except.ok.inj hfull
      exact Spmd.Together.done _
  exact hscores.bind (Spmd.Together.lifted (onRanks_eq_ok_iff.mp hnext))

/-- One batch, whichever way it ends. -/
theorem together_batchStep {outcome : (Fin P → RankState) ⊕ (Fin P → RankState)}
    (h : ByElement.batchStep dev su st = .ok outcome) :
    Together (fun r => (RankPrograms.ByElement.batchStep (dev r) (su r) (st r) :
        RankM P C (RankState ⊕ RankState)))
      (.returned (Spmd.Together.spread outcome)) := by
  obtain ⟨final, hfinal, h⟩ := bind_eq_ok.mp h
  obtain ⟨done, hdone, h⟩ := bind_eq_ok.mp h
  have hdone := of_agree hdone
  have hbatch : Together (fun r => ((List.range kBatch).foldlM
        (fun st _ => RankPrograms.ByElement.elemIteration (dev r) (su r) st) (st r) :
        RankM P C RankState))
      (.returned final) :=
    Spmd.Together.foldlM (fun _ _ _ => together_elemIteration) _ hfinal
  apply hbatch.bind
  apply together_barrier
  cases done with
  | true =>
    obtain rfl := Except.ok.inj h
    simp only [hdone, if_true]
    exact Spmd.Together.done _
  | false =>
    obtain rfl := Except.ok.inj h
    simp only [hdone, Bool.false_eq_true, if_false]
    exact Spmd.Together.done _

end ByElement

end PatternSearch.LockStep
