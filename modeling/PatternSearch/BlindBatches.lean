import PatternSearch.ByElementRun

/-!
The device-resident ByElement loop with all of its buffers. Between the kernels of an iteration
the winner's range and the count of newly covered ids lie in device memory, next to the reduced
scores and the ArgMax result; all of them keep what an earlier iteration left there until they
are written again. The host enqueues iterations without a look at the outcome. An iteration that
finds the done flag raised rewrites these buffers and nothing else.
-/

namespace PatternSearch.BlindBatches

open Machine Collectives Csr WordBits Kernels Loops GreedyCover Selection HashMapping IdAssignment
  Setup Shards ByElement ElementSetup ByElementRun

variable {P : ℕ}

section Kernels

/-- `ElemWinnerInfo`: the commit kernel writes it, the update kernels after it read it. -/
structure ElemWinnerInfo where
  start : ℕ
  stop : ℕ
  newlyCount : ℕ

/-- The device buffers of one rank. -/
structure DeviceState where
  rank : RankState
  scoresSum : List ℤ
  argmaxResult : ℤ × ℕ
  winner : ElemWinnerInfo

/-- The reduced scores land in d_scores_sum_. -/
def reduceScores (su : Fin P → ElemSetup) (st : Fin P → DeviceState) :
    Except Fault (Fin P → DeviceState) := do
  let scoresSum ← allreduceScores su (fun r => (st r).rank.scoresPartial) fun r => (st r).scoresSum
  return fun r => { st r with scoresSum := scoresSum r }

def argMaxKernel (P : ℕ) (su : ElemSetup) (st : DeviceState) : Except Fault DeviceState := do
  let best ← argMax (dFullScores P st.rank.scoresPartial st.scoresSum) (toInt32 su.mGlobal)
  return { st with argmaxResult := best }

def elemCommitWinner (su : ElemSetup) (st : DeviceState) : Except Fault DeviceState := do
  let (rank, start, stop) ← commitWinner su st.argmaxResult st.rank
  return { st with rank, winner := { start, stop, newlyCount := 0 } }

/-- The kernels of an iteration are told apart by the order of their threads. -/
def elemBuildNewly (d : Device) (iteration : ℕ) (su : ElemSetup) (st : DeviceState) :
    Except Fault DeviceState := do
  let range := (su.sub.data.drop st.winner.start).take (st.winner.stop - st.winner.start)
  let out ← d.launch iteration 0 range (emitUncovered st.rank.covered)
    { ids := st.rank.newlyIds, count := st.winner.newlyCount }
  return { st with
    rank := { st.rank with newlyIds := out.ids }
    winner := { st.winner with newlyCount := out.count } }

def elemSetBits (d : Device) (iteration : ℕ) (st : DeviceState) : Except Fault DeviceState := do
  let covered ← d.launch iteration 1 (st.rank.newlyIds.take st.winner.newlyCount) writeBit
    st.rank.covered
  return { st with rank := { st.rank with covered } }

def elemScoreUpdate (d : Device) (iteration : ℕ) (su : ElemSetup) (st : DeviceState) :
    Except Fault DeviceState := do
  let threads := scoreThreads su.inv (st.rank.newlyIds.take st.winner.newlyCount)
  let scoresPartial ← d.launch iteration 2 threads (decrement toInt32) st.rank.scoresPartial
  return { st with rank := { st.rank with scoresPartial } }

/-- What follows the allreduce on the stream of one rank. -/
def rankKernels (d : Device) (su : ElemSetup) (st : DeviceState) : Except Fault DeviceState := do
  let iteration := st.rank.state.numSelected
  let found ← argMaxKernel P su st
  let committed ← elemCommitWinner su found
  let built ← elemBuildNewly d iteration su committed
  let marked ← elemSetBits d iteration built
  elemScoreUpdate d iteration su marked

/-- One iteration as the host enqueues it. -/
def enqueueIteration (dev : Fin P → Device) (su : Fin P → ElemSetup) (st : Fin P → DeviceState) :
    Except Fault (Fin P → DeviceState) := do
  let reduced ← reduceScores su st
  onRanks fun r => rankKernels (P := P) (dev r) (su r) (reduced r)

/-- `h_state.done` on every rank. -/
def hostDone (st : Fin P → DeviceState) : Except Fault Bool :=
  agree fun r => (st r).rank.state.done

/-- The host loop with a batch length of its own. -/
def hostLoop (dev : Fin P → Device) (su : Fin P → ElemSetup) (batchLength fuel : ℕ)
    (st : Fin P → DeviceState) : Except Fault (Fin P → DeviceState) :=
  loop (batch (enqueueIteration dev su) hostDone batchLength) fuel st

/-- The buffers before the first iteration; apart from the results they hold anything. -/
def startOn (dev : Fin P → Device) (su : Fin P → ElemSetup) (scoresSum : Fin P → List ℤ)
    (argmaxResult : Fin P → ℤ × ℕ) (winner : Fin P → ElemWinnerInfo) : Fin P → DeviceState :=
  fun r =>
    { rank := initialState (dev r) (su r)
      scoresSum := scoresSum r
      argmaxResult := argmaxResult r
      winner := winner r }

end Kernels

section Erase

variable {d : Device} {su : ElemSetup} {st : DeviceState} {best : ℤ × ℕ} {next : RankState}

/-- The update kernels touch neither the loop state nor the selected slots. -/
theorem updateShard_frame {iteration start stop : ℕ} {x : RankState}
    (h : updateShard d iteration su x start stop = .ok next) :
    next.state = x.state ∧ next.selectedSlots = x.selectedSlots := by
  unfold updateShard at h
  obtain ⟨out, -, h⟩ := bind_eq_ok.mp h
  obtain ⟨covered, -, h⟩ := bind_eq_ok.mp h
  obtain ⟨scoresPartial, -, h⟩ := bind_eq_ok.mp h
  obtain rfl := Except.ok.inj h
  exact ⟨rfl, rfl⟩

/-- What the scratch buffers hold beforehand has no say in what an iteration does to a rank. -/
theorem rankKernels_eq_ok
    (hbest : argMax (dFullScores P st.rank.scoresPartial st.scoresSum) (toInt32 su.mGlobal) =
      .ok best)
    (h : commitAndUpdate d su st.rank best = .ok next) :
    ∃ st', rankKernels (P := P) d su st = .ok st' ∧ st'.rank = next ∧ st'.argmaxResult = best := by
  obtain ⟨⟨rank, start, stop⟩, hcommit, hupdate⟩ := bind_eq_ok.mp h
  unfold updateShard at hupdate
  obtain ⟨out, hbuild, hupdate⟩ := bind_eq_ok.mp hupdate
  obtain ⟨covered, hbits, hupdate⟩ := bind_eq_ok.mp hupdate
  obtain ⟨scoresPartial, hscores, hupdate⟩ := bind_eq_ok.mp hupdate
  obtain rfl := Except.ok.inj hupdate
  unfold rankKernels argMaxKernel elemCommitWinner elemBuildNewly elemSetBits elemScoreUpdate
  simp only [hbest, hcommit, hbuild, hbits, hscores, ok_bind, pure_eq_ok]
  exact ⟨_, rfl, rfl, rfl⟩

variable {dev : Fin P → Device} {su : Fin P → ElemSetup} {st : Fin P → DeviceState}
  {next : Fin P → RankState}

/-- After the allreduce every rank's ArgMax reads what the model without buffers passes on. -/
theorem reduceScores_eq_ok (hP : 0 < P) {full : Fin P → List ℤ}
    (h : fullScores su (fun r => (st r).rank) = .ok full) :
    ∃ reduced, reduceScores su st = .ok reduced ∧ ∀ r, (reduced r).rank = (st r).rank ∧
      dFullScores P (reduced r).rank.scoresPartial (reduced r).scoresSum = full r := by
  unfold fullScores at h
  unfold reduceScores allreduceScores
  by_cases hone : 1 < P
  · rw [if_pos hone] at h ⊢
    rw [h]
    refine ⟨_, rfl, fun r => ⟨rfl, ?_⟩⟩
    exact if_neg (by omega)
  · rw [if_neg hone] at h ⊢
    obtain rfl := Except.ok.inj h
    refine ⟨_, rfl, fun r => ⟨rfl, ?_⟩⟩
    exact if_pos (by omega)

/-- The ranks see the results of an iteration, and which winner the commit kernel read. -/
structure Simulates (su : Fin P → ElemSetup) (st st' : Fin P → DeviceState)
    (next : Fin P → RankState) : Prop where
  rank : ∀ r, (st' r).rank = next r
  commit : ∀ r, ∃ x start stop,
    commitWinner (su r) (st' r).argmaxResult (st r).rank = .ok (x, start, stop) ∧
      (next r).state = x.state ∧ (next r).selectedSlots = x.selectedSlots

theorem enqueueIteration_eq_ok (hP : 0 < P)
    (h : elemIteration dev su (fun r => (st r).rank) = .ok next) :
    ∃ st', enqueueIteration dev su st = .ok st' ∧ Simulates su st st' next := by
  obtain ⟨full, hfull, hranks⟩ := bind_eq_ok.mp h
  obtain ⟨reduced, hreduce, hreduced⟩ := reduceScores_eq_ok hP hfull
  have hrank : ∀ r, ∃ x, rankKernels (P := P) (dev r) (su r) (reduced r) = .ok x ∧
      x.rank = next r ∧ ∃ y start stop,
        commitWinner (su r) x.argmaxResult (st r).rank = .ok (y, start, stop) ∧
          (next r).state = y.state ∧ (next r).selectedSlots = y.selectedSlots := by
    intro r
    obtain ⟨hsame, hscores⟩ := hreduced r
    obtain ⟨best, hbest, hcommit⟩ := bind_eq_ok.mp (onRanks_eq_ok_iff.mp hranks r)
    rw [← hscores] at hbest
    have hrun : commitAndUpdate (dev r) (su r) (reduced r).rank best = .ok (next r) := by
      rw [hsame]
      exact hcommit
    obtain ⟨x, hx, hnext, rfl⟩ := rankKernels_eq_ok hbest hrun
    obtain ⟨⟨y, start, stop⟩, hwinner, hupdate⟩ := bind_eq_ok.mp hcommit
    exact ⟨x, hx, hnext, y, start, stop, hwinner, updateShard_frame hupdate⟩
  obtain ⟨st', hst', hspec⟩ := exists_onRanks_eq_ok hrank
  refine ⟨st', ?_, fun r => (hspec r).1, fun r => (hspec r).2⟩
  unfold enqueueIteration
  rw [hreduce, ok_bind, hst']

end Erase

section Iteration

/-- The ids of a slot's part that the winner's part covers anew. -/
def newlyIn (su : ElemSetup) (covered : List Word) (winner q : PatchId) : List ElementId :=
  (su.sub.patch q).filter fun e => e ∈ su.sub.patch winner ∧ testBit covered e = false

/-- One rank over an iteration that selects. The winner of the ArgMax is appended and counted,
its part of the shard is marked, and every score in the shard is lowered by what that part
covers anew, the winner's own from the disabled score. -/
structure Commits (su : ElemSetup) (before after : DeviceState) : Prop where
  running : before.rank.state.done = false
  positive : 0 < after.argmaxResult.1
  state : after.rank.state =
    { coveredCount := before.rank.state.coveredCount + after.argmaxResult.1.toNat
      numSelected := before.rank.state.numSelected + 1
      done := decide (su.N ≤ before.rank.state.coveredCount + after.argmaxResult.1.toNat) }
  slots : after.rank.selectedSlots =
    before.rank.selectedSlots.set before.rank.state.numSelected after.argmaxResult.2
  covered : ∀ e, testBit after.rank.covered e =
    (testBit before.rank.covered e || decide (e ∈ su.sub.patch after.argmaxResult.2))
  scores : ∀ q < su.mGlobal, after.rank.scoresPartial.getD q 0 =
    (if q = after.argmaxResult.2 then kDisabledWireScore
      else before.rank.scoresPartial.getD q 0) -
        (newlyIn su before.rank.covered after.argmaxResult.2 q).length

/-- A commit that counts a slot has read a positive score. -/
theorem commitWinner_of_count {su : ElemSetup} {best : ℤ × ℕ} {x y : RankState} {start stop : ℕ}
    (h : commitWinner su best x = .ok (y, start, stop)) (hrunning : x.state.done = false)
    (hcount : y.state.numSelected ≠ x.state.numSelected) :
    0 < best.1 ∧
      y.state =
        { coveredCount := x.state.coveredCount + best.1.toNat
          numSelected := x.state.numSelected + 1
          done := decide (su.N ≤ x.state.coveredCount + best.1.toNat) } ∧
      y.selectedSlots = x.selectedSlots.set x.state.numSelected best.2 ∧
      x.state.numSelected < x.selectedSlots.length := by
  unfold commitWinner at h
  rw [if_neg (by rw [hrunning]; exact Bool.false_ne_true)] at h
  split_ifs at h with hpos hroom
  · obtain ⟨rfl, -⟩ := Prod.mk.inj (Except.ok.inj h)
    exact absurd rfl hcount
  · obtain ⟨rfl, -⟩ := Prod.mk.inj (Except.ok.inj h)
    exact ⟨not_le.mp hpos, rfl, rfl, hroom.1⟩

variable {N : ℕ} {rows : Fin P → List (List ElementId)} {globalIds : Fin P → List PatchId}
  {t : Progress} {i : ℕ} {r : Fin P}

/-- The rows of a shard hold what the sets of the slots have in it. -/
theorem mem_patch_iff (hP : 0 < P) (h : Loaded N rows globalIds) {q : ℕ} {e : ElementId} :
    e ∈ (shardCsr N rows r).patch q ↔ e ∈ shardSets N P r (rowSet (gather rows)) q := by
  rw [← toFinset_patch_shardCsr hP h, List.mem_toFinset]

/-- The distance of the gains before and after is what the winner's part covers anew. -/
theorem length_newlyIn (hP : 0 < P) (h : Loaded N rows globalIds) (r : Fin P)
    {C : Finset ElementId} {covered : List Word} {n : ℕ} (hC : Represents covered n C) (i q : ℕ) :
    gain (shardSets N P r (rowSet (gather rows)))
        (C ∪ shardSets N P r (rowSet (gather rows)) i) q +
      (newlyIn (elemSetup N rows globalIds r) covered i q).length =
        gain (shardSets N P r (rowSet (gather rows))) C q := by
  have hnodup : (newlyIn (elemSetup N rows globalIds r) covered i q).Nodup :=
    (nodup_patch_shardCsr hP h r q).filter _
  have hset : (newlyIn (elemSetup N rows globalIds r) covered i q).toFinset =
      shardSets N P r (rowSet (gather rows)) q ∩
        (shardSets N P r (rowSet (gather rows)) i \ C) := by
    ext e
    simp only [newlyIn, elemSetup, List.mem_toFinset, List.mem_filter, mem_patch_iff hP h,
      hC.test_eq, decide_eq_true_eq, decide_eq_false_iff_not, Finset.mem_inter,
      Finset.mem_sdiff]
  rw [← List.toFinset_card_of_nodup hnodup, hset]
  exact gain_union_add C _ q

/-- What the commit kernel has read is what the results of the iteration show. -/
theorem commits_of_rescored (hP : 0 < P) (h : Loaded N rows globalIds) {st st' : DeviceState}
    {finished : Bool} (hst : RankStands N rows t false r st.rank)
    (hnext : RankStands N rows (t.pick (rowSet (gather rows)) i) finished r st'.rank)
    (hrescored : Rescored N rows t i r st.rank.scoresPartial st'.rank.scoresPartial)
    {x : RankState} {start stop : ℕ}
    (hcommit : commitWinner (elemSetup N rows globalIds r) st'.argmaxResult st.rank =
      .ok (x, start, stop))
    (hstate : st'.rank.state = x.state) (hslots : st'.rank.selectedSlots = x.selectedSlots) :
    Commits (elemSetup N rows globalIds r) st st' := by
  have hbefore : st.rank.state.numSelected = t.selected.length := by rw [hst.state_eq]
  have hafter : st'.rank.state.numSelected = t.selected.length + 1 := by
    rw [hnext.state_eq]
    exact List.length_append
  have hrunning : st.rank.state.done = false := by rw [hst.state_eq]
  obtain ⟨hpos, hcount, hset, hroom⟩ := commitWinner_of_count hcommit hrunning
    (by rw [← hstate]; omega)
  rw [hbefore] at hset hroom
  -- The slot the results show is the one that has been appended.
  have hwinner : st'.argmaxResult.2 = i := by
    have htake := hnext.slots_eq
    simp only [Progress.pick, List.length_append, List.length_singleton] at htake
    rw [hslots, hset, List.take_succ_eq_append_getElem (by rw [List.length_set]; exact hroom),
      List.take_set_of_le (Nat.le_refl _), hst.slots_eq, List.getElem_set_self] at htake
    exact List.singleton_injective (List.append_cancel_left htake)
  subst hwinner
  constructor
  case running => exact hrunning
  case positive => exact hpos
  case state => exact hstate.trans hcount
  case slots => rw [hslots, hset, hbefore]
  case covered =>
    intro e
    rw [hnext.covered.test_eq, hst.covered.test_eq, ← Bool.decide_or]
    simp only [elemSetup, mem_patch_iff hP h, Progress.pick, localPart_union, Finset.mem_union]
    rfl
  case scores =>
    intro q hq
    have hvalue := hrescored q hq
    have hnewly := length_newlyIn hP h r hst.covered st'.argmaxResult.2 q
    unfold kDisabledWireScore
    omega

end Iteration

section Run

variable {N : ℕ} {rows : Fin P → List (List ElementId)} {globalIds : Fin P → List PatchId}
  (dev : Fin P → Device)

/-- The flag is up exactly when everything is covered. -/
def Reached (N : ℕ) (rows : Fin P → List (List ElementId)) (t : Progress)
    (st : Fin P → DeviceState) : Prop :=
  Stands N rows t (decide (N ≤ t.covered.card)) fun r => (st r).rank

theorem Reached.done_eq {t : Progress} {st : Fin P → DeviceState} (h : Reached N rows t st)
    (r : Fin P) : (st r).rank.state.done = decide (N ≤ t.covered.card) := by
  rw [(h.ranks r).state_eq]

/-- Where something is left to cover, some slot still gains. -/
theorem exists_gain {t : Progress}
    (hoccurs : ∀ e < N, ∃ s < (gather rows).length, e ∈ rowSet (gather rows) s)
    (hleft : t.covered.card < N) :
    ∃ s ∈ List.range (gather rows).length, gain (rowSet (gather rows)) t.covered s ≠ 0 := by
  obtain ⟨e, he, hnew⟩ := Finset.exists_mem_notMem_of_card_lt_card
    (show t.covered.card < (Finset.range N).card by rwa [Finset.card_range])
  obtain ⟨s, hs, hmem⟩ := hoccurs e (Finset.mem_range.mp he)
  refine ⟨s, List.mem_range.mpr hs, ?_⟩
  rw [Ne, gain_eq_zero_iff]
  exact fun hsub => hnew (hsub hmem)

variable (hP : 0 < P) (h : Loaded N rows globalIds) (hM : 0 < (gather rows).length)
  (hoccurs : ∀ e < N, ∃ s < (gather rows).length, e ∈ rowSet (gather rows) s)
include hP h hM hoccurs

/-- The step lemma: idle once the flag is up, a commit on every rank before that. -/
theorem enqueueIteration_spec {t : Progress} {st : Fin P → DeviceState}
    (hst : Reached N rows t st) :
    ∃ t' st', enqueueIteration dev (elemSetup N rows globalIds) st = .ok st' ∧
      elemIteration dev (elemSetup N rows globalIds) (fun r => (st r).rank) =
        .ok (fun r => (st' r).rank) ∧
      Reached N rows t' st' ∧
      ((N ≤ t.covered.card ∧ t' = t ∧ ∀ r, (st' r).rank = (st r).rank) ∨
        (t.covered.card < N ∧ ∀ r, Commits (elemSetup N rows globalIds r) (st r) (st' r))) := by
  obtain ⟨next, hstep, houtcome⟩ := elemIteration_outcome dev hP h hM hst
  obtain ⟨st', hrun, hsim⟩ := enqueueIteration_eq_ok hP hstep
  have hnext : (fun r => (st' r).rank) = next := funext hsim.rank
  generalize hfinished : decide (N ≤ t.covered.card) = finished at houtcome
  cases houtcome with
  | idle hsame =>
    refine ⟨t, st', hrun, hnext ▸ hstep, ?_, Or.inl ⟨of_decide_eq_true hfinished, rfl, fun r => ?_⟩⟩
    · unfold Reached
      rw [hnext, hsame]
      exact hst
    · rw [hsim.rank, hsame]
  | stop hnone _ _ =>
    obtain ⟨s, hs, hgain⟩ := exists_gain hoccurs
      (not_le.mp (of_decide_eq_false hfinished))
    exact absurd (hnone s hs) hgain
  | pick i _ _ _ hstands hrescored =>
    refine ⟨_, st', hrun, hnext ▸ hstep, hnext ▸ hstands,
      Or.inr ⟨not_le.mp (of_decide_eq_false hfinished), fun r => ?_⟩⟩
    obtain ⟨x, start, stop, hcommit, hstate, hslots⟩ := hsim.commit r
    have hbefore := hst.ranks r
    rw [hfinished] at hbefore
    rw [← hsim.rank] at hstate hslots
    have hafter := hstands.ranks r
    rw [← hsim.rank] at hafter
    have hscores := hrescored r
    rw [← hsim.rank] at hscores
    exact commits_of_rescored hP h hbefore hafter hscores hcommit hstate hslots

/-- The state after each number of enqueued iterations. -/
theorem exists_run {start : Fin P → DeviceState} (hstart : Reached N rows Progress.start start) :
    ∃ run : ℕ → Fin P → DeviceState, run 0 = start ∧
      ∀ k, (∃ t, Reached N rows t (run k)) ∧
        enqueueIteration dev (elemSetup N rows globalIds) (run k) = .ok (run (k + 1)) := by
  have hstep : ∀ s : { st : Fin P → DeviceState // ∃ t, Reached N rows t st },
      ∃ s' : { st : Fin P → DeviceState // ∃ t, Reached N rows t st },
        enqueueIteration dev (elemSetup N rows globalIds) s.1 = .ok s'.1 := by
    rintro ⟨st, t, hst⟩
    obtain ⟨t', st', hrun, -, hst', -⟩ := enqueueIteration_spec dev hP h hM hoccurs hst
    exact ⟨⟨st', t', hst'⟩, hrun⟩
  choose next hnext using hstep
  refine ⟨fun k => (next^[k] ⟨start, _, hstart⟩).1, rfl, fun k => ⟨(next^[k] _).2, ?_⟩⟩
  dsimp only
  rw [Function.iterate_succ_apply']
  exact hnext _

end Run

section Whole

/-- A run of enqueued iterations whose flags go up in iteration n. Every iteration up to there,
the one that raises the flags included, selects on every rank; none after it leaves a trace in
the results. -/
structure EndsIn (dev : Fin P → Device) (su : Fin P → ElemSetup) (n : ℕ)
    (run : ℕ → Fin P → DeviceState) : Prop where
  enqueued : ∀ k, enqueueIteration dev su (run k) = .ok (run (k + 1))
  results : ∀ k, elemIteration dev su (fun r => (run k r).rank) = .ok fun r => (run (k + 1) r).rank
  done_eq : ∀ k r, (run k r).rank.state.done = decide (n ≤ k)
  commits : ∀ k < n, ∀ r, Commits (su r) (run k r) (run (k + 1) r)
  selected : ∀ k ≤ n, ∀ r, (run k r).rank.state.numSelected = k
  idle : ∀ k, n ≤ k → ∀ r, (run k r).rank = (run n r).rank

variable {dev : Fin P → Device} {su : Fin P → ElemSetup} {n : ℕ} {run : ℕ → Fin P → DeviceState}

theorem EndsIn.hostDone_eq (hP : 0 < P) (h : EndsIn dev su n run) (k : ℕ) :
    hostDone (run k) = .ok (decide (n ≤ k)) := by
  have hflags : (fun r => (run k r).rank.state.done) = fun _ : Fin P => decide (n ≤ k) :=
    funext fun r => h.done_eq k r
  rw [hostDone, hflags, agree_const hP]

/-- The loop that looks at the flags after every iteration, and leaves as soon as they are up. -/
def stopAtDone (dev : Fin P → Device) (su : Fin P → ElemSetup) (fuel : ℕ)
    (st : Fin P → DeviceState) : Except Fault (Fin P → DeviceState) :=
  loop (fun st => do
    let next ← enqueueIteration dev su st
    let done ← hostDone next
    return if done then .inr next else .inl next) fuel st

theorem EndsIn.stopAtDone_eq (hP : 0 < P) (h : EndsIn dev su n run) (hn : 0 < n) (fuel : ℕ) :
    stopAtDone dev su fuel (run 0) = if n ≤ fuel then .ok (run n) else .error .outOfFuel := by
  have hstep : stopAtDone dev su fuel (run 0) =
      loop (batch (enqueueIteration dev su) hostDone 1) fuel (run 0) := by
    unfold stopAtDone batch repeated
    simp only [List.range_one, List.foldlM_cons, List.foldlM_nil, bind_pure]
  have hbatches := loop_batch run h.enqueued hostDone (h.hostDone_eq hP) hn Nat.one_pos fuel
  rw [Nat.add_sub_cancel, Nat.div_one, Nat.mul_one] at hbatches
  rw [hstep, hbatches]

theorem EndsIn.hostLoop_eq (hP : 0 < P) (h : EndsIn dev su n run) (hn : 0 < n) {size : ℕ}
    (hsize : 0 < size) : ∃ final, (∀ r, (final r).rank = (run n r).rank) ∧
      ∀ fuel, hostLoop dev su size fuel (run 0) =
        if (n + size - 1) / size ≤ fuel then .ok final else .error .outOfFuel := by
  have hceil : n ≤ (n + size - 1) / size * size := by
    have hmod := Nat.div_add_mod (n + size - 1) size
    have hlt := Nat.mod_lt (n + size - 1) hsize
    rw [Nat.mul_comm] at hmod
    omega
  exact ⟨_, h.idle _ hceil, loop_batch run h.enqueued hostDone (h.hostDone_eq hP) hn hsize⟩

/-- With the batch length of the program these are the batches of `select`. -/
theorem EndsIn.select_eq (hP : 0 < P) (h : EndsIn dev su n run) (hn : 0 < n)
    (hsome : ∀ r, ¬ ((su r).mGlobal = 0 ∨ (su r).N = 0))
    (hstart : ∀ r, (run 0 r).rank = initialState (dev r) (su r)) {fuel : ℕ}
    (hfuel : (n + kBatch - 1) / kBatch ≤ fuel) :
    select dev fuel su = onRanks fun r => drain (su r) (run n r).rank := by
  have hagree : agree (fun r => decide ((su r).mGlobal = 0 ∨ (su r).N = 0)) = .ok false :=
    agree_eq_false hP fun r => decide_eq_false (hsome r)
  have hbatches := loop_batch (fun k r => (run k r).rank) h.results
    (fun st => agree fun r => (st r).state.done) (h.hostDone_eq hP) hn
    (show 0 < kBatch by decide) fuel
  rw [if_pos hfuel] at hbatches
  have hstates : (fun r => initialState (dev r) (su r)) = fun r => (run 0 r).rank :=
    funext fun r => (hstart r).symm
  have hrun : loop (batchStep dev su) fuel (fun r => initialState (dev r) (su r)) =
      .ok fun r => (run n r).rank := by
    rw [hstates]
    refine hbatches.trans (congrArg Except.ok (funext fun r => h.idle _ ?_ r))
    unfold kBatch
    omega
  unfold select
  rw [hagree, ok_bind, if_neg Bool.false_ne_true, hrun, ok_bind]

end Whole

section Ends

variable {N : ℕ} {rows : Fin P → List (List ElementId)} {globalIds : Fin P → List PatchId}
  {dev : Fin P → Device}

theorem Reached.length_selected_le {t : Progress} {st : Fin P → DeviceState}
    (h : Reached N rows t st) : t.selected.length ≤ (gather rows).length := by
  rw [← List.toFinset_card_of_nodup h.selected_nodup, ← Finset.card_range (gather rows).length]
  apply Finset.card_le_card
  intro s hs
  exact Finset.mem_range.mpr (h.selected_lt s (List.mem_toFinset.mp hs))

/-- A run in which every iteration is idle on all ranks or selects on all ranks. -/
structure Alternates (dev : Fin P → Device) (su : Fin P → ElemSetup)
    (run : ℕ → Fin P → DeviceState) : Prop where
  enqueued : ∀ k, enqueueIteration dev su (run k) = .ok (run (k + 1))
  results : ∀ k, elemIteration dev su (fun r => (run k r).rank) = .ok fun r => (run (k + 1) r).rank
  either : ∀ k,
    (∀ r, (run k r).rank.state.done = true ∧ (run (k + 1) r).rank = (run k r).rank) ∨
      ∀ r, Commits (su r) (run k r) (run (k + 1) r)

namespace Alternates

variable {su : Fin P → ElemSetup} {run : ℕ → Fin P → DeviceState}

/-- Where a flag is down all ranks select. -/
theorem commits (h : Alternates dev su run) {k : ℕ}
    (hdown : ¬ ∀ r, (run k r).rank.state.done = true) (r : Fin P) :
    Commits (su r) (run k r) (run (k + 1) r) := by
  rcases h.either k with hidle | hcommits
  · exact absurd (fun s => (hidle s).1) hdown
  · exact hcommits r

/-- As long as the flags are down every iteration adds one slot. -/
theorem selected (h : Alternates dev su run)
    (hzero : ∀ r, (run 0 r).rank.state.numSelected = 0) (k : ℕ)
    (hdown : ∀ j < k, ¬ ∀ r, (run j r).rank.state.done = true) (r : Fin P) :
    (run k r).rank.state.numSelected = k := by
  induction k with
  | zero => exact hzero r
  | succ k ih =>
    have hprev := ih fun j hj => hdown j (by omega)
    rw [(h.commits (hdown k (by omega)) r).state, hprev]

/-- Once the flags are up the results stay as they are. -/
theorem idle (h : Alternates dev su run) {n : ℕ}
    (hup : ∀ r, (run n r).rank.state.done = true) {k : ℕ} (hk : n ≤ k) (r : Fin P) :
    (run k r).rank = (run n r).rank := by
  induction k, hk using Nat.le_induction with
  | base => rfl
  | succ k hk ih =>
    rcases h.either k with hidle | hcommits
    · exact (hidle r).2.trans ih
    · have hdown := (hcommits r).running
      rw [ih, hup r] at hdown
      cases hdown

/-- The first iteration that leaves the flags up is where the run ends. -/
theorem endsIn (h : Alternates dev su run)
    (hzero : ∀ r, (run 0 r).rank.state.numSelected = 0) {n : ℕ}
    (hup : ∀ r, (run n r).rank.state.done = true)
    (hdown : ∀ j < n, ¬ ∀ r, (run j r).rank.state.done = true) : EndsIn dev su n run where
  enqueued := h.enqueued
  results := h.results
  done_eq k r := by
    by_cases hk : n ≤ k
    · rw [decide_eq_true hk, h.idle hup hk, hup r]
    · rw [decide_eq_false hk, (h.commits (hdown k (not_le.mp hk)) r).running]
  commits k hk := h.commits (hdown k hk)
  selected k hk := h.selected hzero k fun j hj => hdown j (by omega)
  idle k hk := h.idle hup hk

end Alternates

variable (hP : 0 < P) (h : Loaded N rows globalIds) (hM : 0 < (gather rows).length)
  (hoccurs : ∀ e < N, ∃ s < (gather rows).length, e ∈ rowSet (gather rows) s)
include hP h hM hoccurs

theorem alternates_of_reached {run : ℕ → Fin P → DeviceState}
    (hrun : ∀ k, (∃ t, Reached N rows t (run k)) ∧
      enqueueIteration dev (elemSetup N rows globalIds) (run k) = .ok (run (k + 1))) :
    Alternates dev (elemSetup N rows globalIds) run := by
  have hstep : ∀ k, ∃ t, Reached N rows t (run k) ∧
      elemIteration dev (elemSetup N rows globalIds) (fun r => (run k r).rank) =
        .ok (fun r => (run (k + 1) r).rank) ∧
      ((N ≤ t.covered.card ∧ ∀ r, (run (k + 1) r).rank = (run k r).rank) ∨
        ∀ r, Commits (elemSetup N rows globalIds r) (run k r) (run (k + 1) r)) := by
    intro k
    obtain ⟨⟨t, ht⟩, henqueued⟩ := hrun k
    obtain ⟨t', st', hst', hresults, -, hcases⟩ :=
      enqueueIteration_spec dev hP h hM hoccurs ht
    obtain rfl := Except.ok.inj (henqueued.symm.trans hst')
    exact ⟨t, ht, hresults, hcases.imp (fun hidle => ⟨hidle.1, hidle.2.2⟩) And.right⟩
  refine ⟨fun k => (hrun k).2, fun k => (hstep k).choose_spec.2.1, fun k => ?_⟩
  obtain ⟨t, ht, -, hcases⟩ := hstep k
  rcases hcases with ⟨hfull, hsame⟩ | hcommits
  · exact Or.inl fun r => ⟨(ht.done_eq r).trans (decide_eq_true hfull), hsame r⟩
  · exact Or.inr hcommits

/-- From the initial state the flags go up in some iteration: every selection takes a slot of
its own. -/
theorem exists_endsIn (dev : Fin P → Device) (hN : 0 < N) {start : Fin P → DeviceState}
    (hstart : Reached N rows Progress.start start) :
    ∃ n run, 0 < n ∧ run 0 = start ∧ EndsIn dev (elemSetup N rows globalIds) n run := by
  obtain ⟨run, hzero, hrun⟩ := exists_run dev hP h hM hoccurs hstart
  have halternates := alternates_of_reached hP h hM hoccurs hrun
  have hnone : ∀ r, (run 0 r).rank.state.numSelected = 0 := by
    intro r
    rw [hzero, (hstart.ranks r).state_eq]
    rfl
  have hends : ∃ n, ∀ r, (run n r).rank.state.done = true := by
    by_contra hnever
    obtain ⟨⟨t, ht⟩, -⟩ := hrun ((gather rows).length + 1)
    have hcount := halternates.selected hnone ((gather rows).length + 1)
      (fun j _ hup => hnever ⟨j, hup⟩) ⟨0, hP⟩
    have hle := ht.length_selected_le
    rw [(ht.ranks ⟨0, hP⟩).state_eq] at hcount
    dsimp only at hcount
    omega
  have hpos : 0 < Nat.find hends := by
    rw [Nat.find_pos]
    intro hup
    have hdown := hstart.done_eq ⟨0, hP⟩
    rw [← hzero, hup, Progress.start, Finset.card_empty] at hdown
    have hfull := of_decide_eq_true hdown.symm
    omega
  exact ⟨Nat.find hends, run, hpos, hzero, halternates.endsIn hnone (Nat.find_spec hends)
    fun j hj => Nat.find_min hends hj⟩

end Ends

/-- Blind batching changes nothing. Whatever the scratch buffers hold at first, the flags go up
on every rank in the iteration that covers the last element, which still applies its updates;
no iteration before it stops for want of a positive score, none after it changes a result, and
with any batch length the host leaves with these results after the first batch that reaches it. -/
theorem batching_changes_nothing (hP : 0 < P) {rawPatches : Fin P → List (List Hash)}
    {globalIds : Fin P → List PatchId}
    (hids : ∀ r, (globalIds r).length = (rawPatches r).length) {m : Fin P → IdMappedPatches}
    (hmap : mapHashesToElementIds rawPatches = .ok m) {su : Fin P → ElemSetup}
    (hprepare : prepare m globalIds = .ok su) (hN : ∀ r, 0 < (su r).N)
    (hM : ∀ r, 0 < (su r).mGlobal) (dev : Fin P → Device) (scoresSum : Fin P → List ℤ)
    (argmaxResult : Fin P → ℤ × ℕ) (winner : Fin P → ElemWinnerInfo) :
    ∃ n run, 0 < n ∧ run 0 = startOn dev su scoresSum argmaxResult winner ∧
      EndsIn dev su n run ∧
      (∀ fuel, stopAtDone dev su fuel (run 0) =
        if n ≤ fuel then .ok (run n) else .error .outOfFuel) ∧
      ∀ batchLength, 0 < batchLength → ∃ final, (∀ r, (final r).rank = (run n r).rank) ∧
        ∀ fuel, hostLoop dev su batchLength fuel (run 0) =
          if (n + batchLength - 1) / batchLength ≤ fuel then .ok final
          else .error .outOfFuel := by
  obtain ⟨-, rfl⟩ := (mapHashes_eq_ok_iff hP m).mp hmap
  obtain ⟨hload, rfl⟩ := loaded_of_prepare hP hids hprepare
  have hstart : Reached (globalUniq rawPatches).length (idRows rawPatches) Progress.start
      (startOn dev (elemSetup (globalUniq rawPatches).length (idRows rawPatches) globalIds)
        scoresSum argmaxResult winner) := by
    have hdown : decide ((globalUniq rawPatches).length ≤ Progress.start.covered.card) =
        false := by
      rw [decide_eq_false_iff_not, Progress.start, Finset.card_empty, not_le]
      exact hN ⟨0, hP⟩
    unfold Reached
    rw [hdown]
    exact stands_initialState dev hP hload
  obtain ⟨n, run, hn, hzero, hends⟩ := exists_endsIn hP hload (hM ⟨0, hP⟩)
    (fun e he => Incidence.exists_mem_rowSet_idRows he) dev (hN ⟨0, hP⟩) hstart
  exact ⟨n, run, hn, hzero, hends, hends.stopAtDone_eq hP hn, fun size hsize =>
    hends.hostLoop_eq hP hn hsize⟩

/-- Two ranks whose scratch buffers hold leftovers: batches of three iterations against the loop
that looks at the flags after each. -/
theorem batching_changes_nothing_two_ranks :
    ∃ m su n run final, mapHashesToElementIds ![[[5, 7], [7]], [[9]]] = .ok m ∧
      prepare m ![[10, 20], [30]] = .ok su ∧ 0 < n ∧
      run 0 = startOn (fun _ : Fin 2 => Device.inOrder) su (fun _ => [-1]) (fun _ => (0, 7))
        (fun _ => { start := 3, stop := 9, newlyCount := 5 }) ∧
      EndsIn (fun _ => Device.inOrder) su n run ∧
      stopAtDone (fun _ => Device.inOrder) su n (run 0) = .ok (run n) ∧
      hostLoop (fun _ => Device.inOrder) su 3 n (run 0) = .ok final ∧
      ∀ r, (final r).rank = (run n r).rank := by
  have hmap : mapHashesToElementIds ![[[5, 7], [7]], [[9]]] =
      .ok (mapped ![[[5, 7], [7]], [[9]]]) :=
    (mapHashes_eq_ok_iff (by decide) _).mpr ⟨countsFit_of_total_le (by decide), rfl⟩
  have hprepare : prepare (mapped ![[[5, 7], [7]], [[9]]]) ![[10, 20], [30]] =
      .ok (elemSetup (globalUniq ![[[5, 7], [7]], [[9]]]).length
        (idRows ![[[5, 7], [7]], [[9]]]) ![[10, 20], [30]]) := by
    rw [prepare_eq (by decide) N_mapped idPatches_mapped
      (incidencesFit_idRows (by decide) (by decide) (by decide)) (by decide)]
    have hnone : firstOversized (idRows ![[[5, 7], [7]], [[9]]]) = none := by decide +kernel
    rw [hnone]
  obtain ⟨n, run, hn, hzero, hends, hstop, hbatches⟩ := batching_changes_nothing (P := 2)
    (by decide) (by decide) hmap hprepare (fun r => by decide +kernel +revert)
    (fun r => by decide +kernel +revert) (fun _ => Device.inOrder) (fun _ => [-1])
    (fun _ => (0, 7)) (fun _ => { start := 3, stop := 9, newlyCount := 5 })
  obtain ⟨final, hsame, hloop⟩ := hbatches 3 (by decide)
  refine ⟨_, _, n, run, final, hmap, hprepare, hn, hzero, hends, ?_, ?_, hsame⟩
  · rw [hstop, if_pos (Nat.le_refl n)]
  · rw [hloop, if_pos (by omega)]

end PatternSearch.BlindBatches
