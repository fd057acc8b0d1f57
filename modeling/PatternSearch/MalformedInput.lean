import PatternSearch.StatsInStep

/-!
Input that fails the checks of one rank. The checks of the public calls are local, so one rank
may throw while the others go on. They come as far as the gather of the samples: without the
rank that threw nobody can be told what it would have sent, and the job is taken down.
-/

namespace PatternSearch.MalformedInput

open Machine Collectives Csr Kernels HashMapping Setup Selector PatternStats Spmd RankCalls
  Interleaving AnyOrder StatsInStep

variable {P : ℕ} {C α : Type} {Delivers : Library P (Collective P C) Collective.Reply}

section Gather

/-- The first call of every rank that does not stop is the gather of the samples. -/
def GathersSamples (progs : Fin P → RankM P C α) : Prop :=
  ∃ send : Fin P → List Hash, (∀ r, (send r).length = kSamplesPerRank) ∧
    ∀ r op next, progs r = .call op next →
      op = .allgatherv .hash (send r) fun _ => kSamplesPerRank

/-- A rank that stops in front of the gather keeps the others inside it. -/
theorem heldInFirstCall (hserves : Serves Delivers Matches) {progs : Fin P → RankM P C α}
    (hgathers : GathersSamples progs) {q : Fin P} {e : Fault} (hq : progs q = .stop e) :
    HeldInFirstCall Delivers progs := by
  obtain ⟨send, hlen, hfirst⟩ := hgathers
  intro r op next hr posted hposted reply hdelivers
  -- Rank q might have sent either of two samples, with different replies.
  let sent (v : Hash) : Fin P → List Hash :=
    Function.update send q (List.replicate kSamplesPerRank v)
  have hsent : ∀ v, sent v q = List.replicate kSamplesPerRank v := fun v =>
    Function.update_self ..
  have hother : ∀ v s, (∃ op next, progs s = .call op next) → sent v s = send s := by
    rintro v s ⟨op, next, hs⟩
    apply Function.update_of_ne
    rintro rfl
    rw [hq] at hs
    cases hs
  have hlengths : ∀ v s, (sent v s).length = kSamplesPerRank := by
    intro v s
    by_cases hs : s = q
    · rw [hs, hsent, List.length_replicate]
    · rw [show sent v s = send s from Function.update_of_ne hs ..]
      exact hlen s
  have hreply : ∀ v, HEq reply (gather (sent v)) := by
    intro v
    have hmatch := Matches.allgatherv (C := C) .hash (sent v) (fun _ _ => kSamplesPerRank)
      fun _ s => (hlengths v s).symm
    refine hserves.heq_reply hmatch ?_ ?_ hdelivers
    · intro s op' hop'
      obtain ⟨next', hs⟩ := hposted s op' hop'
      rw [hother v s ⟨op', next', hs⟩]
      exact hfirst s op' next' hs
    · rw [hother v r ⟨op, next, hr⟩]
      exact hfirst r op next hr
  have hsame : gather (sent 0) = gather (sent 1) :=
    eq_of_heq ((hreply 0).symm.trans (hreply 1))
  have hentry : ∀ v, (gather (sent v)).getD
      (displacement (fun _ : Fin P => kSamplesPerRank) q + 0) 0 = v := by
    intro v
    have hget := getD_gather (sent v) q (p := 0) (by rw [hlengths]; decide) 0
    simp only [hlengths] at hget
    rw [hget, hsent]
    rfl
  have hzero := hentry 0
  rw [hsame, hentry 1] at hzero
  exact absurd hzero (by decide)

end Gather

section FirstCalls

variable {e : Fault}

/-- The mapping gathers samples first, unless the rank is alone. -/
theorem mapping_gathers (hP : 1 < P) (rank : Fin P) (rawPatches : List (List Hash)) :
    ∃ next, (RankPrograms.mapHashesToElementIds rank rawPatches : RankM P C IdMappedPatches) =
      .call (.allgatherv .hash (localSample (localUniq rawPatches)) fun _ => kSamplesPerRank)
        next := by
  unfold RankPrograms.mapHashesToElementIds RankPrograms.computeSplitters
  rw [if_neg (not_le.mpr hP)]
  exact ⟨_, rfl⟩

/-- A computation in front of the gather. -/
theorem compute_gathers {β : Type} {x : Except Fault β} {b : β} (hx : x = .ok b)
    {f : β → RankM P C α} {sample : List Hash}
    (h : ∃ next, f b = .call (.allgatherv .hash sample fun _ => kSamplesPerRank) next) :
    ∃ next, compute x >>= f = .call (.allgatherv .hash sample fun _ => kSamplesPerRank) next := by
  rw [hx]
  exact h

/-- Like the mapping, what is done with its result gathers samples first. -/
theorem bind_gathers {p : RankM P C α} {β : Type} (f : α → RankM P C β) {sample : List Hash}
    (h : ∃ next, p = .call (.allgatherv .hash sample fun _ => kSamplesPerRank) next) :
    ∃ next, p >>= f = .call (.allgatherv .hash sample fun _ => kSamplesPerRank) next := by
  obtain ⟨next, rfl⟩ := h
  exact ⟨_, rfl⟩

theorem select_gathers (hP : 1 < P) (mode : PartitionMode) (d : Device) (fuel : ℕ) (rank : Fin P)
    {rawPatches : List (List Hash)} {globalIds : List PatchId}
    (hids : globalIds.length = rawPatches.length) :
    ∃ next, (RankPrograms.patchSelect mode d fuel rank rawPatches globalIds :
        RankM P C (ℕ × PatchSelection)) =
      .call (.allgatherv .hash (localSample (localUniq rawPatches)) fun _ => kSamplesPerRank)
        next := by
  apply compute_gathers (if_neg (not_not.mpr hids))
  cases mode with
  | byElement => exact bind_gathers _ (mapping_gathers hP rank rawPatches)
  | byPatch => exact bind_gathers _ (mapping_gathers hP rank rawPatches)

theorem stats_gathers [LinearOrder C] [Zero C] (hP : 1 < P) (d : Device) (rank : Fin P)
    {patches : List (List Hash)} {coords : List (List (Point (Option C)))} (k : ℕ)
    {located : LocatedPatches C} (hinput : checkInput patches coords = .ok located)
    (hcount : located.flatten.length ≤ intMax) :
    ∃ sample : List Hash, sample.length = kSamplesPerRank ∧ ∃ next,
      RankPrograms.patternStats d rank patches coords k =
        .call (.allgatherv .hash sample fun _ => kSamplesPerRank) next := by
  have hitems : 0 ≤ toInt32 located.flatten.length := by
    rw [StatsStages.toInt32_natCast hcount]
    exact Int.natCast_nonneg _
  refine ⟨localSample (localUniq (located.map fun patch => patch.map Prod.fst)),
    length_localSample _, ?_⟩
  apply compute_gathers hinput
  apply compute_gathers (StatsStages.reduceOccurrences_eq_ok hitems)
  exact bind_gathers _ (mapping_gathers hP rank _)

end FirstCalls

section Orders

/-- If every rank either fails its own check or comes to the gather of the samples, and one
fails, no order of events brings a rank past the gather. -/
theorem gathers_or_stops_in_any_order (hserves : Serves Delivers Matches)
    {progs : Fin P → RankM P C α} (bad : Fin P → Fault → Prop)
    (hgood : 1 < P → ∀ r, (∃ e, bad r e ∧ progs r = .stop e) ∨
      ∃ sample : List Hash, sample.length = kSamplesPerRank ∧ ∃ next,
        progs r = .call (.allgatherv .hash sample fun _ => kSamplesPerRank) next)
    {q : Fin P} {e : Fault} (hbad : bad q e) (hq : progs q = .stop e) {n : ℕ}
    {job : Job P (Collective P C) Collective.Reply Fault α}
    (hrun : Run Delivers n (start progs) job) :
    n ≤ P + 1 ∧
      (∀ f, job = .running f → (∀ r, (f.calls r).length ≤ 1) ∧
        (∀ r res, f.rank r ≠ .computing (.done res)) ∧ ∃ job', Step Delivers job job') ∧
      ∀ r e', job = .aborted r e' → bad r e' := by
  have hcases : ∀ r, (∃ e, bad r e ∧ progs r = .stop e) ∨
      ∃ sample : List Hash, sample.length = kSamplesPerRank ∧ ∃ next,
        progs r = .call (.allgatherv .hash sample fun _ => kSamplesPerRank) next := by
    intro r
    by_cases hP : 1 < P
    · exact hgood hP r
    · obtain rfl : r = q := by
        have hr := r.isLt
        have hqlt := q.isLt
        exact Fin.ext (by omega)
      exact .inl ⟨e, hbad, hq⟩
  have hgathers : GathersSamples progs := by
    have hfirst : ∀ r, ∃ sample : List Hash, sample.length = kSamplesPerRank ∧
        ∀ op next, progs r = .call op next →
          op = .allgatherv .hash sample fun _ => kSamplesPerRank := by
      intro r
      rcases hcases r with ⟨e', _, hstop⟩ | ⟨sample, hlen, next, hcall⟩
      · refine ⟨List.replicate kSamplesPerRank 0, List.length_replicate, fun op next h => ?_⟩
        rw [hstop] at h
        cases h
      · refine ⟨sample, hlen, fun op next' h => ?_⟩
        rw [hcall] at h
        cases h
        rfl
    choose send hlen hsend using hfirst
    exact ⟨send, hlen, hsend⟩
  have hdone : ∀ r a, progs r ≠ .done a := by
    intro r a hr
    rcases hcases r with ⟨_, _, hstop⟩ | ⟨_, _, _, hcall⟩
    · rw [hr] at hstop
      cases hstop
    · rw [hr] at hcall
      cases hcall
  obtain ⟨hn, hrunning, haborted⟩ :=
    stalled_in_any_order (heldInFirstCall hserves hgathers hq) hq hdone hrun
  refine ⟨hn, hrunning, fun r e' hjob => ?_⟩
  have hstop := haborted r e' hjob
  rcases hcases r with ⟨e'', hbad', hstop'⟩ | ⟨_, _, _, hcall⟩
  · rw [hstop'] at hstop
    cases hstop
    exact hbad'
  · rw [hcall] at hstop
    cases hstop

/-- A rank whose own computation fails in front of the gather keeps the others in it. -/
theorem stops_of_refused (hserves : Serves Delivers Matches) {β : Type}
    {share : Fin P → Except Fault β} {rest : Fin P → β → RankM P C α} {q : Fin P} {e : Fault}
    (hq : share q = .error e)
    (hgathers : 1 < P → ∀ r b, share r = .ok b → ∃ sample : List Hash,
      sample.length = kSamplesPerRank ∧ ∃ next,
        rest r b = .call (.allgatherv .hash sample fun _ => kSamplesPerRank) next) :
    Stops Delivers (start fun r => compute (share r) >>= rest r)
      fun r e' => share r = .error e' := by
  have hstop : ∀ r e', share r = .error e' → compute (share r) >>= rest r = .stop e' := by
    intro r e' hr
    rw [hr]
    rfl
  have hgood : 1 < P → ∀ r, (∃ e, share r = .error e ∧ compute (share r) >>= rest r = .stop e) ∨
      ∃ sample : List Hash, sample.length = kSamplesPerRank ∧ ∃ next,
        compute (share r) >>= rest r =
          .call (.allgatherv .hash sample fun _ => kSamplesPerRank) next := by
    intro hP r
    cases hr : share r with
    | error e' => exact .inl ⟨e', rfl, rfl⟩
    | ok b =>
      obtain ⟨sample, hlen, hgather⟩ := hgathers hP r b hr
      exact .inr ⟨sample, hlen, compute_gathers rfl hgather⟩
  refine ⟨P + 1, fun n job hrun => ?_⟩
  obtain ⟨hn, hrunning, haborted⟩ := gathers_or_stops_in_any_order hserves
    (fun r e' => share r = .error e') hgood hq (hstop q e hq) hrun
  exact ⟨hn, fun f hf => (hrunning f hf).2, haborted⟩

/-- Where the local checks of a public call differ, in whatever order the ranks go on: nobody
gets past the first gather or returns, no job is stuck, and it ends by the exception of a
rank whose own input is malformed. -/
theorem malformed_in_any_order [LinearOrder C] [Zero C] (hserves : Serves Delivers Matches)
    (dev : Fin P → Device) (patches : Fin P → List (List Hash)) :
    (∀ (mode : PartitionMode) (globalIds : Fin P → List PatchId) (fuel : ℕ) (q : Fin P),
      (globalIds q).length ≠ (patches q).length → ∀ n job,
      Run Delivers n (selectJob C mode dev fuel patches globalIds) job →
      n ≤ P + 1 ∧
        (∀ f, job = .running f → (∀ r, (f.calls r).length ≤ 1) ∧
          (∀ r res, f.rank r ≠ .computing (.done res)) ∧ ∃ job', Step Delivers job job') ∧
        ∀ r e, job = .aborted r e → (globalIds r).length ≠ (patches r).length ∧
          e = idCountError (globalIds r).length (patches r).length) ∧
    ∀ (coords : Fin P → List (List (Point (Option C)))) (k : ℕ) (q : Fin P) (e : Fault),
      checkInput (patches q) (coords q) = .error e →
      (∀ r located, checkInput (patches r) (coords r) = .ok located →
        located.flatten.length ≤ intMax) → ∀ n job,
      Run Delivers n (statsJob dev patches coords k) job →
      n ≤ P + 1 ∧
        (∀ f, job = .running f → (∀ r, (f.calls r).length ≤ 1) ∧
          (∀ r res, f.rank r ≠ .computing (.done res)) ∧ ∃ job', Step Delivers job job') ∧
        ∀ r e', job = .aborted r e' → checkInput (patches r) (coords r) = .error e' := by
  constructor
  · intro mode globalIds fuel q hq n job hrun
    have hstop : ∀ r, (globalIds r).length ≠ (patches r).length →
        (RankPrograms.patchSelect mode (dev r) fuel r (patches r) (globalIds r) :
          RankM P C (ℕ × PatchSelection)) =
            .stop (idCountError (globalIds r).length (patches r).length) := by
      intro r hr
      unfold RankPrograms.patchSelect
      rw [if_pos hr]
      rfl
    refine gathers_or_stops_in_any_order hserves (fun r e =>
      (globalIds r).length ≠ (patches r).length ∧
        e = idCountError (globalIds r).length (patches r).length)
      (fun hP r => ?_) ⟨hq, rfl⟩ (hstop q hq) hrun
    by_cases hr : (globalIds r).length = (patches r).length
    · exact .inr ⟨_, length_localSample _, select_gathers hP mode (dev r) fuel r hr⟩
    · exact .inl ⟨_, ⟨hr, rfl⟩, hstop r hr⟩
  · intro coords k q e hq hcount n job hrun
    have hstop : ∀ r e', checkInput (patches r) (coords r) = .error e' →
        RankPrograms.patternStats (dev r) r (patches r) (coords r) k = .stop e' := by
      intro r e' hr
      unfold RankPrograms.patternStats
      rw [hr]
      rfl
    refine gathers_or_stops_in_any_order hserves
      (fun r e' => checkInput (patches r) (coords r) = .error e') (fun hP r => ?_) hq
      (hstop q e hq) hrun
    cases hr : checkInput (patches r) (coords r) with
    | ok located => exact .inr (stats_gathers hP (dev r) r k hr (hcount r located hr))
    | error e' => exact .inl ⟨e', rfl, hstop r e' hr⟩

/-- Two ranks, the second with a patch and no id for it. -/
theorem malformed_in_any_order_two_ranks :
    Stops Eager (selectJob ℕ .byPatch (fun _ => Device.inOrder) 5 ![[[1]], [[2]]] ![[7], []])
      fun _ e => e = idCountError 0 1 := by
  refine ⟨3, fun n job hrun => ?_⟩
  obtain ⟨hn, hrunning, haborted⟩ := (malformed_in_any_order (C := ℕ) serves_eager
    (fun _ => Device.inOrder) ![[[1]], [[2]]]).1 .byPatch ![[7], []] 5 1 (by decide) n job hrun
  refine ⟨hn, fun f hf => (hrunning f hf).2, fun r e hjob => ?_⟩
  obtain ⟨hids, he⟩ := haborted r e hjob
  match r with
  | 0 => exact absurd rfl hids
  | 1 => exact he

end Orders

end PatternSearch.MalformedInput
