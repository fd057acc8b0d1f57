import PatternSearch.Interleaving
import PatternSearch.LockStepRun
import PatternSearch.Refinement

/-!
The selection in any order of events. A library may hold every rank inside a collective until
all ranks are there, or let the root of a broadcast go at once and a rank of a prefix sum go
when the ranks below it are there; the ranks drift apart, and still every job ends, on every
rank with what the brute-force reference selects, or by the rejection of an input that the
ByElement mode cannot take.
-/

namespace PatternSearch.AnyOrder

open Machine Collectives Bucketing Csr Kernels Loops Selection HashMapping IdAssignment Setup
  Incidence Selector Refinement Spmd RankCalls LockStep Interleaving

variable {P : ℕ} {C : Type}

section Libraries

/-- The library that holds nobody longer than the reply takes. -/
inductive Eager : Library P (Collective P C) Collective.Reply
  | root {posted : Fin P → Option (Collective P C)} {t : Item} {buf : List (t.Carrier C)}
      {count root : ℕ} (r : Fin P) : root = r → Eager r posted (.bcast t buf count root) buf
  | bcast {posted : Fin P → Option (Collective P C)} {t : Item} {buf sent : List (t.Carrier C)}
      {count count' root root' : ℕ} (r q : Fin P) : root = q →
      posted q = some (.bcast t sent count' root') →
      Eager r posted (.bcast t buf count root) (sent.take count ++ buf.drop count)
  | exscan {posted : Fin P → Option (Collective P C)} {x : ℕ} (below : Fin P → ℕ) (r : Fin P) :
      (∀ s < r, posted s = some (.exscan (below s))) →
      Eager r posted (.exscan x) (displacement below r)
  | all {posted : Fin P → Option (Collective P C)} {r : Fin P} {op : Collective P C}
      {reply : op.Reply} : Synchronizing Matches r posted op reply → Eager r posted op reply

theorem serves_synchronizing :
    Serves (Synchronizing Matches) (Matches : (ops : Fin P → Collective P C) → _ → Prop) :=
  serves_of_unique fun h h' => (replies_eq h).trans (replies_eq h').symm

theorem serves_eager :
    Serves Eager (Matches : (ops : Fin P → Collective P C) → _ → Prop) where
  complete hmatch r := .all (serves_synchronizing.complete hmatch r)
  reply_eq {ops replies posted} hmatch hposted {r reply} hdelivers := by
    by_cases hall : Synchronizing Matches r posted (ops r) reply
    · exact serves_synchronizing.reply_eq hmatch hposted hall
    cases hmatch with
    | bcast t buf count root hroom =>
      cases hdelivers with
      | root _ hroot =>
        obtain rfl := Fin.ext hroot
        exact (List.take_append_drop count (buf root)).symm
      | @bcast _ _ _ sent _ count' _ root' _ q hroot hsent =>
        obtain rfl := Fin.ext hroot
        cases hposted root _ hsent
        rfl
      | all h => exact absurd h hall
    | exscan x =>
      cases hdelivers with
      | exscan below _ hbelow =>
        have hsame : ∀ s : Fin P, s < r → below s = x s := fun s hs =>
          Collective.exscan.inj (hposted s _ (hbelow s hs))
        show displacement below r = displacement x r
        rw [displacement_eq_sum, displacement_eq_sum]
        exact Finset.sum_congr rfl fun s hs => hsame s (Finset.mem_filter.mp hs).2
      | all h => exact absurd h hall
    | allgatherv => cases hdelivers with | all h => exact absurd h hall
    | alltoallv => cases hdelivers with | all h => exact absurd h hall
    | allreduceSum => cases hdelivers with | all h => exact absurd h hall
    | allreduceMaxloc => cases hdelivers with | all h => exact absurd h hall
    | barrier => cases hdelivers with | all h => exact absurd h hall

end Libraries

section Selection

variable {mode : PartitionMode} {rawPatches : Fin P → List (List Hash)}
  {globalIds : Fin P → List PatchId} {dev : Fin P → Device} {fuel : ℕ}
  {sels : Fin P → PatchSelection}

/-- The passes of the ByPatch loop, apart from the mapping in front of them. -/
theorem together_passes (h : ByPatch.patchSelect dev fuel rawPatches globalIds = .ok sels) :
    ∃ m n, mapHashesToElementIds rawPatches = .ok m ∧
      Together (fun r => (Prog.loop .outOfFuel (RankPrograms.ByPatch.selectStep (dev r) r
          (patchSetOf (m r)) (globalIds r)) fuel (ByPatch.initialState (patchSetOf (m r))) :
          RankM P C (ℕ × PatchSelection)))
        (.returned fun r => (n, sels r)) := by
  obtain ⟨ps, hps, hloop⟩ := bind_eq_ok.mp h
  obtain ⟨m, hmap, hps⟩ := bind_eq_ok.mp hps
  obtain rfl := Except.ok.inj hps
  have hpass : ∀ st outcome,
      ByPatch.selectStep dev (fun r => patchSetOf (m r)) globalIds st = .ok outcome →
      Together (fun r => (RankPrograms.ByPatch.selectStep (dev r) r (patchSetOf (m r))
          (globalIds r) (st r) : RankM P C (ByPatch.RankState ⊕ PatchSelection)))
        (.returned (Spmd.Together.spread outcome)) := fun _ _ => together_selectStep
  obtain ⟨n, hrun⟩ := together_loop hpass hloop
  exact ⟨m, n, hmap, hrun⟩

theorem together_byPatch
    (h : ByPatch.patchSelect dev fuel rawPatches globalIds = .ok sels) :
    ∃ n, Together (fun r => (RankPrograms.ByPatch.patchSelect (dev r) fuel r (rawPatches r)
        (globalIds r) : RankM P C (ℕ × PatchSelection)))
      (.returned fun r => (n, sels r)) := by
  obtain ⟨m, n, hmap, hrun⟩ := together_passes h
  exact ⟨n, (together_mapHashesToElementIds hmap).bind hrun⟩

theorem together_select {su : Fin P → ByElement.ElemSetup}
    (h : ByElement.select dev fuel su = .ok sels) :
    ∃ n, Together (fun r => (RankPrograms.ByElement.select (dev r) fuel (su r) :
        RankM P C (ℕ × PatchSelection)))
      (.returned fun r => (n, sels r)) := by
  obtain ⟨nothing, hagree, h⟩ := bind_eq_ok.mp h
  have hnothing := of_agree hagree
  unfold RankPrograms.ByElement.select
  cases nothing with
  | true =>
    obtain rfl := Except.ok.inj h
    simp only [of_decide_eq_true (hnothing _), if_true]
    exact ⟨0, Spmd.Together.done _⟩
  | false =>
    obtain ⟨final, hloop, hdrain⟩ := bind_eq_ok.mp h
    have hbatch : ∀ st outcome, ByElement.batchStep dev su st = .ok outcome →
        Together (fun r => (RankPrograms.ByElement.batchStep (dev r) (su r) (st r) :
            RankM P C (ByElement.RankState ⊕ ByElement.RankState)))
          (.returned (Spmd.Together.spread outcome)) := fun _ _ => together_batchStep
    obtain ⟨n, hleft⟩ := together_loop hbatch hloop
    simp only [of_decide_eq_false (hnothing _), if_false]
    exact ⟨n, hleft.bind (together_compute hdrain (Spmd.Together.done _))⟩

/-- The setup of the ByElement mode and its loop, apart from the mapping in front of them. -/
theorem together_batches (hP : 0 < P) (hids : ∀ r, (globalIds r).length = (rawPatches r).length)
    (h : ByElement.patchSelect dev fuel rawPatches globalIds = .ok sels) :
    ∃ m su n, mapHashesToElementIds rawPatches = .ok m ∧
      (∀ r, (su r).mGlobal = (gather rawPatches).length ∧
        (su r).N = (globalUniq rawPatches).length) ∧
      Together (fun r => (RankPrograms.ByElement.prepare r (m r) (globalIds r) :
        RankM P C ByElement.ElemSetup)) (.returned su) ∧
      Together (fun r => (RankPrograms.ByElement.select (dev r) fuel (su r) :
          RankM P C (ℕ × PatchSelection)))
        (.returned fun r => (n, sels r)) := by
  obtain ⟨m, hmap, h⟩ := bind_eq_ok.mp h
  obtain ⟨su, hprepare, hselect⟩ := bind_eq_ok.mp h
  obtain ⟨-, rfl⟩ := (mapHashes_eq_ok_iff hP m).mp hmap
  obtain ⟨hload, rfl⟩ := ByElementRun.loaded_of_prepare hP hids hprepare
  have hnone : ElementSetup.firstOversized (idRows rawPatches) = none := by
    rw [ElementSetup.firstOversized, List.find?_eq_none]
    intro s hs
    simpa using hload.wire s (List.mem_range.mp hs)
  have hsetup := LockStepRun.together_prepare (C := C) hP N_mapped idPatches_mapped hload.fit
    hload.ids_length
  rw [hnone] at hsetup
  obtain ⟨n, hrun⟩ := together_select hselect
  exact ⟨_, _, n, hmap, fun _ => ⟨length_gather_idRows, rfl⟩, hsetup, hrun⟩

theorem together_byElement (hP : 0 < P)
    (hids : ∀ r, (globalIds r).length = (rawPatches r).length)
    (h : ByElement.patchSelect dev fuel rawPatches globalIds = .ok sels) :
    ∃ n, Together (fun r => (RankPrograms.ByElement.patchSelect (dev r) fuel r (rawPatches r)
        (globalIds r) : RankM P C (ℕ × PatchSelection)))
      (.returned fun r => (n, sels r)) := by
  obtain ⟨m, su, n, hmap, -, hsetup, hrun⟩ := together_batches hP hids h
  exact ⟨n, (together_mapHashesToElementIds hmap).bind (hsetup.bind hrun)⟩

/-- When the call on all ranks at once returns, the ranks run in step to what it returns. -/
theorem together_patchSelect (hP : 0 < P)
    (h : Selector.patchSelect mode dev fuel rawPatches globalIds = .ok sels) :
    ∃ n, Together (fun r => (RankPrograms.patchSelect mode (dev r) fuel r (rawPatches r)
        (globalIds r) : RankM P C (ℕ × PatchSelection)))
      (.returned fun r => (n, sels r)) := by
  obtain ⟨checked, hcheck, hrun⟩ := bind_eq_ok.mp h
  have hids := ids_of_patchSelect h
  cases mode with
  | byPatch =>
    obtain ⟨n, hselect⟩ := together_byPatch hrun
    exact ⟨n, together_compute hcheck hselect⟩
  | byElement =>
    obtain ⟨n, hselect⟩ := together_byElement hP hids hrun
    exact ⟨n, together_compute hcheck hselect⟩

/-- The job of all ranks calling patch_select. -/
def selectJob (C : Type) (mode : PartitionMode) (dev : Fin P → Device) (fuel : ℕ)
    (rawPatches : Fin P → List (List Hash)) (globalIds : Fin P → List PatchId) :
    Job P (Collective P C) Collective.Reply Fault (ℕ × PatchSelection) :=
  start fun r => RankPrograms.patchSelect mode (dev r) fuel r (rawPatches r) (globalIds r)

/-- In whatever order the ranks issue and leave their calls, in either mode the job ends on
every rank with the selection of the brute-force reference: a rank that has returned has
returned just that, the events of a job are bounded, and no job is stuck before its end. -/
theorem selects_in_any_order (hP : 0 < P) {Delivers : Library P (Collective P C) Collective.Reply}
    (hserves : Serves Delivers Matches) (h : Admissible mode rawPatches globalIds)
    (dev : Fin P → Device) :
    ∃ m N sel, mapHashesToElementIds rawPatches = .ok m ∧ (∀ r, (m r).N = N) ∧
      (∀ fuel, N < fuel → reference m N fuel = .ok sel) ∧
      ∀ fuel, N + 1 < fuel → ∃ passes,
        Returns Delivers (selectJob C mode dev fuel rawPatches globalIds)
          fun _ => (passes, renamed globalIds sel) := by
  obtain ⟨sel, hsel, href⟩ := reference_eq_ok rawPatches
  refine ⟨_, _, sel, (mapHashes_eq_ok_iff hP _).mpr ⟨h.hashes, rfl⟩, N_mapped, href, ?_⟩
  intro fuel hfuel
  obtain ⟨sel', hsel', hrun⟩ := exists_selection hP h
  obtain ⟨passes, rounds, htogether⟩ := together_patchSelect (C := C) hP (hrun dev fuel hfuel)
  have hsame : sel' = renamed globalIds sel := hsel.relate hsel'
  rw [hsame] at htogether
  exact ⟨passes, returns_of_inStep hserves htogether⟩

/-- Three ranks with a library that holds nobody longer than the reply takes. -/
theorem selects_in_any_order_three_ranks :
    ∃ N sel, ∀ fuel, N + 1 < fuel → ∃ passes,
      Returns Eager (selectJob ℕ .byElement (fun _ => Device.inOrder) fuel
        ![[[5, 7], [7]], [], [[9, 5, 9]]] ![[10, 20], [], [30]]) fun _ => (passes, sel) := by
  have hadmissible : Admissible .byElement ![[[5, 7], [7]], [], [[9, 5, 9]]]
      ![[10, 20], [], [30]] :=
    admissible_of_total_le .byElement (by decide) (by decide) (by decide) (by decide)
  obtain ⟨_, N, sel, _, _, _, hruns⟩ :=
    selects_in_any_order (P := 3) (C := ℕ) (by decide) serves_eager hadmissible
      fun _ => Device.inOrder
  exact ⟨N, renamed ![[10, 20], [], [30]] sel, hruns⟩

end Selection

section Rejection

variable {rawPatches : Fin P → List (List Hash)} {globalIds : Fin P → List PatchId}

/-- What the ByElement mode has against an input: more patches than CUB counts, or else the
first patch that is too large for the wire. -/
def rejection (rawPatches : Fin P → List (List Hash)) (globalIds : Fin P → List PatchId) :
    Option Fault :=
  if intMax < (gather rawPatches).length then some ByElement.slotRangeError
  else
    ((List.range (gather rawPatches).length).find? fun s =>
      decide (ByElement.wireMax P < ((hashSet rawPatches s).card : ℤ))).map fun s =>
        ByElement.wireError (gidOf globalIds s) (hashSet rawPatches s).card

/-- The wire is checked after the counts have been looked up. -/
theorem together_rejected (hP : 0 < P) (hcounts : CountsInInt .byElement rawPatches)
    (htable : (gather rawPatches).length ≤ intMax → TableFits P)
    (hids : ∀ r, (globalIds r).length = (rawPatches r).length) {e : Fault}
    (h : rejection rawPatches globalIds = some e) (dev : Fin P → Device) (fuel : ℕ) :
    Together (fun r => (RankPrograms.patchSelect .byElement (dev r) fuel r (rawPatches r)
        (globalIds r) : RankM P C (ℕ × PatchSelection)))
      (.stopped fun _ => e) := by
  have hcheck : ∀ r, (if (globalIds r).length ≠ (rawPatches r).length then
      .error (idCountError (globalIds r).length (rawPatches r).length) else .ok ()) =
      (.ok () : Except Fault Unit) := fun r => if_neg (not_not.mpr (hids r))
  have hmap := together_mapHashesToElementIds (C := C)
    ((mapHashes_eq_ok_iff hP _).mpr ⟨hcounts.hashes, rfl⟩)
  refine Spmd.Together.lift hcheck (hmap.bind (Spmd.Together.bind_stopped _ ?_))
  unfold rejection at h
  by_cases hslots : intMax < (gather rawPatches).length
  · rw [if_pos hslots] at h
    obtain rfl := Option.some.inj h
    apply LockStepRun.together_prepare_slotRange hP globalIds
    rw [← length_gather_idRows, length_gather] at hslots
    exact hslots
  · rw [if_neg hslots] at h
    obtain ⟨s, hs, rfl⟩ := Option.map_eq_some_iff.mp h
    have hfits := ByElementRun.incidencesFit_idRows (htable (not_lt.mp hslots))
      (not_lt.mp hslots) (hcounts.incidences rfl)
    have hrows : ∀ r, (globalIds r).length = (idRows rawPatches r).length := fun r => by
      rw [hids, length_idRows]
    have hsetup := LockStepRun.together_prepare (C := C) hP N_mapped idPatches_mapped hfits hrows
    have hover : ElementSetup.firstOversized (idRows rawPatches) = some s := by
      simpa only [ElementSetup.firstOversized, card_rowSet_idRows, length_gather_idRows] using hs
    rw [hover] at hsetup
    simp only [card_rowSet_idRows] at hsetup
    exact hsetup

/-- An input that the ByElement mode rejects takes the job down in any order of events: no rank
returns a selection, no job is stuck, and whichever rank is first throws the same. -/
theorem rejects_in_any_order (hP : 0 < P) {Delivers : Library P (Collective P C) Collective.Reply}
    (hserves : Serves Delivers Matches) (hcounts : CountsInInt .byElement rawPatches)
    (htable : (gather rawPatches).length ≤ intMax → TableFits P)
    (hids : ∀ r, (globalIds r).length = (rawPatches r).length) {e : Fault}
    (h : rejection rawPatches globalIds = some e) (dev : Fin P → Device) (fuel : ℕ) :
    Stops Delivers (selectJob C .byElement dev fuel rawPatches globalIds) fun _ e' => e' = e := by
  obtain ⟨rounds, hrun⟩ := together_rejected (C := C) hP hcounts htable hids h dev fuel
  exact stops_of_inStep hP hserves hrun

theorem rejection_of_oversized {patch : List Hash} (id : PatchId)
    (h : ByElement.wireMax 2 < patch.toFinset.card) :
    rejection ![[patch], []] ![[id], []] =
      some (ByElement.wireError id patch.toFinset.card) := by
  have hlength : (gather ![[patch], []]).length = 1 := rfl
  have hrange : List.range 1 = [0] := rfl
  have hfirst : hashSet ![[patch], []] 0 = patch.toFinset := rfl
  have hfind : [0].find? (fun s =>
      decide (ByElement.wireMax 2 < ((hashSet ![[patch], []] s).card : ℤ))) = some 0 :=
    List.find?_cons_of_pos (decide_eq_true (hfirst ▸ h))
  rw [rejection, hlength, if_neg (by decide), hrange]
  exact congrArg (Option.map _) hfind

/-- n empty patches on each of two ranks. -/
def emptyPatches (n : ℕ) : Fin 2 → List (List Hash) := fun _ => List.replicate n []

theorem length_gather_emptyPatches (n : ℕ) : (gather (emptyPatches n)).length = 2 * n := by
  rw [length_gather, displacement_last, Fin.sum_univ_two, Nat.two_mul]
  simp only [emptyPatches, List.length_replicate]

theorem countsInInt_emptyPatches {n : ℕ} (h : n ≤ intMax) :
    CountsInInt .byElement (emptyPatches n) where
  hashes := by
    apply countsFit_of_total_le
    rw [length_flatten_gather]
    simp [emptyPatches]
  patches _ := by
    rw [emptyPatches, List.length_replicate]
    exact h
  incidences _ _ := by simp [emptyPatches]

theorem countsInInt_onePatch {patch : List Hash} (h : patch.length ≤ intMax) :
    CountsInInt .byElement ![[patch], []] where
  hashes := by
    apply countsFit_of_total_le
    rw [length_flatten_gather, Fin.sum_univ_two]
    simpa using h
  patches := Fin.forall_fin_two.mpr ⟨by simp [intMax], by simp⟩
  incidences _ := by
    have hcard := (List.toFinset_card_le patch).trans h
    exact Fin.forall_fin_two.mpr ⟨by simpa using hcard, by simp⟩

/-- Two ranks with 2^30 empty patches each: more patches than CUB counts. And two ranks, one of
them with a patch that has one element more than the wire takes. -/
theorem rejects_in_any_order_two_ranks :
    Stops Eager (selectJob ℕ .byElement (fun _ => Device.inOrder) 3 (emptyPatches (2 ^ 30))
        fun _ => List.range (2 ^ 30))
      (fun _ e => e = ByElement.slotRangeError) ∧
    Stops Eager (selectJob ℕ .byElement (fun _ => Device.inOrder) 3
        ![[consecutiveHashes 2147483645], []] ![[10], []])
      (fun _ e => e = ByElement.wireError 10 2147483645) := by
  constructor
  · have hids : ∀ r, (List.range (2 ^ 30)).length = (emptyPatches (2 ^ 30) r).length := fun r => by
      rw [emptyPatches, List.length_range, List.length_replicate]
    have hrejected : rejection (emptyPatches (2 ^ 30)) (fun _ => List.range (2 ^ 30)) =
        some ByElement.slotRangeError := by
      rw [rejection, length_gather_emptyPatches, if_pos (by decide)]
    exact rejects_in_any_order (by decide) serves_eager (countsInInt_emptyPatches (by decide))
      (fun _ => by decide) hids hrejected (fun _ => Device.inOrder) 3
  · have hcard := card_consecutiveHashes (show 2147483645 ≤ 2 ^ 64 by decide)
    have hlarge : ByElement.wireMax 2 < (consecutiveHashes 2147483645).toFinset.card := by
      rw [hcard]
      decide
    have hrejected := rejection_of_oversized 10 hlarge
    rw [hcard] at hrejected
    have hcounts : CountsInInt .byElement ![[consecutiveHashes 2147483645], []] :=
      countsInInt_onePatch (by rw [length_consecutiveHashes]; decide)
    have hids : ∀ r, (![[10], []] r : List PatchId).length =
        (![[consecutiveHashes 2147483645], []] r).length :=
      Fin.forall_fin_two.mpr ⟨by simp, by simp⟩
    exact rejects_in_any_order (by decide) serves_eager hcounts (fun _ => by decide) hids
      hrejected (fun _ => Device.inOrder) 3

end Rejection

end PatternSearch.AnyOrder
