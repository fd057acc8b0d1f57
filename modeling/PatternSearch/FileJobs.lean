import PatternSearch.InputSlices
import PatternSearch.MalformedInput

/-!
A driver that takes its patches from a file. Every rank opens the file for itself and reads
its own share, so what one rank finds wrong another may not see. Against a single process that
reads the whole file: where that is refused no order of events brings the ranks to a result,
and where it succeeds their result is the one of the patches it has read.
-/

namespace PatternSearch.FileJobs

open Machine Collectives SortedLists Csr Kernels HashMapping IdAssignment Setup Incidence Selection
  BruteForce Selector Refinement Bytes FileStream PatchFile PatchFileRead PatchFileWrite
  PatchFileCorrupt InputSlices PatternStats Spmd RankCalls Interleaving AnyOrder MalformedInput

variable {P : ℕ} {C : Type}

section Model

/-- The share of a rank, read from the file as it stands when the job starts. -/
def readShare (path : String) (file : List Byte) (size rank : ℕ) : Except Fault PatchSlice :=
  (exec (Usc.readInputSlice path rank size) (Stream.opened file)).1

/-- `main` of the selection with `--input` on one rank. -/
def selectFromFile (path : String) (file : List Byte) (mode : PartitionMode) (d : Device)
    (fuel : ℕ) (rank : Fin P) : RankM P C (ℕ × PatchSelection) := do
  let slice ← compute (readShare path file P rank)
  RankPrograms.patchSelect mode d fuel rank slice.patches slice.globalIds

/-- The job of all ranks with one file. -/
def selectFileJob (C : Type) (path : String) (file : List Byte) (mode : PartitionMode)
    (dev : Fin P → Device) (fuel : ℕ) :
    Job P (Collective P C) Collective.Reply Fault (ℕ × PatchSelection) :=
  start fun r => selectFromFile path file mode (dev r) fuel r

end Model

section Reading

variable {rd : StpsBinaryReader} {file : List Byte}

theorem safely_readShare (hacc : Accepted rd file) (hsmall : file.length < 2 ^ 63)
    (hfit : rd.M * P < 2 ^ 64) {rank : ℕ} (hrank : rank < P) :
    Safely file (Usc.readInputSlice rd.path rank P)
      (sliceOutcome rd file (rankBegin rd.M P rank) (rankBegin rd.M P (rank + 1))) := by
  have hbegin := wrap64_split hfit hrank.le
  have hend := wrap64_split (r := rank + 1) hfit hrank
  have hcount : rd.patchCount = rd.M := rfl
  rw [Usc.readInputSlice]
  apply Safely.bind (hacc.safely_open hsmall)
  dsimp only
  rw [hcount, hbegin, hend]
  exact safely_readSlice hacc hsmall _ _

theorem getD_map_range' {α : Type} (f : ℕ → α) (d : α) {M p : ℕ} (hp : p < M) :
    ((List.range' 0 M).map f).getD p d = f p := by
  rw [← List.range_eq_range', List.getD_eq_getElem _ _ (by simpa using hp), List.getElem_map,
    List.getElem_range]

theorem window_map_range' {α : Type} (f : ℕ → List α) {M first last : ℕ} (hlast : last ≤ M) :
    window ((List.range' 0 M).map f) first last = (List.range' first (last - first)).map f := by
  rw [window_eq_map_range' _ [] (by simpa using hlast)]
  apply List.map_congr_left
  intro p hp
  have hlt := List.mem_range'_1.mp hp
  exact getD_map_range' f [] (by omega)

/-- From a file whose offsets do not descend every rank gets its share of the whole. -/
theorem share_of_monotone (hacc : Accepted rd file) (hmono : MonotoneOn rd file 0 rd.M)
    (hP : 0 < P) {rank : ℕ} (hrank : rank < P) :
    sliceOutcome rd file (rankBegin rd.M P rank) (rankBegin rd.M P (rank + 1)) =
      .ok (rankSlice (fileSlice rd file 0 rd.M).patches (some (fileSlice rd file 0 rd.M).coords)
        P rank) := by
  have hlast := rankBegin_succ_le (M := rd.M) hP hrank
  have hlen : (fileSlice rd file 0 rd.M).patches.length = rd.M := by
    rw [fileSlice_patches, List.length_map, List.length_range', Nat.sub_zero]
  rw [sliceOutcome_eq_ok hacc hmono (rankBegin_mono _ _ (Nat.le_succ _)) hlast, rankSlice, hlen,
    fileSlice_patches, Nat.sub_zero]
  rw [window_map_range' _ hlast, Option.getD_some]
  by_cases hcoords : rd.hasCoords = true
  · rw [fileSlice_coords hcoords, Nat.sub_zero, window_map_range' _ hlast,
      ← fileSlice_coords hcoords, ← fileSlice_patches, ← fileSlice_globalIds]
  · have hnone : ∀ first last, (fileSlice rd file first last).coords = [] := fun _ _ =>
      if_neg hcoords
    have hwindow : ∀ first last, window ([] : List (List (Point Double))) first last = [] :=
      fun _ _ => by rw [window, List.drop_nil, List.take_nil]
    rw [hnone, hwindow, ← fileSlice_patches, ← fileSlice_globalIds, ← hnone]

/-- An offset that descends lies in the share of some rank, and that rank refuses. -/
theorem exists_refused_of_descent (hP : 0 < P) (hdescends : ¬ MonotoneOn rd file 0 rd.M) :
    ∃ (r : Fin P) (e : Fault),
      sliceOutcome rd file (rankBegin rd.M P r) (rankBegin rd.M P (r + 1)) = .error e := by
  by_contra hnone
  apply hdescends
  intro p _ hp
  have hdiv := divides_ranks rd.M P P 0
  have hzero : rankBegin rd.M P 0 = 0 := by simp [rankBegin]
  rw [Nat.zero_add, hzero, rankBegin_size _ hP] at hdiv
  obtain ⟨range, hrange, hin⟩ := hdiv.covers (Nat.zero_le p) hp
  obtain ⟨rank, hrank, rfl⟩ := List.mem_map.mp hrange
  have hlt : rank < P := by
    have hmem := List.mem_range'_1.mp hrank
    omega
  cases hslice : sliceOutcome rd file (rankBegin rd.M P rank) (rankBegin rd.M P (rank + 1)) with
  | error e => exact absurd ⟨⟨rank, hlt⟩, e, hslice⟩ hnone
  | ok slice =>
    rw [sliceOutcome_eq_ok_iff (rankBegin_mono _ _ (Nat.le_succ _))
      (rankBegin_succ_le hP hlt)] at hslice
    exact hslice.1 p hin.1 hin.2

/-- The patches that the header promises. -/
def declaredPatches (file : List Byte) : ℕ := (headerSection file).getD 0 0

theorem accepted_fit (hacc : Accepted rd file) (hsmall : file.length < 2 ^ 63) :
    rd.M * 1 < 2 ^ 64 := by
  have hle := hacc.sections_le
  unfold kHeaderBytes at hle
  omega

/-- What a single process reads is the whole, or it is refused just when some rank is. -/
theorem readShare_cases (path : String) {file : List Byte} (hsize : file.length < 2 ^ 62) :
    (∃ whole, readShare path file 1 0 = .ok whole ∧
      whole.patches.length = declaredPatches file ∧
      whole.globalIds = List.range whole.patches.length ∧
      ∀ P, 0 < P → whole.patches.length * P < 2 ^ 64 → ∀ r : Fin P,
        readShare path file P r = .ok (rankSlice whole.patches (some whole.coords) P r)) ∨
    ∃ e, readShare path file 1 0 = .error e ∧
      ∀ P, 0 < P → declaredPatches file * P < 2 ^ 64 →
        (∃ (r : Fin P) (e : Fault), readShare path file P r = .error e) ∧
        ∀ (r : Fin P) slice, readShare path file P r = .ok slice →
          slice.globalIds.length = slice.patches.length := by
  have hsmall : file.length < 2 ^ 63 := by omega
  rcases open_accepted_or_error path hsize with ⟨rd, hacc, rfl⟩ | ⟨what, herror⟩
  · have hread : ∀ P, rd.M * P < 2 ^ 64 → ∀ r < P, readShare rd.path file P r =
        sliceOutcome rd file (rankBegin rd.M P r) (rankBegin rd.M P (r + 1)) :=
      fun P hfit r hr => (safely_readShare hacc hsmall hfit hr).outcome_eq rfl
    have halone := hread 1 (accepted_fit hacc hsmall) 0 Nat.one_pos
    have hcount : declaredPatches file = rd.M := hacc.count
    have hlen : (fileSlice rd file 0 rd.M).patches.length = rd.M := by
      rw [fileSlice_patches, List.length_map, List.length_range', Nat.sub_zero]
    have hzero : rankBegin rd.M 1 0 = 0 := by simp [rankBegin]
    rw [hzero, rankBegin_size _ Nat.one_pos] at halone
    by_cases hmono : MonotoneOn rd file 0 rd.M
    · left
      refine ⟨_, halone.trans (sliceOutcome_eq_ok hacc hmono (Nat.zero_le _) le_rfl),
        hlen.trans hcount.symm, ?_, ?_⟩
      · rw [hlen, fileSlice_globalIds, Nat.sub_zero, List.range_eq_range']
      · intro P hP hfit r
        rw [hlen] at hfit
        exact (hread P hfit r r.isLt).trans (share_of_monotone hacc hmono hP r.isLt)
    · right
      obtain ⟨alone, e, he⟩ := exists_refused_of_descent Nat.one_pos hmono
      rw [Fin.eq_zero alone] at he
      refine ⟨e, ?_, ?_⟩
      · rw [halone, ← he]
        simp [hzero, rankBegin_size _ Nat.one_pos]
      · intro P hP hfit
        rw [hcount] at hfit
        refine ⟨?_, ?_⟩
        · obtain ⟨r, e, he⟩ := exists_refused_of_descent hP hmono
          exact ⟨r, e, (hread P hfit r r.isLt).trans he⟩
        · intro r slice hslice
          rw [hread P hfit r r.isLt, sliceOutcome_eq_ok_iff
            (rankBegin_mono _ _ (Nat.le_succ _)) (rankBegin_succ_le hP r.isLt)] at hslice
          obtain ⟨-, -, rfl⟩ := hslice
          rw [fileSlice_globalIds, fileSlice_patches, List.length_map]
  · right
    have hfail : ∀ P r, readShare path file P r = .error (fail path what) := fun P r =>
      exec_bind_fst_error (herror _ rfl)
    refine ⟨_, hfail 1 0, fun P hP _ => ⟨⟨⟨0, hP⟩, _, hfail P 0⟩, ?_⟩⟩
    intro r slice hslice
    rw [hfail P r] at hslice
    cases hslice

end Reading

section Shares

variable {patches : List (List Hash)}

/-- The patches of a rank. -/
def share (P : ℕ) (patches : List (List Hash)) (r : Fin P) : List (List Hash) :=
  (rankSlice patches none P r).patches

/-- Their positions in the file. -/
def shareIds (P : ℕ) (patches : List (List Hash)) (r : Fin P) : List PatchId :=
  (rankSlice patches none P r).globalIds

theorem gather_share (hP : 0 < P) : gather (share P patches) = patches :=
  (gather_eq_flatMap_range fun r => (rankSlice patches none P r).patches).trans
    (flatMap_rankSlice_patches hP)

theorem gather_shareIds (hP : 0 < P) : gather (shareIds P patches) = List.range patches.length :=
  (gather_eq_flatMap_range fun r => (rankSlice patches none P r).globalIds).trans
    (flatMap_rankSlice_globalIds hP)

theorem length_shareIds (hP : 0 < P) (r : Fin P) :
    (shareIds P patches r).length = (share P patches r).length := by
  have hlen : (share P patches r).length = _ :=
    length_window patches (rankBegin_succ_le (M := patches.length) hP r.isLt)
  rw [hlen]
  exact List.length_range' ..

theorem gidOf_shareIds (hP : 0 < P) {s : ℕ} (hs : s < patches.length) :
    gidOf (shareIds P patches) s = s := by
  rw [gidOf, gather_shareIds hP, List.getD_eq_getElem _ _ (by simpa using hs), List.getElem_range]

/-- The distinct hashes of the patches. -/
def distinctHashes (patches : List (List Hash)) : List Hash := sortUnique patches.flatten

/-- The reference on the patches of a file, a hash standing for its position in the universe. -/
def fileReference (patches : List (List Hash)) (fuel : ℕ) : Except Fault PatchSelection :=
  bruteForceSelect
    (buildPatchCsr (patches.map fun patch =>
      sortUnique (patch.map (lowerBound (distinctHashes patches)))))
    (distinctHashes patches).length fuel

theorem globalUniq_share (hP : 0 < P) : globalUniq (share P patches) = distinctHashes patches := by
  rw [globalUniq, gather_share hP, distinctHashes]

theorem reference_share (hP : 0 < P) (fuel : ℕ) :
    reference (mapped (share P patches)) (distinctHashes patches).length fuel =
      fileReference patches fuel := by
  have hrows : gather (fun r => (mapped (share P patches) r).idPatches) =
      (gather (share P patches)).map fun patch =>
        sortUnique (patch.map (lowerBound (globalUniq (share P patches)))) := gather_idRows
  rw [reference, hrows, gather_share hP, globalUniq_share hP, fileReference]

/-- What the mode has against the patches of a file: too many of them, or else the first one
that is too large, with its position. -/
def verdict (mode : PartitionMode) (size : ℕ) (patches : List (List Hash)) : Option Fault :=
  match mode with
  | .byPatch => none
  | .byElement =>
    if intMax < patches.length then some ByElement.slotRangeError
    else
      ((List.range patches.length).find? fun s =>
        decide (ByElement.wireMax size < ((patches.getD s []).toFinset.card : ℤ))).map fun s =>
          ByElement.wireError s (patches.getD s []).toFinset.card

theorem rejection_share (hP : 0 < P) :
    rejection (share P patches) (shareIds P patches) = verdict .byElement P patches := by
  simp only [rejection, verdict, hashSet, gather_share hP]
  split_ifs
  · rfl
  · cases hfind : (List.range patches.length).find? fun s =>
        decide (ByElement.wireMax P < ((patches.getD s []).toFinset.card : ℤ)) with
    | none => rfl
    | some s =>
      have hs := List.mem_range.mp (List.mem_of_find?_eq_some hfind)
      rw [Option.map_some, Option.map_some, gidOf_shareIds hP hs]

theorem admissible_share {mode : PartitionMode} (hP : 0 < P)
    (hcounts : CountsInInt mode (share P patches)) (htable : TableInInt mode P)
    (hverdict : verdict mode P patches = none) :
    Admissible mode (share P patches) (shareIds P patches) := by
  refine { hcounts with ids_length := length_shareIds hP, slots := ?_, wire := ?_, table := htable }
  · rintro rfl
    unfold verdict at hverdict
    split_ifs at hverdict with hslots
    rw [gather_share hP]
    exact not_lt.mp hslots
  · rintro rfl r patch hpatch
    unfold verdict at hverdict
    split_ifs at hverdict
    rw [Option.map_eq_none_iff, List.find?_eq_none] at hverdict
    have hall : patch ∈ gather (share P patches) := mem_gather.mpr ⟨r, hpatch⟩
    rw [gather_share hP] at hall
    obtain ⟨s, hs, rfl⟩ := List.mem_iff_getElem.mp hall
    have hsmall := hverdict s (List.mem_range.mpr hs)
    rw [List.getD_eq_getElem _ _ hs] at hsmall
    simpa using hsmall

end Shares

section Selection

variable {path : String} {file : List Byte} {mode : PartitionMode}

/-- The slots of the ranks' patches are their positions in the file. -/
theorem renamed_shareIds {patches : List (List Hash)} (hP : 0 < P) {sel : PatchSelection}
    (h : Finishes (rowSet (gather (idRows (share P patches))))
      (List.range (gather (idRows (share P patches))).length) id Progress.start sel) :
    renamed (shareIds P patches) sel = sel := by
  obtain ⟨run, htrace, rfl⟩ := h
  have hselected : ∀ s ∈ run.map id, gidOf (shareIds P patches) s = s := by
    intro s hs
    rw [List.map_id] at hs
    have hlt := List.mem_range.mp (htrace.subset s hs)
    rw [length_gather_idRows, gather_share hP] at hlt
    exact gidOf_shareIds hP hlt
  have hsame := List.map_congr_left hselected
  simp only [List.map_id'] at hsame
  simp only [renamed, Progress.after, Progress.start, Progress.result, List.nil_append, hsame]

/-- When every rank has its share the job is one of selecting patches. -/
theorem selectFileJob_eq {patches : List (List Hash)} {coords : List (List (Point Double))}
    (h : ∀ r : Fin P, readShare path file P r = .ok (rankSlice patches (some coords) P r))
    (dev : Fin P → Device) (fuel : ℕ) :
    selectFileJob C path file mode dev fuel =
      selectJob C mode dev fuel (share P patches) (shareIds P patches) := by
  unfold selectFileJob selectJob selectFromFile
  congr 1
  funext r
  rw [h r]
  rfl

theorem selected_from_shares {patches : List (List Hash)} (hP : 0 < P)
    {Delivers : Library P (Collective P C) Collective.Reply} (hserves : Serves Delivers Matches)
    (hcounts : CountsInInt mode (share P patches)) (htable : TableInInt mode P)
    (hverdict : verdict mode P patches = none) {sel : PatchSelection}
    (hsel : ∀ fuel, (distinctHashes patches).length < fuel →
      fileReference patches fuel = .ok sel) (dev : Fin P → Device) {fuel : ℕ}
    (hfuel : (distinctHashes patches).length + 1 < fuel) :
    ∃ passes, Returns Delivers
      (selectJob C mode dev fuel (share P patches) (shareIds P patches))
        fun _ => (passes, sel) := by
  have hadmissible := admissible_share hP hcounts htable hverdict
  obtain ⟨found, hfound, href⟩ := reference_eq_ok (share P patches)
  obtain ⟨found', hfound', hrun⟩ := exists_selection hP hadmissible
  rw [globalUniq_share hP] at href hrun
  have hsame : found = sel := by
    have hrefFuel := href fuel (by omega)
    rw [reference_share hP, hsel fuel (by omega)] at hrefFuel
    exact (Except.ok.inj hrefFuel).symm
  have hrenamed : found' = renamed (shareIds P patches) found := hfound.relate hfound'
  rw [renamed_shareIds hP hfound, hsame] at hrenamed
  obtain ⟨passes, rounds, htogether⟩ := together_patchSelect (C := C) hP (hrun dev fuel hfuel)
  rw [hrenamed] at htogether
  exact ⟨passes, returns_of_inStep hserves htogether⟩

theorem rejected_from_shares {patches : List (List Hash)} (hP : 0 < P)
    {Delivers : Library P (Collective P C) Collective.Reply} (hserves : Serves Delivers Matches)
    (hcounts : CountsInInt mode (share P patches)) (htable : TableInInt mode P) {e : Fault}
    (hverdict : verdict mode P patches = some e) (dev : Fin P → Device) (fuel : ℕ) :
    Stops Delivers (selectJob C mode dev fuel (share P patches) (shareIds P patches))
      fun _ e' => e' = e := by
  cases mode with
  | byPatch => cases hverdict
  | byElement =>
    rw [← rejection_share hP] at hverdict
    obtain ⟨rounds, hrun⟩ :=
      together_rejected (C := C) hP hcounts (fun _ => htable rfl) (length_shareIds hP) hverdict
        dev fuel
    exact stops_of_inStep hP hserves hrun

/-- A rank that cannot read its share keeps the others in their first call. -/
theorem refused_in_any_order {Delivers : Library P (Collective P C) Collective.Reply}
    (hserves : Serves Delivers Matches) {q : Fin P} {e : Fault}
    (hq : readShare path file P q = .error e)
    (hids : ∀ (r : Fin P) slice, readShare path file P r = .ok slice →
      slice.globalIds.length = slice.patches.length) (dev : Fin P → Device) (fuel : ℕ) :
    Stops Delivers (selectFileJob C path file mode dev fuel)
      fun r e' => readShare path file P r = .error e' := by
  refine stops_of_refused hserves hq fun hP r slice hr => ?_
  exact ⟨localSample (localUniq slice.patches), length_localSample _,
    select_gathers hP mode (dev r) fuel r (hids r slice hr)⟩

/-- Any bytes at all as the input of the selection, shared by any number of ranks, in any order
of events: a single process refuses the file and no rank ever returns, or it reads a list of
patches, and then every rank returns what the reference selects from it, with positions in the
file as ids, unless the mode rejects a patch of it on all ranks alike. -/
theorem selects_file_in_any_order (path : String) (file : List Byte)
    (hsize : file.length < 2 ^ 62) :
    (∃ whole, readShare path file 1 0 = .ok whole ∧
      ∃ sel, (∀ fuel, (distinctHashes whole.patches).length < fuel →
          fileReference whole.patches fuel = .ok sel) ∧
        ∀ (P : ℕ) (Delivers : Library P (Collective P C) Collective.Reply)
          (mode : PartitionMode) (dev : Fin P → Device), 0 < P → Serves Delivers Matches →
          whole.patches.length * P < 2 ^ 64 → CountsInInt mode (share P whole.patches) →
          TableInInt mode P →
          match verdict mode P whole.patches with
          | none => ∀ fuel, (distinctHashes whole.patches).length + 1 < fuel →
            ∃ passes, Returns Delivers (selectFileJob C path file mode dev fuel)
              fun _ => (passes, sel)
          | some e => ∀ fuel, Stops Delivers (selectFileJob C path file mode dev fuel)
              fun _ e' => e' = e) ∨
    ∃ e, readShare path file 1 0 = .error e ∧
      ∀ (P : ℕ) (Delivers : Library P (Collective P C) Collective.Reply)
        (mode : PartitionMode) (dev : Fin P → Device), 0 < P → Serves Delivers Matches →
        declaredPatches file * P < 2 ^ 64 →
        ∀ fuel, Stops Delivers (selectFileJob C path file mode dev fuel)
          fun r e' => readShare path file P r = .error e' := by
  rcases readShare_cases path hsize with ⟨whole, hwhole, -, -, hshares⟩ | ⟨e, he, hrefused⟩
  · left
    obtain ⟨sel, -, href⟩ := reference_eq_ok (share 1 whole.patches)
    rw [globalUniq_share Nat.one_pos] at href
    simp only [reference_share Nat.one_pos] at href
    refine ⟨whole, hwhole, sel, href, ?_⟩
    intro P Delivers mode dev hP hserves hfit hcounts htable
    have hjob : ∀ fuel, selectFileJob C path file mode dev fuel =
        selectJob C mode dev fuel (share P whole.patches) (shareIds P whole.patches) :=
      fun fuel => selectFileJob_eq (hshares P hP hfit) dev fuel
    simp only [hjob]
    cases hverdict : verdict mode P whole.patches with
    | none =>
      intro fuel hfuel
      exact selected_from_shares hP hserves hcounts htable hverdict href dev hfuel
    | some e =>
      intro fuel
      exact rejected_from_shares hP hserves hcounts htable hverdict dev fuel
  · right
    refine ⟨e, he, ?_⟩
    intro P Delivers mode dev hP hserves hfit fuel
    obtain ⟨⟨q, e', hq⟩, hids⟩ := hrefused P hP hfit
    exact refused_in_any_order hserves hq hids dev fuel

/-- Two patches on three ranks. -/
theorem selects_file_in_any_order_two_patches :
    ∃ sel, ∀ fuel, 3 < fuel → ∃ passes, Returns Eager
      (selectFileJob ℕ "p" (layout [[3, 3], [5]] none) .byElement
        (fun _ : Fin 3 => Device.inOrder) fuel) fun _ => (passes, sel) := by
  have halone : readShare "p" (layout [[3, 3], [5]] none) 1 0 =
      .ok (rankSlice [[3, 3], [5]] none 1 0) :=
    (safely_uscReadInputSlice (by decide) (by decide) (by decide) (by simp)
      (by decide)).outcome_eq rfl
  have hall : (rankSlice [[3, 3], [5]] none 1 0).patches = [[3, 3], [5]] := by decide
  rcases selects_file_in_any_order (C := ℕ) "p" (layout [[3, 3], [5]] none) (by decide) with
    ⟨whole, hwhole, sel, -, hjobs⟩ | ⟨e, he, -⟩
  · rw [halone] at hwhole
    obtain rfl := Except.ok.inj hwhole
    rw [hall] at hjobs
    have hcounts : CountsInInt .byElement (share 3 [[3, 3], [5]]) :=
      countsInInt_of_total_le .byElement (by decide) (by decide)
    have hverdict : verdict .byElement 3 [[3, 3], [5]] = none := by decide
    have hruns := hjobs 3 Eager .byElement (fun _ => Device.inOrder) (by decide) serves_eager
      (by decide) hcounts (fun _ => by decide)
    rw [hverdict] at hruns
    exact ⟨sel, hruns⟩
  · rw [halone] at he
    cases he

end Selection

end PatternSearch.FileJobs
