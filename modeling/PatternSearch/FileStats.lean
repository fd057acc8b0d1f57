import Mathlib.Data.ZMod.Defs
import PatternSearch.FileJobs
import PatternSearch.StatsOutputs

/-!
The statistics driver on a file. It needs coordinates, asks the header for them, and on a file
without them all ranks exit together. Otherwise a rank may be refused its share, or find a
point in it that is not finite, where the others find nothing wrong. What a double is worth is
a parameter, without a value for those that are not finite.
-/

namespace PatternSearch.FileStats

open Machine Collectives Csr Kernels HashMapping PatternStats StatsRun StatTable StatsCorrect Bytes
  FileStream PatchFile PatchFileRead PatchFileWrite PatchFileCorrupt InputSlices Spmd RankCalls
  Interleaving AnyOrder StatsInStep MalformedInput FileJobs

variable {P : ℕ} {C : Type}

section Model

/-- The share of a rank with coordinates, or none where the driver exits. -/
def readStatsShare (path : String) (file : List Byte) (size rank : ℕ) :
    Except Fault (Option PatchSlice) :=
  (exec (Ups.readInputSlice path rank size true) (Stream.opened file)).1

/-- The doubles of a file by their values. -/
def pointsOf (finite : Double → Option C) (coords : List (List (Point Double))) :
    List (List (Point (Option C))) :=
  coords.map fun points => points.map fun p => ⟨finite p.x, finite p.y⟩

variable [LinearOrder C] [Zero C]

/-- `main` of the statistics with `--input` on one rank, up to the result. -/
def statsFromFile (finite : Double → Option C) (path : String) (file : List Byte) (d : Device)
    (k : ℕ) (rank : Fin P) : RankM P C (Option (List (PatternStat C))) := do
  let slice ← compute (readStatsShare path file P rank)
  match slice with
  | none => return none
  | some slice => do
    let stats ←
      RankPrograms.patternStats d rank slice.patches (pointsOf finite slice.coords) k
    return some stats

def statsFileJob (finite : Double → Option C) (path : String) (file : List Byte)
    (dev : Fin P → Device) (k : ℕ) :
    Job P (Collective P C) Collective.Reply Fault (Option (List (PatternStat C))) :=
  start fun r => statsFromFile finite path file (dev r) k r

end Model

section Input

theorem getElem_of_mapM {α β : Type} {f : α → Except Fault β} {l : List α} {l' : List β}
    (h : l.mapM f = .ok l') (i : ℕ) (hi : i < l.length) (hi' : i < l'.length) :
    f l[i] = .ok l'[i] := by
  induction l generalizing l' i with
  | nil => cases hi
  | cons a l ih =>
    rw [List.mapM_cons] at h
    obtain ⟨b, hb, h⟩ := bind_eq_ok.mp h
    obtain ⟨rest, hrest, h⟩ := bind_eq_ok.mp h
    obtain rfl := Except.ok.inj h
    cases i with
    | zero => exact hb
    | succ i => exact ih hrest i (Nat.lt_of_succ_lt_succ hi) (Nat.lt_of_succ_lt_succ hi')

theorem eq_rawPoint_of_finitePoint {p : Point (Option C)} {q : Point C}
    (h : finitePoint p = some q) : p = rawPoint q := by
  obtain ⟨x, y⟩ := p
  cases x with
  | none => cases h
  | some x =>
    cases y with
    | none => cases h
    | some y =>
      obtain rfl := Option.some.inj h
      rfl

theorem eq_map_rawPoint {points : List (Point (Option C))} {finite : List (Point C)}
    (h : points.mapM finitePoint = some finite) : points = finite.map rawPoint := by
  induction points generalizing finite with
  | nil =>
    obtain rfl := Option.some.inj h
    rfl
  | cons p points ih =>
    rw [List.mapM_cons] at h
    obtain ⟨q, hq, h⟩ := Option.bind_eq_some_iff.mp h
    obtain ⟨rest, hrest, h⟩ := Option.bind_eq_some_iff.mp h
    obtain rfl := Option.some.inj h
    rw [List.map_cons, ← ih hrest, ← eq_rawPoint_of_finitePoint hq]

/-- What passes the checks is the input again, point by point. -/
theorem checkPatch_eq_ok_iff {p : ℕ} {hashes : List Hash} {points : List (Point (Option C))}
    {patch : List (Hash × Point C)} : checkPatch p hashes points = .ok patch ↔
      hashes = patch.map Prod.fst ∧ points = patch.map fun x => rawPoint x.2 := by
  constructor
  · intro h
    unfold checkPatch at h
    split_ifs at h with hlen
    cases hfinite : points.mapM finitePoint with
    | none =>
      rw [hfinite] at h
      cases h
    | some finite =>
      rw [hfinite] at h
      obtain rfl := Except.ok.inj h
      have hpoints := eq_map_rawPoint hfinite
      have hsame : finite.length = hashes.length := by
        rw [hpoints, List.length_map] at hlen
        exact not_not.mp hlen
      have hsnd : (hashes.zip finite).map (fun x => rawPoint x.2) =
          ((hashes.zip finite).map Prod.snd).map rawPoint := by
        rw [List.map_map]
        rfl
      exact ⟨(List.map_fst_zip hsame.ge).symm, by rw [hsnd, List.map_snd_zip hsame.le, hpoints]⟩
  · rintro ⟨rfl, rfl⟩
    exact checkPatch_eq_ok p patch

theorem checkInput_eq_ok_iff {patches : List (List Hash)} {coords : List (List (Point (Option C)))}
    {located : LocatedPatches C} : checkInput patches coords = .ok located ↔
      patches = (located.map fun patch => patch.map Prod.fst) ∧
        coords = located.map fun patch => patch.map fun x => rawPoint x.2 := by
  constructor
  · intro h
    unfold checkInput at h
    split_ifs at h with hlen
    rw [not_not] at hlen
    have hcount : located.length = patches.length := by
      rw [length_of_mapM h, List.length_range]
    have hpatch : ∀ p (hp : p < located.length) (hp' : p < patches.length)
        (hp'' : p < coords.length), patches[p] = located[p].map Prod.fst ∧
          coords[p] = located[p].map fun x => rawPoint x.2 := by
      intro p hp hp' hp''
      have hcheck := getElem_of_mapM h p (by simpa using hp') hp
      rw [List.getElem_range, List.getD_eq_getElem _ _ hp', List.getD_eq_getElem _ _ hp''] at hcheck
      exact checkPatch_eq_ok_iff.mp hcheck
    constructor
    · apply List.ext_getElem (by simp [hcount])
      intro p hp hp'
      rw [List.getElem_map]
      exact (hpatch p (by omega) hp (by omega)).1
    · apply List.ext_getElem (by simp [hcount, hlen])
      intro p hp hp'
      rw [List.getElem_map]
      exact (hpatch p (by omega) (by omega) hp).2
  · rintro ⟨rfl, rfl⟩
    exact checkInput_eq_ok (fun _ : Fin 1 => located) 0

end Input

section Shares

variable {finite : Double → Option C} {slice : PatchSlice} {located : LocatedPatches C}

/-- The located patches of a rank. -/
def locatedShare (P : ℕ) (located : LocatedPatches C) (r : Fin P) : LocatedPatches C :=
  window located (rankBegin located.length P r) (rankBegin located.length P (r + 1))

theorem gather_locatedShare (hP : 0 < P) : gather (locatedShare P located) = located :=
  (gather_eq_flatMap_range fun r => window located (rankBegin located.length P r)
    (rankBegin located.length P (r + 1))).trans (flatMap_windows located hP)

theorem map_window {α β : Type} (f : α → β) (l : List α) (first last : ℕ) :
    (window l first last).map f = window (l.map f) first last := by
  rw [window, window, List.map_take, List.map_drop]

/-- When the whole passes the checks, the shares pass them with its located patches. -/
theorem share_of_located
    (h : checkInput slice.patches (pointsOf finite slice.coords) = .ok located) (r : Fin P) :
    (rankSlice slice.patches (some slice.coords) P r).patches =
        hashesOf (locatedShare P located) r ∧
      pointsOf finite (rankSlice slice.patches (some slice.coords) P r).coords =
        coordsOf (locatedShare P located) r := by
  obtain ⟨hpatches, hcoords⟩ := checkInput_eq_ok_iff.mp h
  have hlen : slice.patches.length = located.length := by rw [hpatches, List.length_map]
  constructor
  · rw [hashesOf, locatedShare, map_window, ← hpatches, rankSlice, hlen]
  · rw [coordsOf, locatedShare, map_window, ← hcoords, rankSlice, hlen, Option.getD_some, pointsOf,
      map_window]
    rfl

/-- And when every share passes them, so does the whole. -/
theorem located_of_shares (hP : 0 < P) (hcoords : slice.coords.length = slice.patches.length)
    (h : ∀ r : Fin P, ∃ part,
      checkInput (rankSlice slice.patches (some slice.coords) P r).patches
        (pointsOf finite (rankSlice slice.patches (some slice.coords) P r).coords) = .ok part) :
    ∃ located, checkInput slice.patches (pointsOf finite slice.coords) = .ok located := by
  choose part hpart using h
  have hpatches : ∀ r : Fin P, (rankSlice slice.patches (some slice.coords) P r).patches =
      (part r).map fun patch => patch.map Prod.fst := fun r => (checkInput_eq_ok_iff.mp (hpart r)).1
  have hpoints : ∀ r : Fin P,
      pointsOf finite (rankSlice slice.patches (some slice.coords) P r).coords =
        (part r).map fun patch => patch.map fun x => rawPoint x.2 := fun r =>
    (checkInput_eq_ok_iff.mp (hpart r)).2
  refine ⟨gather part, checkInput_eq_ok_iff.mpr ⟨?_, ?_⟩⟩
  · have hall := (gather_eq_flatMap_range fun r =>
      (rankSlice slice.patches (some slice.coords) P r).patches).trans
        (flatMap_rankSlice_patches hP)
    rw [← hall, map_gather]
    exact congrArg gather (funext hpatches)
  · have hwindows := flatMap_windows slice.coords hP
    have hall := (gather_eq_flatMap_range fun r => window slice.coords
      (rankBegin slice.coords.length P r) (rankBegin slice.coords.length P (r + 1))).trans hwindows
    rw [pointsOf, ← hall, map_gather, map_gather]
    apply congrArg gather
    funext r
    rw [← hpoints r, pointsOf, rankSlice, Option.getD_some, hcoords]

end Shares

section Reading

variable {rd : StpsBinaryReader} {file : List Byte}

/-- With coordinates the driver reads what the other one reads, without them it exits. -/
theorem readStatsShare_cases (path : String) {file : List Byte} (hsize : file.length < 2 ^ 62) :
    (∀ P, ∀ r < P, readStatsShare path file P r = .ok none) ∨
      ∀ P, declaredPatches file * P < 2 ^ 64 → ∀ r < P,
        readStatsShare path file P r = (readShare path file P r).map some ∧
          ∀ slice, readShare path file P r = .ok slice →
            slice.coords.length = slice.patches.length := by
  have hsmall : file.length < 2 ^ 63 := by omega
  rcases open_accepted_or_error path hsize with ⟨rd, hacc, rfl⟩ | ⟨what, herror⟩
  · by_cases hcoords : rd.hasCoords = true
    · right
      intro P hfit r hr
      have hcount : declaredPatches file = rd.M := hacc.count
      rw [hcount] at hfit
      have hbegin := wrap64_split hfit hr.le
      have hend := wrap64_split (r := r + 1) hfit hr
      have hcount : rd.patchCount = rd.M := rfl
      have hread : readShare rd.path file P r = _ :=
        (safely_readShare hacc hsmall hfit hr).outcome_eq rfl
      have hsafe : Safely file (Ups.readInputSlice rd.path r P true)
          ((sliceOutcome rd file (rankBegin rd.M P r) (rankBegin rd.M P (r + 1))).map some) := by
        rw [Ups.readInputSlice]
        apply Safely.bind (hacc.safely_open hsmall)
        dsimp only
        rw [if_neg (by simp [hcoords]), hcount, hbegin, hend]
        have hslice := safely_readSlice hacc hsmall (rankBegin rd.M P r) (rankBegin rd.M P (r + 1))
        cases houtcome : sliceOutcome rd file (rankBegin rd.M P r) (rankBegin rd.M P (r + 1)) with
        | ok slice =>
          rw [houtcome] at hslice
          exact Safely.bind hslice (Safely.pure _)
        | error e =>
          rw [houtcome] at hslice
          exact Safely.bind_error hslice
      rw [hread]
      refine ⟨hsafe.outcome_eq rfl, fun slice hslice => ?_⟩
      rw [sliceOutcome_eq_ok_iff (rankBegin_mono _ _ (Nat.le_succ _))
        (rankBegin_succ_le (Nat.zero_lt_of_lt hr) hr)] at hslice
      obtain ⟨-, -, rfl⟩ := hslice
      rw [fileSlice_coords hcoords, fileSlice_patches, List.length_map, List.length_map]
    · left
      intro P r _
      have hsafe : Safely file (Ups.readInputSlice rd.path r P true) (.ok none) := by
        rw [Ups.readInputSlice]
        apply Safely.bind (hacc.safely_open hsmall)
        dsimp only
        rw [if_pos ⟨rfl, hcoords⟩]
        exact Safely.pure none
      exact hsafe.outcome_eq rfl
  · right
    intro P _ r _
    have hstats : readStatsShare path file P r = .error (fail path what) :=
      exec_bind_fst_error (herror _ rfl)
    have hshare : readShare path file P r = .error (fail path what) :=
      exec_bind_fst_error (herror _ rfl)
    rw [hstats, hshare]
    exact ⟨rfl, fun slice hslice => by cases hslice⟩

end Reading

section Located

variable {file : List Byte} {path : String}

/-- The located patches with which a rank enters the statistics. -/
def readLocated (finite : Double → Option C) (path : String) (file : List Byte) (size rank : ℕ) :
    Except Fault (Option (LocatedPatches C)) := do
  let slice ← readStatsShare path file size rank
  match slice with
  | none => return none
  | some slice => do
    let located ← checkInput slice.patches (pointsOf finite slice.coords)
    return some located

theorem readLocated_of_share (finite : Double → Option C) {size rank : ℕ} {slice : PatchSlice}
    (h : readStatsShare path file size rank = .ok (some slice)) :
    readLocated finite path file size rank =
      (checkInput slice.patches (pointsOf finite slice.coords)).map some := by
  unfold readLocated
  rw [h, ok_bind]
  dsimp only
  cases checkInput slice.patches (pointsOf finite slice.coords) with
  | ok located => rfl
  | error e => rfl

theorem readLocated_of_refused (finite : Double → Option C) {size rank : ℕ} {e : Fault}
    (h : readStatsShare path file size rank = .error e) :
    readLocated finite path file size rank = .error e := by
  unfold readLocated
  rw [h]
  rfl

/-- What a single process finds wrong in the file some rank finds wrong in its share. -/
theorem readLocated_cases (finite : Double → Option C) (path : String) {file : List Byte}
    (hsize : file.length < 2 ^ 62) :
    (∀ P, ∀ r < P, readStatsShare path file P r = .ok none) ∨
      (∃ located, readLocated finite path file 1 0 = .ok (some located) ∧
        ∀ P, 0 < P → declaredPatches file * P < 2 ^ 64 → ∀ r : Fin P, ∃ slice,
          readStatsShare path file P r = .ok (some slice) ∧
          slice.patches = hashesOf (locatedShare P located) r ∧
          pointsOf finite slice.coords = coordsOf (locatedShare P located) r) ∨
      ∃ e, readLocated finite path file 1 0 = .error e ∧
        ∀ P, 0 < P → declaredPatches file * P < 2 ^ 64 →
          (∃ (r : Fin P) (e : Fault), readLocated finite path file P r = .error e) ∧
          ∀ r : Fin P, readStatsShare path file P r ≠ .ok none := by
  rcases readStatsShare_cases path hsize with hnone | hstats
  · exact .inl hnone
  right
  have hone : declaredPatches file * 1 < 2 ^ 64 := by
    rw [Nat.mul_one]
    exact Fin.isLt _
  have hread : ∀ P, declaredPatches file * P < 2 ^ 64 → ∀ r < P,
      readStatsShare path file P r = (readShare path file P r).map some :=
    fun P hfit r hr => (hstats P hfit r hr).1
  have hsome : ∀ P, declaredPatches file * P < 2 ^ 64 → ∀ r : Fin P,
      readStatsShare path file P r ≠ .ok none := by
    intro P hfit r
    rw [hread P hfit r r.isLt]
    cases readShare path file P r with
    | ok slice => exact nofun
    | error e => exact nofun
  rcases readShare_cases path hsize with ⟨whole, hwhole, hcount, -, hshares⟩ | ⟨e, he, hrefused⟩
  · have hcoords := (hstats 1 hone 0 Nat.one_pos).2 whole hwhole
    have halone := hread 1 hone 0 Nat.one_pos
    rw [hwhole] at halone
    have hstart := readLocated_of_share finite halone
    have hpart : ∀ P, 0 < P → declaredPatches file * P < 2 ^ 64 → ∀ r : Fin P,
        readStatsShare path file P r =
          .ok (some (rankSlice whole.patches (some whole.coords) P r)) := by
      intro P hP hfit r
      rw [hread P hfit r r.isLt, hshares P hP (by rwa [hcount]) r]
      rfl
    cases hcheck : checkInput whole.patches (pointsOf finite whole.coords) with
    | ok located =>
      rw [hcheck] at hstart
      refine .inl ⟨located, hstart, fun P hP hfit r => ?_⟩
      obtain ⟨hpatches, hpoints⟩ := share_of_located hcheck r
      exact ⟨_, hpart P hP hfit r, hpatches, hpoints⟩
    | error e =>
      rw [hcheck] at hstart
      refine .inr ⟨e, hstart, fun P hP hfit => ⟨?_, hsome P hfit⟩⟩
      by_contra hnone
      have hall : ∀ r : Fin P, ∃ part,
          checkInput (rankSlice whole.patches (some whole.coords) P r).patches
            (pointsOf finite (rankSlice whole.patches (some whole.coords) P r).coords) =
              .ok part := by
        intro r
        cases hr : checkInput (rankSlice whole.patches (some whole.coords) P r).patches
            (pointsOf finite (rankSlice whole.patches (some whole.coords) P r).coords) with
        | ok part => exact ⟨part, rfl⟩
        | error e =>
          have hlocated := readLocated_of_share finite (hpart P hP hfit r)
          rw [hr] at hlocated
          exact absurd ⟨r, e, hlocated⟩ hnone
      obtain ⟨located, hlocated⟩ := located_of_shares hP hcoords hall
      rw [hcheck] at hlocated
      cases hlocated
  · have halone := hread 1 hone 0 Nat.one_pos
    rw [he] at halone
    refine .inr ⟨e, readLocated_of_refused finite halone, fun P hP hfit => ⟨?_, hsome P hfit⟩⟩
    obtain ⟨⟨r, e', hr⟩, -⟩ := hrefused P hP hfit
    have hstatsShare := hread P hfit r r.isLt
    rw [hr] at hstatsShare
    exact ⟨r, e', readLocated_of_refused finite hstatsShare⟩

end Located

section Orders

variable [LinearOrder C] [Zero C] {finite : Double → Option C} {path : String} {file : List Byte}

theorem statsFromFile_of_share {r : Fin P} {slice : PatchSlice}
    (h : readStatsShare path file P r = .ok (some slice)) (d : Device) (k : ℕ) :
    statsFromFile finite path file d k r =
      RankPrograms.patternStats d r slice.patches (pointsOf finite slice.coords) k >>=
        fun stats => pure (some stats) := by
  unfold statsFromFile
  rw [h]
  rfl

/-- What stops a rank in front of the gather is what it finds wrong in its share. -/
theorem statsFromFile_of_error {r : Fin P} {e : Fault}
    (h : readLocated finite path file P r = .error e) (d : Device) (k : ℕ) :
    statsFromFile finite path file d k r = .stop e := by
  cases hshare : readStatsShare path file P r with
  | error e' =>
    rw [readLocated_of_refused finite hshare] at h
    obtain rfl := Except.error.inj h
    unfold statsFromFile
    rw [hshare]
    rfl
  | ok read =>
    cases read with
    | none =>
      unfold readLocated at h
      rw [hshare] at h
      cases h
    | some slice =>
      rw [readLocated_of_share finite hshare] at h
      rw [statsFromFile_of_share hshare]
      unfold RankPrograms.patternStats
      cases hcheck : checkInput slice.patches (pointsOf finite slice.coords) with
      | ok located =>
        rw [hcheck] at h
        cases h
      | error e' =>
        rw [hcheck] at h
        obtain rfl := Except.error.inj h
        rfl

theorem shareJob_eq {located : LocatedPatches C}
    (h : ∀ r : Fin P, ∃ slice, readStatsShare path file P r = .ok (some slice) ∧
      slice.patches = hashesOf (locatedShare P located) r ∧
      pointsOf finite slice.coords = coordsOf (locatedShare P located) r)
    (dev : Fin P → Device) (k : ℕ) :
    statsFileJob finite path file dev k = start fun r =>
      RankPrograms.patternStats (dev r) r (hashesOf (locatedShare P located) r)
        (coordsOf (locatedShare P located) r) k >>= fun stats => pure (some stats) := by
  unfold statsFileJob
  congr 1
  funext r
  obtain ⟨slice, hslice, hpatches, hpoints⟩ := h r
  rw [statsFromFile_of_share hslice, hpatches, hpoints]

/-- A rank that finds something wrong in its share keeps the others in their first call. -/
theorem refused_stats {Delivers : Library P (Collective P C) Collective.Reply}
    (hserves : Serves Delivers Matches) {q : Fin P} {e : Fault}
    (hq : readLocated finite path file P q = .error e)
    (hsome : ∀ r : Fin P, readStatsShare path file P r ≠ .ok none)
    (hcount : ∀ (r : Fin P) located, readLocated finite path file P r = .ok (some located) →
      located.flatten.length ≤ intMax) (dev : Fin P → Device) (k : ℕ) :
    Stops Delivers (statsFileJob finite path file dev k)
      fun r e' => readLocated finite path file P r = .error e' := by
  have hgood : 1 < P → ∀ r : Fin P, (∃ e, readLocated finite path file P r = .error e ∧
      statsFromFile finite path file (dev r) k r = .stop e) ∨
      ∃ sample : List Hash, sample.length = kSamplesPerRank ∧ ∃ next,
        statsFromFile finite path file (dev r) k r =
          .call (.allgatherv .hash sample fun _ => kSamplesPerRank) next := by
    intro hP r
    cases hr : readLocated finite path file P r with
    | error e' => exact .inl ⟨e', rfl, statsFromFile_of_error hr (dev r) k⟩
    | ok read =>
      right
      cases hshare : readStatsShare path file P r with
      | error e' =>
        rw [readLocated_of_refused finite hshare] at hr
        cases hr
      | ok read' =>
        cases read' with
        | none => exact absurd hshare (hsome r)
        | some slice =>
          have hlocated := readLocated_of_share finite hshare
          cases hcheck : checkInput slice.patches (pointsOf finite slice.coords) with
          | error e' =>
            rw [hcheck, hr] at hlocated
            cases hlocated
          | ok located =>
            rw [hcheck] at hlocated
            obtain ⟨sample, hsample, hgathers⟩ :=
              stats_gathers hP (dev r) r k hcheck (hcount r located hlocated)
            refine ⟨sample, hsample, ?_⟩
            rw [statsFromFile_of_share hshare]
            exact bind_gathers _ hgathers
  refine ⟨P + 1, fun n job hrun => ?_⟩
  obtain ⟨hn, hrunning, haborted⟩ := gathers_or_stops_in_any_order hserves
    (fun r e' => readLocated finite path file P r = .error e') hgood hq
    (statsFromFile_of_error hq (dev q) k) hrun
  exact ⟨hn, fun f hf => (hrunning f hf).2, haborted⟩

/-- Where every rank has its located share, all of them return the first entries of the table. -/
theorem returns_of_shares (hP : 0 < P)
    {Delivers : Library P (Collective P C) Collective.Reply} (hserves : Serves Delivers Matches)
    {located : LocatedPatches C}
    (h : ∀ r : Fin P, ∃ slice, readStatsShare path file P r = .ok (some slice) ∧
      slice.patches = hashesOf (locatedShare P located) r ∧
      pointsOf finite slice.coords = coordsOf (locatedShare P located) r)
    (hcounts : StatAdmissible (locatedShare P located)) (dev : Fin P → Device) {k : ℕ}
    (hcheck : checkCandidates k (candidateCount (hashesOf (locatedShare P located)) k) = .ok ()) :
    Returns Delivers (statsFileJob finite path file dev k) fun _ =>
      some ((statTable located).take k) := by
  have hstats := together_patternStats hP dev hcounts (few_of_checkCandidates hcheck)
  rw [gather_locatedShare hP] at hstats
  obtain ⟨rounds, hrun⟩ := Spmd.Together.bind (f := fun _ stats => pure (some stats)) hstats
    (Spmd.Together.done fun _ => some ((statTable located).take k))
  rw [shareJob_eq h dev k]
  exact returns_of_inStep hserves hrun

/-- Too many candidates stop all of them. -/
theorem stops_of_shares (hP : 0 < P)
    {Delivers : Library P (Collective P C) Collective.Reply} (hserves : Serves Delivers Matches)
    {located : LocatedPatches C}
    (h : ∀ r : Fin P, ∃ slice, readStatsShare path file P r = .ok (some slice) ∧
      slice.patches = hashesOf (locatedShare P located) r ∧
      pointsOf finite slice.coords = coordsOf (locatedShare P located) r)
    (hcounts : StatAdmissible (locatedShare P located)) (dev : Fin P → Device) {k : ℕ} {e : Fault}
    (hcheck : checkCandidates k (candidateCount (hashesOf (locatedShare P located)) k) =
      .error e) :
    Stops Delivers (statsFileJob finite path file dev k) fun _ e' => e' = e := by
  have hstats := together_of_merge hP dev hcounts
    (together_mergeCandidates_rejected (by rwa [sum_topOfShard]))
  obtain ⟨rounds, hrun⟩ := Spmd.Together.bind_stopped (fun _ stats => pure (some stats)) hstats
  rw [shareJob_eq h dev k]
  exact stops_of_inStep hP hserves hrun

/-- Any bytes at all as the input of the statistics, shared by any number of ranks, in any order
of events. Either the file has no coordinates and every rank exits, or a single process reads
located patches from it and every rank returns the first entries of their table, or it is
refused or finds a point that is not finite, and no rank ever returns. -/
theorem stats_file_in_any_order (finite : Double → Option C) (path : String) (file : List Byte)
    (hsize : file.length < 2 ^ 62) :
    (readLocated finite path file 1 0 = .ok none ∧
      ∀ (P : ℕ) (Delivers : Library P (Collective P C) Collective.Reply) (dev : Fin P → Device)
        (k : ℕ), Serves Delivers Matches →
        Returns Delivers (statsFileJob finite path file dev k) fun _ => none) ∨
    (∃ located table, readLocated finite path file 1 0 = .ok (some located) ∧
      IsStatTable located table ∧
      ∀ (P : ℕ) (Delivers : Library P (Collective P C) Collective.Reply) (dev : Fin P → Device)
        (k : ℕ), 0 < P → Serves Delivers Matches → declaredPatches file * P < 2 ^ 64 →
        StatAdmissible (locatedShare P located) →
        (checkCandidates k (candidateCount (hashesOf (locatedShare P located)) k) = .ok () →
          Returns Delivers (statsFileJob finite path file dev k) fun _ => some (table.take k)) ∧
        ∀ e, checkCandidates k (candidateCount (hashesOf (locatedShare P located)) k) = .error e →
          Stops Delivers (statsFileJob finite path file dev k) fun _ e' => e' = e) ∨
    ∃ e, readLocated finite path file 1 0 = .error e ∧
      ∀ (P : ℕ) (Delivers : Library P (Collective P C) Collective.Reply) (dev : Fin P → Device)
        (k : ℕ), 0 < P → Serves Delivers Matches → declaredPatches file * P < 2 ^ 64 →
        (∀ (r : Fin P) located, readLocated finite path file P r = .ok (some located) →
          located.flatten.length ≤ intMax) →
        Stops Delivers (statsFileJob finite path file dev k)
          fun r e' => readLocated finite path file P r = .error e' := by
  rcases readLocated_cases finite path hsize with
    hnone | ⟨located, halone, hshares⟩ | ⟨e, he, hrefused⟩
  · refine .inl ⟨?_, fun P Delivers dev k hserves => ?_⟩
    · unfold readLocated
      rw [hnone 1 0 Nat.one_pos]
      rfl
    · have hjob : statsFileJob finite path file dev k =
          start fun _ => .done (none : Option (List (PatternStat C))) := by
        unfold statsFileJob statsFromFile
        congr 1
        funext r
        rw [hnone P r r.isLt]
        rfl
      have hdone : Together (fun _ : Fin P =>
          (pure none : RankM P C (Option (List (PatternStat C)))))
          (.returned fun _ => none) := Spmd.Together.done _
      obtain ⟨rounds, hrun⟩ := hdone
      rw [hjob]
      exact returns_of_inStep hserves hrun
  · refine .inr (.inl ⟨located, statTable located, halone, isStatTable_statTable _, ?_⟩)
    intro P Delivers dev k hP hserves hfit hcounts
    constructor
    · exact returns_of_shares hP hserves (hshares P hP hfit) hcounts dev
    · intro e hcheck
      exact stops_of_shares hP hserves (hshares P hP hfit) hcounts dev hcheck
  · refine .inr (.inr ⟨e, he, ?_⟩)
    intro P Delivers dev k hP hserves hfit hcount
    obtain ⟨⟨q, e', hq⟩, hsome⟩ := hrefused P hP hfit
    exact refused_stats hserves hq hsome hcount dev k

/-- A hash at two places, on three ranks, every double worth its bits. -/
theorem stats_file_in_any_order_one_hash :
    ∃ table, IsStatTable [[(3, ⟨2, 5⟩), (3, ⟨1, 9⟩)]] table ∧
      Returns Eager (statsFileJob (fun x => some (x : ℕ)) "p"
        (layout [[3, 3]] (some [[⟨2, 5⟩, ⟨1, 9⟩]])) (fun _ : Fin 3 => Device.inOrder) 2)
          fun _ => some (table.take 2) := by
  have hread : readStatsShare "p" (layout [[3, 3]] (some [[⟨2, 5⟩, ⟨1, 9⟩]])) 1 0 =
      .ok (some (rankSlice [[3, 3]] (some [[⟨2, 5⟩, ⟨1, 9⟩]]) 1 0)) := by
    have hsafe : Safely (layout [[3, 3]] (some [[⟨2, 5⟩, ⟨1, 9⟩]]))
        (Ups.readInputSlice "p" 0 1 true)
        (.ok (some (rankSlice [[3, 3]] (some [[⟨2, 5⟩, ⟨1, 9⟩]]) 1 0))) :=
      safely_upsReadInputSlice (by decide) (by decide) (by decide) (by simp [SameShape])
        (by decide) true
    exact hsafe.outcome_eq rfl
  have halone := readLocated_of_share (fun x => some (x : ℕ)) hread
  have hcheck : checkInput (rankSlice [[3, 3]] (some [[⟨2, 5⟩, ⟨1, 9⟩]]) 1 0).patches
      (pointsOf (fun x => some (x : ℕ))
        (rankSlice [[3, 3]] (some [[⟨2, 5⟩, ⟨1, 9⟩]]) 1 0).coords) =
      .ok [[(3, ⟨2, 5⟩), (3, ⟨1, 9⟩)]] := checkInput_eq_ok_iff.mpr (by decide)
  rw [hcheck] at halone
  rcases stats_file_in_any_order (fun x => some (x : ℕ)) "p"
    (layout [[3, 3]] (some [[⟨2, 5⟩, ⟨1, 9⟩]])) (by decide) with
    ⟨hnone, -⟩ | ⟨located, table, hlocated, htable, hjobs⟩ | ⟨e, he, -⟩
  · rw [halone] at hnone
    cases hnone
  · rw [halone] at hlocated
    obtain rfl := Option.some.inj (Except.ok.inj hlocated)
    have hfit : StatAdmissible (locatedShare 3 [[(3, (⟨2, 5⟩ : Point ℕ)), (3, ⟨1, 9⟩)]]) :=
      statAdmissible_of_total_le (by decide) (by decide) (by decide)
    have hle := candidateCount_le
      (hashesOf (locatedShare 3 [[(3, (⟨2, 5⟩ : Point ℕ)), (3, ⟨1, 9⟩)]])) 2
    have hfew : ¬ intMax / 8 < candidateCount
        (hashesOf (locatedShare 3 [[(3, (⟨2, 5⟩ : Point ℕ)), (3, ⟨1, 9⟩)]])) 2 := by
      unfold intMax
      omega
    exact ⟨table, htable, (hjobs 3 Eager (fun _ => Device.inOrder) 2 (by decide) serves_eager
      (by decide) hfit).1 (if_neg hfew)⟩
  · rw [halone] at he
    cases he

end Orders

section Output

open ParallelFile StatsFile StatsOutputs

variable [LinearOrder C] [Zero C] {finite : Double → Option C} {path : String}
  {file : List Byte}

/-- From the bytes of the input to the bytes of the output. On a file that a single process can
read with located points, any number of ranks, in any order of events, either comes to a write
that stays within all its bounds, and leaves, however the ranks interleave in it and whatever
was there before, one readable line for each of the first entries of the table, or is rejected
by the merge before it comes to the write. -/
theorem output_of_file (coord : C → List Byte) (hcoord : ∀ x, (coord x).length = 25)
    (path output : String) (file : List Byte) (hsize : file.length < 2 ^ 62)
    {located : LocatedPatches C} (hread : readLocated finite path file 1 0 = .ok (some located)) :
    ∃ table, IsStatTable located table ∧
      ∀ (P : ℕ) (Delivers : Library P (Collective P C) Collective.Reply) (dev : Fin P → Device)
        (k : ℕ), 0 < P → Serves Delivers Matches →
        declaredPatches file * P < 2 ^ 64 → StatAdmissible (locatedShare P located) →
        (checkCandidates k (candidateCount (hashesOf (locatedShare P located)) k) = .ok () →
          Returns Delivers (statsFileJob finite path file dev k) (fun _ => some (table.take k)) ∧
          WritesStats P output coord (table.take k)) ∧
        ∀ e, checkCandidates k (candidateCount (hashesOf (locatedShare P located)) k) = .error e →
          Stops Delivers (statsFileJob finite path file dev k) fun _ e' => e' = e := by
  refine ⟨statTable located, isStatTable_statTable _, ?_⟩
  intro P Delivers dev k hP hserves hfit hcounts
  rcases readLocated_cases finite path hsize with hnone | ⟨located', halone, hshares⟩ | ⟨e, he, -⟩
  · unfold readLocated at hread
    rw [hnone 1 0 Nat.one_pos] at hread
    cases hread
  · rw [halone] at hread
    obtain rfl := Option.some.inj (Except.ok.inj hread)
    refine ⟨fun hcheck => ?_, fun e => stops_of_shares hP hserves (hshares P hP hfit) hcounts dev⟩
    refine ⟨returns_of_shares hP hserves (hshares P hP hfit) hcounts dev hcheck, ?_⟩
    have hprint := printable_table hcounts hcoord k
    have hfits := fits_table hP hcounts hcheck
    rw [gather_locatedShare hP] at hprint hfits
    exact writesStats_of_fits output hP (ranks_le hcounts.table) hprint hfits
  · rw [he] at hread
    cases hread

/-- The doubles of the whole numbers below ten. -/
def digitValue (x : Double) : Option (Fin 10) :=
  ([(0, 0), (0x3FF0000000000000, 1), (0x4000000000000000, 2), (0x4008000000000000, 3),
    (0x4010000000000000, 4), (0x4014000000000000, 5), (0x4018000000000000, 6),
    (0x401C000000000000, 7), (0x4020000000000000, 8), (0x4022000000000000, 9)] :
      List (Double × Fin 10)).lookup x

/-- The points (2, 5) and (1, 9). -/
def twoPoints : List (List (Point Double)) :=
  [[⟨0x4000000000000000, 0x4014000000000000⟩, ⟨0x3FF0000000000000, 0x4022000000000000⟩]]

/-- A hash at two places, on three ranks. -/
theorem output_of_file_two_points :
    ∃ table, IsStatTable [[(3, (⟨2, 5⟩ : Point (Fin 10))), (3, ⟨1, 9⟩)]] table ∧
      Returns Eager (statsFileJob digitValue "p" (layout [[3, 3]] (some twoPoints))
        (fun _ : Fin 3 => Device.inOrder) 2) (fun _ => some (table.take 2)) ∧
      WritesStats 3 "out" oneDigit (table.take 2) := by
  have hread : readStatsShare "p" (layout [[3, 3]] (some twoPoints)) 1 0 =
      .ok (some (rankSlice [[3, 3]] (some twoPoints) 1 0)) := by
    have hsafe : Safely (layout [[3, 3]] (some twoPoints)) (Ups.readInputSlice "p" 0 1 true)
        (.ok (some (rankSlice [[3, 3]] (some twoPoints) 1 0))) :=
      safely_upsReadInputSlice (by decide) (by decide) (by decide) (by simp [SameShape, twoPoints])
        (by decide) true
    exact hsafe.outcome_eq rfl
  have halone := readLocated_of_share digitValue hread
  have hcheck : checkInput (rankSlice [[3, 3]] (some twoPoints) 1 0).patches
      (pointsOf digitValue (rankSlice [[3, 3]] (some twoPoints) 1 0).coords) =
      .ok [[(3, ⟨2, 5⟩), (3, ⟨1, 9⟩)]] := checkInput_eq_ok_iff.mpr (by decide)
  rw [hcheck] at halone
  obtain ⟨table, htable, hjobs⟩ := output_of_file oneDigit (by decide) "p" "out"
    (layout [[3, 3]] (some twoPoints)) (by decide) halone
  have hle := candidateCount_le
    (hashesOf (locatedShare 3 [[(3, (⟨2, 5⟩ : Point (Fin 10))), (3, ⟨1, 9⟩)]])) 2
  have hfew : ¬ intMax / 8 < candidateCount
      (hashesOf (locatedShare 3 [[(3, (⟨2, 5⟩ : Point (Fin 10))), (3, ⟨1, 9⟩)]])) 2 := by
    unfold intMax
    omega
  exact ⟨table, htable, (hjobs 3 Eager (fun _ => Device.inOrder) 2 (by decide) serves_eager
    (by decide) (statAdmissible_of_total_le (by decide) (by decide) (by decide))).1 (if_neg hfew)⟩

end Output

end PatternSearch.FileStats
