import PatternSearch.FileStats
import PatternSearch.FileUniques

/-!
A dump as the input of a later job. A rank that reads its share of a dump runs the program of a
rank that still has the patches in memory. What is left of a dump that was cut short is not
taken for a smaller one: the first 24 bytes of an accepted file tell its length.
-/

namespace PatternSearch.Dumps

open Machine Collectives Csr Kernels HashMapping PatternStats Bytes FileStream PatchFile
  PatchFileRead PatchFileWrite PatchFileCorrupt InputSlices Selector Spmd RankCalls Interleaving
  AnyOrder FileJobs FileStats FileUniques

variable {P : ℕ} {C : Type} {path : String} {patches : List (List Hash)}
  {coords : Option (List (List (Point Double)))}

section Memory

/-- `main` of the selection without `--input`: every rank has the patches and keeps its share. -/
def selectFromList (patches : List (List Hash)) (mode : PartitionMode) (d : Device) (fuel : ℕ)
    (rank : Fin P) : RankM P C (ℕ × PatchSelection) := do
  let slice ← compute (slicePatchesByRank patches rank P)
  RankPrograms.patchSelect mode d fuel rank slice.patches slice.globalIds

/-- `main` of the statistics without `--input`, up to the result. -/
def statsFromList [LinearOrder C] [Zero C] (finite : Double → Option C)
    (patches : List (List Hash)) (coords : List (List (Point Double))) (d : Device) (k : ℕ)
    (rank : Fin P) : RankM P C (Option (List (PatternStat C))) := do
  let slice ← compute (slicePatchesByRankCoords patches coords rank P)
  let stats ← RankPrograms.patternStats d rank slice.patches (pointsOf finite slice.coords) k
  return some stats

/-- The same for the distinct hashes alone, up to the write. -/
def uniquesFromList (patches : List (List Hash)) (rank : Fin P) :
    RankM P C (Option IdMappedPatches) := do
  let slice ← compute (slicePatchesByRank patches rank P)
  let mapped ← RankPrograms.mapHashesToElementIds rank slice.patches
  return some mapped

variable (hshape : ∀ cs, coords = some cs → SameShape patches cs)
  (hsmall : (layout patches coords).length < 2 ^ 63) (hfit : patches.length * P < 2 ^ 64)
include hshape hsmall hfit

theorem readShare_layout (r : Fin P) :
    readShare path (layout patches coords) P r = .ok (rankSlice patches coords P r) :=
  (safely_uscReadInputSlice (Nat.zero_lt_of_lt r.isLt) hfit r.isLt hshape hsmall).outcome_eq rfl

theorem readStatsShare_layout (r : Fin P) :
    readStatsShare path (layout patches coords) P r =
      .ok (if coords = none then none else some (rankSlice patches coords P r)) := by
  have hread : Safely (layout patches coords) (Ups.readInputSlice path r P true)
      (.ok (if coords = none then none else some (rankSlice patches coords P r))) := by
    simpa only [true_and] using
      safely_upsReadInputSlice (Nat.zero_lt_of_lt r.isLt) hfit r.isLt hshape hsmall true
  exact hread.outcome_eq rfl

/-- On its share of a dump, with or without coordinates, a rank of the selection does what it
does on the patches in memory. -/
theorem selectFromFile_layout (mode : PartitionMode) (d : Device) (fuel : ℕ) (r : Fin P) :
    (selectFromFile path (layout patches coords) mode d fuel r : RankM P C (ℕ × PatchSelection)) =
      selectFromList patches mode d fuel r := by
  unfold selectFromFile selectFromList
  rw [readShare_layout hshape hsmall hfit r,
    slicePatchesByRank_eq_ok (Nat.zero_lt_of_lt r.isLt) hfit r.isLt coords]
  rfl

theorem uniquesFromFile_layout (r : Fin P) :
    (uniquesFromFile path (layout patches coords) r : RankM P C (Option IdMappedPatches)) =
      uniquesFromList patches r := by
  unfold uniquesFromFile uniquesFromList
  rw [readHashShare_ok (readShare_layout hshape hsmall hfit r),
    slicePatchesByRank_eq_ok (Nat.zero_lt_of_lt r.isLt) hfit r.isLt coords]
  rfl

theorem statsFromFile_layout [LinearOrder C] [Zero C] (finite : Double → Option C) (d : Device)
    (k : ℕ) {cs : List (List (Point Double))} (hcs : coords = some cs) (r : Fin P) :
    statsFromFile finite path (layout patches coords) d k r =
      statsFromList finite patches cs d k r := by
  unfold statsFromFile statsFromList
  rw [readStatsShare_layout hshape hsmall hfit r, if_neg (by rw [hcs]; exact nofun),
    slicePatchesByRankCoords_eq_ok (Nat.zero_lt_of_lt r.isLt) hfit r.isLt hcs (hshape cs hcs)]
  rfl

/-- The statistics need the coordinates of the dump; without them the driver exits. -/
theorem statsFromFile_layout_none [LinearOrder C] [Zero C] (finite : Double → Option C)
    (d : Device) (k : ℕ) (hnone : coords = none) (r : Fin P) :
    statsFromFile finite path (layout patches coords) d k r = pure none := by
  unfold statsFromFile
  rw [readStatsShare_layout hshape hsmall hfit r, if_pos hnone]
  rfl

end Memory

section Torn

variable {file file' : List Byte} {rd rd' : StpsBinaryReader}

/-- An accepted file is as long as its header says. -/
theorem length_eq_of_header (hacc : Accepted rd file) (hacc' : Accepted rd' file')
    (h : file'.take kHeaderBytes = file.take kHeaderBytes) : file'.length = file.length := by
  have hmagic : file'.take 8 = file.take 8 := by
    have htake := congrArg (List.take 8) h
    rwa [List.take_take, List.take_take] at htake
  have hnumbers : headerSection file' = headerSection file := by
    have hwidth : Codec.word.width = 8 := rfl
    have hdrop := congrArg (List.drop 8) h
    rw [List.drop_take, List.drop_take] at hdrop
    have hdecode := congrArg (Codec.word.decodeAll 3) hdrop
    have hthree : 3 * Codec.word.width ≤ kHeaderBytes - 8 := by decide
    rwa [Codec.word.decodeAll_take 3 hthree, Codec.word.decodeAll_take 3 hthree] at hdecode
  have hcount : rd'.M = rd.M := by rw [← hacc.count, ← hacc'.count, hnumbers]
  have htotal : rd'.totalK = rd.totalK := by rw [← hacc.total, ← hacc'.total, hnumbers]
  have hversion : rd'.hasCoords = rd.hasCoords := by
    have hfirst := hacc'.magic
    rw [hmagic, hacc.magic] at hfirst
    have hmagics : ∀ new old : Bool, (if old then kMagicV2 else kMagicV1) =
        (if new then kMagicV2 else kMagicV1) → new = old := by decide
    exact hmagics _ _ hfirst
  rw [hacc.length_eq, hacc'.length_eq, hcount, htotal, hversion]

/-- No accepted file begins another one. -/
theorem eq_of_accepted_of_initial (hacc : Accepted rd file) (hacc' : Accepted rd' file')
    (h : file' <+: file) : file' = file := by
  have hlen : kHeaderBytes ≤ file'.length := by
    rw [hacc'.length_eq]
    omega
  refine h.eq_of_length (length_eq_of_header hacc hacc' ?_)
  obtain ⟨rest, rfl⟩ := h
  exact (List.take_append_of_le_length hlen).symm

/-- What is left of an accepted file that was cut short is refused by every rank. -/
theorem open_of_cut (hacc : Accepted rd file) (hsize : file.length < 2 ^ 62)
    (hpart : file' <+: file) (hcut : file' ≠ file) (path : String) :
    ∃ what, ∀ s : Stream, s.bytes = file' →
      (exec (openPatchFile path) s).1 = .error (fail path what) := by
  have hshort := hpart.length_le
  rcases open_accepted_or_error path (show file'.length < 2 ^ 62 by omega) with
    ⟨rd', hacc', -⟩ | herror
  · exact absurd (eq_of_accepted_of_initial hacc hacc' hpart) hcut
  · exact herror

/-- A computation that fails on every rank in the same way takes the job down. -/
theorem stops_of_all {α β : Type} (hP : 0 < P)
    {Delivers : Library P (Collective P C) Collective.Reply} (hserves : Serves Delivers Matches)
    {share : Fin P → Except Fault β} {e : Fault} (h : ∀ r, share r = .error e)
    (rest : Fin P → β → RankM P C α) :
    Stops Delivers (start fun r => compute (share r) >>= rest r) fun _ e' => e' = e := by
  have htogether : Spmd.Together Matches Undefined
      (fun r => (compute (share r) >>= rest r : RankM P C α)) (.stopped fun _ => e) :=
    Spmd.Together.lift_stopped h rest
  obtain ⟨rounds, hrun⟩ := htogether
  exact stops_of_inStep hP hserves hrun

end Torn

section Jobs

variable [LinearOrder C] [Zero C] {file : List Byte}

/-- A file that cannot be opened ends all three drivers in the same way. -/
theorem stops_of_unopened (hP : 0 < P)
    {Delivers : Library P (Collective P C) Collective.Reply} (hserves : Serves Delivers Matches)
    {e : Fault} (hopen : ∀ s : Stream, s.bytes = file →
      (exec (openPatchFile path) s).1 = .error e) :
    (∀ mode dev fuel, Stops Delivers (selectFileJob C path file mode dev fuel)
      fun _ e' => e' = e) ∧
    (∀ (finite : Double → Option C) dev k, Stops Delivers (statsFileJob finite path file dev k)
      fun _ e' => e' = e) ∧
    Stops Delivers (uniqueFileJob P C path file) fun _ e' => e' = e := by
  have hshare : ∀ r : Fin P, readShare path file P r = .error e := fun r =>
    exec_bind_fst_error (hopen _ rfl)
  have hstats : ∀ r : Fin P, readStatsShare path file P r = .error e := fun r =>
    exec_bind_fst_error (hopen _ rfl)
  have hhashes : ∀ r : Fin P, readHashShare path file P r = .error e := fun r =>
    readHashShare_error_iff.mpr (hshare r)
  exact ⟨fun mode dev fuel => stops_of_all hP hserves hshare _,
    fun finite dev k => stops_of_all hP hserves hstats _, stops_of_all hP hserves hhashes _⟩

/-- A rank of each driver does on the file what it does on the patches in memory. -/
def StandsFor (C : Type) [LinearOrder C] [Zero C] (path : String) (file : List Byte)
    (patches : List (List Hash)) (coords : Option (List (List (Point Double)))) : Prop :=
  ∀ P, patches.length * P < 2 ^ 64 → ∀ r : Fin P,
    (∀ mode d fuel, (selectFromFile path file mode d fuel r : RankM P C (ℕ × PatchSelection)) =
      selectFromList patches mode d fuel r) ∧
    (∀ (finite : Double → Option C) d k, statsFromFile finite path file d k r =
      match coords with
      | none => pure none
      | some cs => statsFromList finite patches cs d k r) ∧
    (uniquesFromFile path file r : RankM P C (Option IdMappedPatches)) = uniquesFromList patches r

/-- The file cannot be opened, and in any order of events every job of every driver ends with the
error of the open. -/
def Unusable (C : Type) [LinearOrder C] [Zero C] (path : String) (file : List Byte) : Prop :=
  ∃ what, (∀ s : Stream, s.bytes = file →
      (exec (openPatchFile path) s).1 = .error (fail path what)) ∧
    ∀ (P : ℕ) (Delivers : Library P (Collective P C) Collective.Reply),
      0 < P → Serves Delivers Matches →
      (∀ mode dev fuel, Stops Delivers (selectFileJob C path file mode dev fuel)
        fun _ e => e = fail path what) ∧
      (∀ (finite : Double → Option C) dev k, Stops Delivers (statsFileJob finite path file dev k)
        fun _ e => e = fail path what) ∧
      Stops Delivers (uniqueFileJob P C path file) fun _ e => e = fail path what

theorem standsFor_layout (hshape : ∀ cs, coords = some cs → SameShape patches cs)
    (hsmall : (layout patches coords).length < 2 ^ 63) (path : String) :
    StandsFor C path (layout patches coords) patches coords := by
  intro P hfit r
  refine ⟨fun mode d fuel => selectFromFile_layout hshape hsmall hfit mode d fuel r,
    fun finite d k => ?_, uniquesFromFile_layout hshape hsmall hfit r⟩
  cases coords with
  | none => exact statsFromFile_layout_none hshape hsmall hfit finite d k rfl r
  | some cs => exact statsFromFile_layout hshape hsmall hfit finite d k rfl r

theorem unusable_of_cut (hshape : ∀ cs, coords = some cs → SameShape patches cs)
    (hsize : (layout patches coords).length < 2 ^ 62) (hpart : file <+: layout patches coords)
    (hcut : file ≠ layout patches coords) (path : String) : Unusable C path file := by
  have hsmall : (layout patches coords).length < 2 ^ 63 := by omega
  obtain ⟨what, herror⟩ :=
    open_of_cut (accepted_layout hshape hsmall path) hsize hpart hcut path
  exact ⟨what, herror, fun P Delivers hP hserves => stops_of_unopened hP hserves herror⟩

/-- What is at the path after a dump was cut short at any byte is all of it or nothing. All of it
has the drivers run as on the patches in memory, whatever the number of ranks; anything less
ends every job of every driver, in any order of events, with the error of the open. -/
theorem dump_is_all_or_nothing {target : String} {dump part : List Byte}
    (hwrite : writePatchFileImpl target patches coords = .ok dump) (hsize : dump.length < 2 ^ 62)
    (hpart : part <+: dump) (path : String) :
    (part = dump → StandsFor C path part patches coords) ∧
    (part ≠ dump → Unusable C path part) := by
  obtain ⟨hshape, rfl, hsmall⟩ := (writePatchFileImpl_eq_ok_iff patches coords dump).mp hwrite
  constructor
  · rintro rfl
    exact standsFor_layout hshape hsmall path
  · exact fun hcut => unusable_of_cut hshape hsize hpart hcut path

/-- Two patches, cut short inside the offsets. -/
theorem dump_is_all_or_nothing_cut :
    StandsFor ℕ "p" (layout [[3, 3], [5]] none) [[3, 3], [5]] none ∧
      Unusable ℕ "p" ((layout [[3, 3], [5]] none).take 40) := by
  have hwrite : writePatchFileImpl "p" [[3, 3], [5]] none = .ok (layout [[3, 3], [5]] none) :=
    (writePatchFileImpl_eq_ok_iff [[3, 3], [5]] none _).mpr ⟨by simp, rfl, by decide⟩
  exact ⟨(dump_is_all_or_nothing hwrite (by decide) List.prefix_rfl "p").1 rfl,
    (dump_is_all_or_nothing hwrite (by decide) (List.take_prefix 40 _) "p").2 (by decide)⟩

end Jobs

end PatternSearch.Dumps
