import PatternSearch.Dumps
import PatternSearch.ParseArgs
import PatternSearch.StatsOutputs

/-!
Both drivers from the command line on. A driver leaves, writes its synthetic patches to a file,
or works, on synthetic patches or on a file. A dump stands for the parameters it was made with:
with it as input, whatever the parameters given beside it, every rank of either driver runs the
program that it runs when the patches are generated.
-/

namespace PatternSearch.Drivers

open Machine Csr Kernels PatternStats Bytes FileStream PatchFile PatchFileWrite InputSlices
  HashMapping Synthetic Selector Spmd RankCalls StatsOutputs CommandLine ParseArgs FileJobs
  FileStats FileUniques Dumps

section Model

/-- What the drivers get from outside: the numbers of a text, the paths that are one file, the
rounded size of the region, the random engine with the turns it is granted, and the
coordinates, which are computed in floating point. -/
structure Environment (G : Type) where
  strtod : String → Double
  samePath : String → String → Bool
  region : SyntheticParams → Double → Fin (2 ^ 64)
  source : Source G
  walk : Traversal
  fuel : ℕ
  syntheticCoords : SyntheticParams → List (List Hash) → List (List (Point Double))

/-- What a driver does with its command line. -/
inductive Task (O : Type)
  | leave (code : ℕ)
  | dump (opt : O)
  | work (opt : O)

def taskOf {O : Type} (dump : O → String) : ArgsResult O → Task O
  | .exits _ => .leave 0
  | .fails _ => .leave 1
  | .accepted opt => if dump opt ≠ "" then .dump opt else .work opt

variable {G : Type} (env : Environment G)

def generate (params : SyntheticParams) (overlap : Double) : Except Fault (List (List Hash)) :=
  generateSynthetic env.source env.walk params (env.region params overlap) env.fuel

variable {P : ℕ} {C : Type}

namespace Usc

/-- The branches of `main`. -/
def main (argv : List String) : Task Usc.CliOptions :=
  taskOf Usc.CliOptions.dump (Usc.parseArgs env.strtod argv)

/-- The file of `--dump`. -/
def dumpFile (opt : Usc.CliOptions) : Except Fault (List Byte) := do
  let patches ← generate env opt.params opt.overlap
  writePatchFileImpl opt.dump patches none

/-- The selection on one rank. -/
def select (files : String → List Byte) (opt : Usc.CliOptions) (d : Device) (fuel : ℕ)
    (rank : Fin P) : RankM P C (ℕ × PatchSelection) :=
  if opt.input ≠ "" then selectFromFile opt.input (files opt.input) opt.mode d fuel rank
  else do
    let patches ← compute (generate env opt.params opt.overlap)
    selectFromList patches opt.mode d fuel rank

end Usc

namespace Ups

def main (argv : List String) : Task Ups.CliOptions :=
  taskOf Ups.CliOptions.dump (Ups.parseArgs env.strtod env.samePath argv)

def dumpFile (opt : Ups.CliOptions) : Except Fault (List Byte) := do
  let patches ← generate env opt.params opt.overlap
  writePatchFileImpl opt.dump patches (some (env.syntheticCoords opt.params patches))

/-- Without `--output`: the distinct hashes, up to the write. -/
def uniques (files : String → List Byte) (opt : Ups.CliOptions) (rank : Fin P) :
    RankM P C (Option IdMappedPatches) :=
  if opt.input ≠ "" then uniquesFromFile opt.input (files opt.input) rank
  else do
    let patches ← compute (generate env opt.params opt.overlap)
    uniquesFromList patches rank

/-- The slice of a rank with its coordinates, or none where the driver exits. -/
def coordSlice (files : String → List Byte) (opt : Ups.CliOptions) (size rank : ℕ) :
    Except Fault (Option PatchSlice) :=
  if opt.input ≠ "" then readStatsShare opt.input (files opt.input) size rank
  else do
    let patches ← generate env opt.params opt.overlap
    let slice ← slicePatchesByRankCoords patches (env.syntheticCoords opt.params patches) rank size
    return some slice

/-- With `--output`: the statistics, the export among them if there is one, and the table. -/
def stats [LinearOrder C] [Zero C] (finite : Double → Option C) (coord : C → List Byte)
    (files : String → List Byte) (opt : Ups.CliOptions) (d : Device) (rank : Fin P) :
    DriverM P C (Option (List (PatternStat C))) := do
  match ← Prog.lift (coordSlice env files opt P rank) with
  | none => return none
  | some slice => do
    let topk ← reportStats coord d rank slice.patches (pointsOf finite slice.coords)
      opt.outputLimit opt.uniqueHashes opt.output
    return some topk

end Ups

end Model

section Length

variable {G : Type} {src : Source G} {walk : Traversal} {p : SyntheticParams}
  {region : Fin (2 ^ 64)} {fuel : ℕ}

theorem length_addPatch {acc acc' : List (List Hash) × G} {patch : ℕ}
    (h : addPatch src walk p region fuel acc patch = .ok acc') :
    acc'.1.length = acc.1.length + 1 := by
  unfold addPatch at h
  obtain ⟨made, -, h⟩ := bind_eq_ok.mp h
  obtain rfl := Except.ok.inj h
  exact List.length_append

theorem length_foldlM_addPatch {turns : List ℕ} {acc acc' : List (List Hash) × G}
    (h : turns.foldlM (addPatch src walk p region fuel) acc = .ok acc') :
    acc'.1.length = acc.1.length + turns.length := by
  induction turns generalizing acc with
  | nil =>
    obtain rfl := Except.ok.inj h
    rfl
  | cons turn turns ih =>
    rw [List.foldlM_cons] at h
    obtain ⟨mid, hmid, h⟩ := bind_eq_ok.mp h
    rw [ih h, length_addPatch hmid, List.length_cons]
    omega

/-- There are as many patches as were asked for. -/
theorem length_generateSynthetic {patches : List (List Hash)}
    (h : generateSynthetic src walk p region fuel = .ok patches) : patches.length = p.M := by
  unfold generateSynthetic at h
  split_ifs at h
  · obtain rfl := Except.ok.inj h
    exact List.length_replicate
  · obtain ⟨-, -, h⟩ := bind_eq_ok.mp h
    obtain ⟨-, -, h⟩ := bind_eq_ok.mp h
    obtain ⟨-, -, h⟩ := bind_eq_ok.mp h
    obtain ⟨made, hmade, h⟩ := bind_eq_ok.mp h
    obtain rfl := Except.ok.inj h
    rw [length_foldlM_addPatch hmade, List.length_nil, List.length_range, Nat.zero_add]

end Length

section CommandLines

variable {O G : Type} {env : Environment G} {argv : List String} {f : String}

theorem taskOf_eq_work_iff {dump : O → String} {result : ArgsResult O} {opt : O} :
    taskOf dump result = .work opt ↔ result = .accepted opt ∧ dump opt = "" := by
  cases result with
  | exits printed => exact ⟨nofun, nofun⟩
  | fails printed => exact ⟨nofun, nofun⟩
  | accepted opt' =>
    have htask : taskOf dump (.accepted opt') =
        if dump opt' ≠ "" then .dump opt' else .work opt' := rfl
    rw [htask]
    split_ifs with hdump
    · refine ⟨nofun, ?_⟩
      rintro ⟨h, hno⟩
      cases h
      exact absurd hno hdump
    · constructor
      · intro h
        cases h
        exact ⟨rfl, not_not.mp hdump⟩
      · rintro ⟨h, -⟩
        cases h
        rfl

/-- A command line of the selection that works on synthetic patches, with `--dump` or `--input`
behind it. -/
theorem Usc.main_append {opt : Usc.CliOptions} (hargv : argv ≠ [])
    (hwork : Usc.main env argv = .work opt) (hinput : opt.input = "") (hf : f ≠ "") :
    Usc.main env (argv ++ ["--dump", f]) = .dump { opt with dump := f } ∧
      Usc.main env (argv ++ ["--input", f]) = .work { opt with input := f } := by
  obtain ⟨haccepted, hdump⟩ := taskOf_eq_work_iff.mp hwork
  obtain ⟨settings, mid, hwords, happlies, hcheck⟩ := settings_of_accepted haccepted
  obtain ⟨-, rfl⟩ := Usc.check_eq_accepted_iff.mp hcheck
  constructor
  · have hparse : Usc.parseArgs env.strtod (argv ++ ["--dump", f]) =
        Usc.check { mid with dump := f } := parseWith_append hargv hwords happlies rfl rfl
    have hnext : Usc.check { mid with dump := f } = .accepted { mid with dump := f } :=
      Usc.check_eq_accepted_iff.mpr ⟨.inl hinput, rfl⟩
    rw [Usc.main, hparse, hnext]
    exact if_pos hf
  · have hparse : Usc.parseArgs env.strtod (argv ++ ["--input", f]) =
        Usc.check { mid with input := f } := parseWith_append hargv hwords happlies rfl rfl
    have hnext : Usc.check { mid with input := f } = .accepted { mid with input := f } :=
      Usc.check_eq_accepted_iff.mpr ⟨.inr hdump, rfl⟩
    rw [Usc.main, hparse, hnext]
    exact if_neg (not_not.mpr hdump)

/-- The same for the statistics, where `--unique-hashes` excludes `--dump`. -/
theorem Ups.main_append {opt : Ups.CliOptions} (hargv : argv ≠ [])
    (hwork : Ups.main env argv = .work opt) (hinput : opt.input = "") (hf : f ≠ "") :
    (opt.uniqueHashes = "" →
      Ups.main env (argv ++ ["--dump", f]) = .dump { opt with dump := f }) ∧
    Ups.main env (argv ++ ["--input", f]) = .work { opt with input := f } := by
  obtain ⟨haccepted, hdump⟩ := taskOf_eq_work_iff.mp hwork
  obtain ⟨settings, mid, hwords, happlies, hcheck⟩ := settings_of_accepted haccepted
  obtain ⟨hconsistent, rfl⟩ := Ups.check_eq_accepted_iff.mp hcheck
  constructor
  · intro hunique
    have hparse : Ups.parseArgs env.strtod env.samePath (argv ++ ["--dump", f]) =
        Ups.check env.samePath { mid with dump := f } :=
      parseWith_append hargv hwords happlies rfl rfl
    have hdumps : Ups.Consistent env.samePath { mid with dump := f } :=
      { source := .inl hinput
        dumpAlone := .inr hunique
        apart := hconsistent.apart
        work := .inl hf }
    rw [Ups.main, hparse, Ups.check_eq_accepted_iff.mpr ⟨hdumps, rfl⟩]
    exact if_pos hf
  · have hparse : Ups.parseArgs env.strtod env.samePath (argv ++ ["--input", f]) =
        Ups.check env.samePath { mid with input := f } :=
      parseWith_append hargv hwords happlies rfl rfl
    have hreads : Ups.Consistent env.samePath { mid with input := f } :=
      { source := .inr hdump
        dumpAlone := hconsistent.dumpAlone
        apart := hconsistent.apart
        work := hconsistent.work }
    rw [Ups.main, hparse, Ups.check_eq_accepted_iff.mpr ⟨hreads, rfl⟩]
    exact if_neg (not_not.mpr hdump)

end CommandLines

section Dumped

variable {G C : Type} {env : Environment G} {files : String → List Byte} {P : ℕ}
  {patches : List (List Hash)} {coords : Option (List (List (Point Double)))}

/-- With a dump as input the selection runs as on the patches themselves. -/
theorem select_of_dump {opt : Usc.CliOptions} (hinput : opt.input ≠ "") {target : String}
    (hwrite : writePatchFileImpl target patches coords = .ok (files opt.input))
    (hfit : patches.length * P < 2 ^ 64) (d : Device) (fuel : ℕ) (r : Fin P) :
    (Usc.select env files opt d fuel r : RankM P C (ℕ × PatchSelection)) =
      selectFromList patches opt.mode d fuel r := by
  obtain ⟨hshape, hfile, hsmall⟩ := (writePatchFileImpl_eq_ok_iff patches coords _).mp hwrite
  rw [Usc.select, if_pos hinput, hfile]
  rw [hfile] at hsmall
  exact selectFromFile_layout hshape hsmall hfit opt.mode d fuel r

theorem uniques_of_dump {opt : Ups.CliOptions} (hinput : opt.input ≠ "") {target : String}
    (hwrite : writePatchFileImpl target patches coords = .ok (files opt.input))
    (hfit : patches.length * P < 2 ^ 64) (r : Fin P) :
    (Ups.uniques env files opt r : RankM P C (Option IdMappedPatches)) =
      uniquesFromList patches r := by
  obtain ⟨hshape, hfile, hsmall⟩ := (writePatchFileImpl_eq_ok_iff patches coords _).mp hwrite
  rw [Ups.uniques, if_pos hinput, hfile]
  rw [hfile] at hsmall
  exact uniquesFromFile_layout hshape hsmall hfit r

theorem coordSlice_of_dump {opt : Ups.CliOptions} (hinput : opt.input ≠ "") {target : String}
    (hwrite : writePatchFileImpl target patches coords = .ok (files opt.input))
    (hfit : patches.length * P < 2 ^ 64) (r : Fin P) :
    Ups.coordSlice env files opt P r =
      .ok (if coords = none then none else some (rankSlice patches coords P r)) := by
  obtain ⟨hshape, hfile, hsmall⟩ := (writePatchFileImpl_eq_ok_iff patches coords _).mp hwrite
  rw [Ups.coordSlice, if_pos hinput, hfile]
  rw [hfile] at hsmall
  exact readStatsShare_layout hshape hsmall hfit r

/-- On synthetic patches, once they are generated. -/
theorem select_of_generated {opt : Usc.CliOptions} (hinput : opt.input = "")
    (hmade : generate env opt.params opt.overlap = .ok patches) (d : Device) (fuel : ℕ)
    (r : Fin P) :
    (Usc.select env files opt d fuel r : RankM P C (ℕ × PatchSelection)) =
      selectFromList patches opt.mode d fuel r := by
  rw [Usc.select, if_neg (not_not.mpr hinput), hmade]
  rfl

theorem uniques_of_generated {opt : Ups.CliOptions} (hinput : opt.input = "")
    (hmade : generate env opt.params opt.overlap = .ok patches) (r : Fin P) :
    (Ups.uniques env files opt r : RankM P C (Option IdMappedPatches)) =
      uniquesFromList patches r := by
  rw [Ups.uniques, if_neg (not_not.mpr hinput), hmade]
  rfl

theorem coordSlice_of_generated {opt : Ups.CliOptions} (hinput : opt.input = "")
    (hmade : generate env opt.params opt.overlap = .ok patches)
    (hshape : SameShape patches (env.syntheticCoords opt.params patches))
    (hfit : patches.length * P < 2 ^ 64) (r : Fin P) :
    Ups.coordSlice env files opt P r =
      .ok (some (rankSlice patches (some (env.syntheticCoords opt.params patches)) P r)) := by
  have hslice := slicePatchesByRankCoords_eq_ok (Nat.zero_lt_of_lt r.isLt) hfit r.isLt rfl hshape
  rw [Ups.coordSlice, if_neg (not_not.mpr hinput), hmade, ok_bind, hslice]
  rfl

/-- Without an export the ranks run the statistics that only communicate, and write the table. -/
theorem stats_of_no_export [LinearOrder C] [Zero C] {opt : Ups.CliOptions}
    (hinput : opt.input ≠ "") (hexport : opt.uniqueHashes = "") (finite : Double → Option C)
    (coord : C → List Byte) (d : Device) (r : Fin P) :
    Ups.stats env finite coord files opt d r = (do
      let topk ← communicate (statsFromFile finite opt.input (files opt.input) d
        opt.outputLimit r)
      match topk with
      | none => return none
      | some topk => do
        writePatternStatsFile opt.output coord topk r
        return some topk) := by
  rw [Ups.stats, Ups.coordSlice, if_pos hinput]
  unfold statsFromFile
  rw [communicate_bind, communicate_lift, Prog.bind_assoc]
  congr 1
  funext slice
  cases slice with
  | none => rfl
  | some slice =>
    simp only [reportStats, hexport, patternStats_of_no_export, communicate_bind, Prog.bind_assoc]
    rfl

/-- The selection after a dump. Its command line with `--dump` behind it writes the patches that
it would work on, and with `--input` behind it, or on any other options that read the dump in the
same mode, every rank runs the program that it runs on the generated patches. The distinct
hashes come out the same way, while the statistics find no coordinates and leave. -/
theorem selection_after_dump [LinearOrder C] [Zero C] (env : Environment G) {argv : List String}
    {opt : Usc.CliOptions} {f : String} (hargv : argv ≠ []) (hwork : Usc.main env argv = .work opt)
    (hinput : opt.input = "") (hf : f ≠ "") :
    Usc.main env (argv ++ ["--dump", f]) = .dump { opt with dump := f } ∧
    Usc.main env (argv ++ ["--input", f]) = .work { opt with input := f } ∧
    ∀ (files : String → List Byte), Usc.dumpFile env { opt with dump := f } = .ok (files f) →
      ∀ (P : ℕ), opt.params.M * P < 2 ^ 64 → ∀ r : Fin P,
        (∀ reads : Usc.CliOptions, reads.input = f → reads.mode = opt.mode → ∀ d fuel,
          (Usc.select env files reads d fuel r : RankM P C (ℕ × PatchSelection)) =
            Usc.select env files opt d fuel r) ∧
        ∀ reads makes : Ups.CliOptions, reads.input = f → makes.input = "" →
          makes.params = opt.params → makes.overlap = opt.overlap →
          (Ups.uniques env files reads r : RankM P C (Option IdMappedPatches)) =
            Ups.uniques env files makes r ∧
          ∀ (finite : Double → Option C) coord d,
            Ups.stats env finite coord files reads d r = pure none := by
  obtain ⟨hdumps, hreads⟩ := Usc.main_append (f := f) hargv hwork hinput hf
  refine ⟨hdumps, hreads, fun files hfile P hfit r => ?_⟩
  obtain ⟨patches, hmade, hwrite⟩ := bind_eq_ok.mp hfile
  rw [← length_generateSynthetic hmade] at hfit
  refine ⟨fun reads hread hmode d fuel => ?_,
    fun reads makes hread hmakes hparams hoverlap => ⟨?_, fun finite coord d => ?_⟩⟩
  · subst hread
    rw [select_of_dump hf hwrite hfit d fuel r, select_of_generated hinput hmade d fuel r, hmode]
  · subst hread
    rw [← hparams, ← hoverlap] at hmade
    rw [uniques_of_dump hf hwrite hfit r, uniques_of_generated hmakes hmade r]
  · subst hread
    have hslice : Ups.coordSlice env files reads P r = .ok none :=
      (coordSlice_of_dump hf hwrite hfit r).trans (congrArg Except.ok (if_pos rfl))
    rw [Ups.stats, hslice]
    rfl

/-- An engine that counts, with every coordinate zero. -/
def countingEnvironment : Environment ℕ where
  strtod _ := 0
  samePath a b := a = b
  region p _ := p.N
  source := counting
  walk := ⟨fun _ picked => picked, fun _ picked => List.Perm.refl picked⟩
  fuel := 9
  syntheticCoords _ patches := patches.map fun patch => patch.map fun _ => ⟨0, 0⟩

/-- What the counting engine makes of six hashes, in three patches of two. -/
def threePatches : List (List Hash) :=
  [[15477334834514230341, 12885830976614912075], [690269794703133666, 5268643614968304703],
    [15477334834514230341, 12885830976614912075]]

theorem dumpFile_threePatches :
    Usc.dumpFile countingEnvironment
      { Usc.CliOptions.default with
        params.N := 6, params.M := 3, params.kMean := 2, dump := "f" } =
      .ok (layout threePatches none) := by
  have hmade : generate countingEnvironment
      { Usc.CliOptions.default.params with N := 6, M := 3, kMean := 2 }
      Usc.CliOptions.default.overlap = .ok threePatches := by
    decide +kernel
  have hwrite : writePatchFileImpl "f" threePatches none = .ok (layout threePatches none) :=
    (writePatchFileImpl_eq_ok_iff threePatches none _).mpr ⟨by simp, rfl, by decide⟩
  unfold Usc.dumpFile
  exact bind_eq_ok.mpr ⟨_, hmade, hwrite⟩

/-- The second of two ranks has two of the three patches. -/
theorem selection_after_dump_three_patches :
    (rankSlice threePatches none 2 1).globalIds = [1, 2] ∧
    Usc.main countingEnvironment ["usc", "--N", "6", "--M", "3", "--K", "2", "--dump", "f"] =
      .dump { Usc.CliOptions.default with
        params.N := 6, params.M := 3, params.kMean := 2, dump := "f" } ∧
    (Usc.select countingEnvironment (fun _ => layout threePatches none)
      { Usc.CliOptions.default with
        params.N := 6, params.M := 3, params.kMean := 2, input := "f" } Device.inOrder 9 1 :
      RankM 2 ℕ (ℕ × PatchSelection)) =
    Usc.select countingEnvironment (fun _ => layout threePatches none)
      { Usc.CliOptions.default with params.N := 6, params.M := 3, params.kMean := 2 }
      Device.inOrder 9 1 ∧
    (Ups.uniques countingEnvironment (fun _ => layout threePatches none)
      { Ups.CliOptions.default with uniqueHashes := "u", input := "f" } 1 :
      RankM 2 ℕ (Option IdMappedPatches)) =
    Ups.uniques countingEnvironment (fun _ => layout threePatches none)
      { Ups.CliOptions.default with
        uniqueHashes := "u", params.N := 6, params.M := 3, params.kMean := 2 } 1 ∧
    Ups.stats countingEnvironment (fun x => some (x : ℕ)) (fun _ => [])
      (fun _ => layout threePatches none)
      { Ups.CliOptions.default with output := "o", input := "f" } Device.inOrder (1 : Fin 2) =
      pure none := by
  have hwork : Usc.main countingEnvironment ["usc", "--N", "6", "--M", "3", "--K", "2"] =
      .work { Usc.CliOptions.default with
        params.N := 6, params.M := 3, params.kMean := 2 } := rfl
  obtain ⟨hdump, -, hsame⟩ := selection_after_dump (C := ℕ) (f := "f") countingEnvironment
    (by simp) hwork rfl (by decide)
  obtain ⟨hselect, hothers⟩ := hsame (fun _ => layout threePatches none) dumpFile_threePatches 2
    (by decide) 1
  exact ⟨by decide, hdump,
    hselect { Usc.CliOptions.default with
      params.N := 6, params.M := 3, params.kMean := 2, input := "f" } rfl rfl Device.inOrder 9,
    (hothers { Ups.CliOptions.default with uniqueHashes := "u", input := "f" }
      { Ups.CliOptions.default with
        uniqueHashes := "u", params.N := 6, params.M := 3, params.kMean := 2 }
      rfl rfl rfl rfl).1,
    (hothers { Ups.CliOptions.default with output := "o", input := "f" }
      { Ups.CliOptions.default with params.N := 6, params.M := 3, params.kMean := 2 }
      rfl rfl rfl rfl).2 (fun x => some x) (fun _ => []) Device.inOrder⟩

/-- The statistics after a dump of their own, which has the coordinates. -/
theorem statistics_after_dump [LinearOrder C] [Zero C] (env : Environment G) {argv : List String}
    {opt : Ups.CliOptions} {f : String} (hargv : argv ≠ []) (hwork : Ups.main env argv = .work opt)
    (hinput : opt.input = "") (hf : f ≠ "") :
    (opt.uniqueHashes = "" → Ups.main env (argv ++ ["--dump", f]) = .dump { opt with dump := f }) ∧
    Ups.main env (argv ++ ["--input", f]) = .work { opt with input := f } ∧
    ∀ (files : String → List Byte), Ups.dumpFile env { opt with dump := f } = .ok (files f) →
      ∀ (P : ℕ), opt.params.M * P < 2 ^ 64 → ∀ r : Fin P,
        (∀ reads : Ups.CliOptions, reads.input = f →
          (Ups.uniques env files reads r : RankM P C (Option IdMappedPatches)) =
            Ups.uniques env files opt r ∧
          (reads.outputLimit = opt.outputLimit → reads.output = opt.output →
            reads.uniqueHashes = opt.uniqueHashes → ∀ (finite : Double → Option C) coord d,
            Ups.stats env finite coord files reads d r =
              Ups.stats env finite coord files opt d r)) ∧
        ∀ reads makes : Usc.CliOptions, reads.input = f → makes.input = "" →
          makes.params = opt.params → makes.overlap = opt.overlap → reads.mode = makes.mode →
          ∀ d fuel, (Usc.select env files reads d fuel r : RankM P C (ℕ × PatchSelection)) =
            Usc.select env files makes d fuel r := by
  obtain ⟨hdumps, hreads⟩ := Ups.main_append (f := f) hargv hwork hinput hf
  refine ⟨hdumps, hreads, fun files hfile P hfit r => ?_⟩
  obtain ⟨patches, hmade, hwrite⟩ := bind_eq_ok.mp hfile
  rw [← length_generateSynthetic hmade] at hfit
  refine ⟨fun reads hread => ⟨?_, fun hlimit houtput hexport finite coord d => ?_⟩,
    fun reads makes hread hmakes hparams hoverlap hmode d fuel => ?_⟩
  · subst hread
    rw [uniques_of_dump hf hwrite hfit r, uniques_of_generated hinput hmade r]
  · subst hread
    have hshape := ((writePatchFileImpl_eq_ok_iff patches _ _).mp hwrite).1 _ rfl
    have hslice : Ups.coordSlice env files reads P r = Ups.coordSlice env files opt P r :=
      (coordSlice_of_dump hf hwrite hfit r).trans
        (coordSlice_of_generated hinput hmade hshape hfit r).symm
    rw [Ups.stats, Ups.stats, hslice, hlimit, houtput, hexport]
  · subst hread
    rw [← hparams, ← hoverlap] at hmade
    rw [select_of_dump hf hwrite hfit d fuel r, select_of_generated hmakes hmade d fuel r, hmode]

/-- The coordinates of these patches. -/
def zeroCoords : List (List (Point Double)) :=
  threePatches.map fun patch => patch.map fun _ => ⟨0, 0⟩

theorem dumpFile_zeroCoords :
    Ups.dumpFile countingEnvironment
      { Ups.CliOptions.default with
        params.N := 6, params.M := 3, params.kMean := 2, output := "o", dump := "f" } =
      .ok (layout threePatches (some zeroCoords)) := by
  have hmade : generate countingEnvironment
      { Ups.CliOptions.default.params with N := 6, M := 3, kMean := 2 }
      Ups.CliOptions.default.overlap = .ok threePatches := by
    decide +kernel
  have hwrite : writePatchFileImpl "f" threePatches (some zeroCoords) =
      .ok (layout threePatches (some zeroCoords)) :=
    (writePatchFileImpl_eq_ok_iff threePatches (some zeroCoords) _).mpr
      ⟨by simp [SameShape, zeroCoords], rfl, by decide +kernel⟩
  unfold Ups.dumpFile
  exact bind_eq_ok.mpr ⟨_, hmade, hwrite⟩

/-- The same two patches of the second rank with their coordinates, and an export beside the
table. -/
theorem statistics_after_dump_three_patches :
    (rankSlice threePatches (some zeroCoords) 2 1).coords = [[⟨0, 0⟩, ⟨0, 0⟩], [⟨0, 0⟩, ⟨0, 0⟩]] ∧
    Ups.stats countingEnvironment (fun x => some (x : ℕ)) (fun _ => [])
      (fun _ => layout threePatches (some zeroCoords))
      { Ups.CliOptions.default with output := "o", uniqueHashes := "u", input := "f" }
      Device.inOrder (1 : Fin 2) =
    Ups.stats countingEnvironment (fun x => some (x : ℕ)) (fun _ => [])
      (fun _ => layout threePatches (some zeroCoords))
      { Ups.CliOptions.default with
        params.N := 6, params.M := 3, params.kMean := 2, output := "o", uniqueHashes := "u" }
      Device.inOrder (1 : Fin 2) := by
  have hwork : Ups.main countingEnvironment
      ["ups", "--N", "6", "--M", "3", "--K", "2", "--output", "o", "--unique-hashes", "u"] =
      .work { Ups.CliOptions.default with
        params.N := 6, params.M := 3, params.kMean := 2, output := "o", uniqueHashes := "u" } :=
    rfl
  obtain ⟨-, -, hsame⟩ := statistics_after_dump (C := ℕ) (f := "f") countingEnvironment
    (by simp) hwork rfl (by decide)
  exact ⟨by decide, ((hsame (fun _ => layout threePatches (some zeroCoords)) dumpFile_zeroCoords
    2 (by decide) 1).1
    { Ups.CliOptions.default with output := "o", uniqueHashes := "u", input := "f" } rfl).2
    rfl rfl rfl (fun x => some x) (fun _ => []) Device.inOrder⟩

end Dumped

end PatternSearch.Drivers
