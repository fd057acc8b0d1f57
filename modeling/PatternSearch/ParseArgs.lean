import PatternSearch.CommandLine
import PatternSearch.PatchFile
import PatternSearch.Selector
import PatternSearch.Synthetic
import PatternSearch.TextNumbers

/-!
The command lines of both drivers. An option may be given more than once and its last value
counts; a number is read as far as it goes, wraps below zero and is cut off at the largest one.
What strtod makes of a text and which paths name the same file are parameters.
-/

namespace PatternSearch.ParseArgs

open Csr Bytes TextNumbers CommandLine Synthetic Selector PatchFile

section Numbers

/-- A character for the scanners. No byte outside ASCII is a digit, a sign or white space. -/
def charByte (c : Char) : Byte := if c.toNat < 128 then Fin.ofNat 256 c.toNat else 255

def wordBytes (w : String) : List Byte := w.toList.map charByte

/-- `std::strtoull` and, with a 64-bit unsigned long, `std::strtoul`, with base 10. -/
def strtoull (w : String) : Fin (2 ^ 64) :=
  let field := (wordBytes w).dropWhile isSpace
  let negative := field.head? = some 45
  let body := if field.head? = some 45 ∨ field.head? = some 43 then field.tail else field
  let n := digitsValue 10 (body.takeWhile (isDigit 10))
  if n < 2 ^ 64 then Fin.ofNat (2 ^ 64) (if negative then 2 ^ 64 - n else n)
  else Fin.ofNat (2 ^ 64) (2 ^ 64 - 1)

end Numbers

section Results

/-- What goes to stderr: the usage text or one line. -/
inductive Printed
  | usage
  | line (text : String)
  deriving DecidableEq

/-- `parse_args` returns true, calls exit(0) or returns false. -/
inductive ArgsResult (O : Type)
  | accepted (opt : O)
  | exits (printed : List Printed)
  | fails (printed : List Printed)

abbrev Entries (O : Type) := List (String × Effect String O String)

def tableOf {O : Type} (entries : Entries O) (a : String) : Option (Effect String O String) :=
  entries.lookup a

/-- What follows the loop over argv. -/
def finish {O : Type} (check : O → ArgsResult O) : Outcome String O String → ArgsResult O
  | .read opt => check opt
  | .help => .exits [.usage]
  | .unknown a => .fails [.line ("Unknown argument: " ++ a ++ "\n"), .usage]
  | .missing _ => .fails []
  | .refused reason => .fails [.line reason]

def parseWith {O : Type} (entries : Entries O) (check : O → ArgsResult O) (argv : List String)
    (opt : O) : ArgsResult O :=
  finish check (readWords (tableOf entries) (argv.drop 1) opt)

end Results

section Accepted

variable {O : Type} {entries : Entries O} {check : O → ArgsResult O} {argv : List String}
  {settings : List (Setting String)} {start mid mid' opt : O}

theorem settings_of_accepted (h : parseWith entries check argv start = .accepted opt) :
    ∃ settings mid, argv.drop 1 = wordsOf settings ∧
      Applies (tableOf entries) settings start mid ∧ check mid = .accepted opt := by
  unfold parseWith at h
  cases hread : readWords (tableOf entries) (argv.drop 1) start with
  | read mid =>
    rw [hread] at h
    obtain ⟨settings, hwords, happlies⟩ := readWords_eq_read_iff.mp hread
    exact ⟨settings, mid, hwords, happlies, h⟩
  | help =>
    rw [hread] at h
    cases h
  | unknown a =>
    rw [hread] at h
    cases h
  | missing a =>
    rw [hread] at h
    cases h
  | refused reason =>
    rw [hread] at h
    cases h

/-- An option at the end of a command line that can be read. -/
theorem parseWith_append (hargv : argv ≠ []) (hwords : argv.drop 1 = wordsOf settings)
    (happlies : Applies (tableOf entries) settings start mid) {a v : String}
    {set : String → O → Except String O} (htable : tableOf entries a = some (.value set))
    (hset : set v mid = .ok mid') :
    parseWith entries check (argv ++ [a, v]) start = check mid' := by
  have hdrop : (argv ++ [a, v]).drop 1 = wordsOf settings ++ [a, v] := by
    rw [List.drop_append_of_le_length (List.length_pos_iff.mpr hargv), hwords]
  unfold parseWith
  rw [hdrop, readWords_settings happlies, readWords_value htable hset]
  rfl

end Accepted

section Synthetic

/-- The defaults of `SyntheticParams`. -/
def defaultParams : SyntheticParams := { N := 1000, M := 100, kMean := 30, seed := 1 }

/-- 0.3 as a double. -/
def defaultOverlap : Double := 0x3FD3333333333333

end Synthetic

namespace Usc

structure CliOptions where
  params : SyntheticParams
  overlap : Double
  mode : PartitionMode
  input : String
  dump : String
  printSolution : Bool

def CliOptions.default : CliOptions where
  params := defaultParams
  overlap := defaultOverlap
  mode := .byPatch
  input := ""
  dump := ""
  printSolution := false

def setPartition (v : String) (opt : CliOptions) : Except String CliOptions :=
  if v = "patch" then .ok { opt with mode := .byPatch }
  else if v = "element" then .ok { opt with mode := .byElement }
  else .error ("Unknown --partition mode: " ++ v ++ "\n")

def entries (strtod : String → Double) : Entries CliOptions :=
  [("-h", .help), ("--help", .help),
    ("--N", .value fun v opt => .ok { opt with params.N := strtoull v }),
    ("--M", .value fun v opt => .ok { opt with params.M := strtoull v }),
    ("--K", .value fun v opt => .ok { opt with params.kMean := Fin.ofNat (2 ^ 32) (strtoull v) }),
    ("--overlap", .value fun v opt => .ok { opt with overlap := strtod v }),
    ("--seed", .value fun v opt => .ok { opt with params.seed := BitVec.ofFin (strtoull v) }),
    ("--partition", .value setPartition),
    ("--input", .value fun v opt => .ok { opt with input := v }),
    ("--dump", .value fun v opt => .ok { opt with dump := v }),
    ("--print-solution", .flag fun opt => { opt with printSolution := true })]

def check (opt : CliOptions) : ArgsResult CliOptions :=
  if opt.input ≠ "" ∧ opt.dump ≠ "" then
    .fails [.line "--input and --dump are mutually exclusive\n"]
  else .accepted opt

def parseArgs (strtod : String → Double) (argv : List String) : ArgsResult CliOptions :=
  parseWith (entries strtod) check argv .default

theorem check_eq_accepted_iff {opt opt' : CliOptions} :
    check opt = .accepted opt' ↔ (opt.input = "" ∨ opt.dump = "") ∧ opt = opt' := by
  unfold check
  split_ifs with hboth
  · refine ⟨nofun, fun h => ?_⟩
    rcases h.1 with hno | hno
    · exact absurd hno hboth.1
    · exact absurd hno hboth.2
  · constructor
    · intro h
      cases h
      refine ⟨?_, rfl⟩
      by_contra hno
      exact hboth (not_or.mp hno)
    · rintro ⟨-, rfl⟩
      rfl

end Usc

namespace Ups

structure CliOptions where
  params : SyntheticParams
  overlap : Double
  input : String
  dump : String
  output : String
  uniqueHashes : String
  outputLimit : Fin (2 ^ 64)

def CliOptions.default : CliOptions where
  params := defaultParams
  overlap := defaultOverlap
  input := ""
  dump := ""
  output := ""
  uniqueHashes := ""
  outputLimit := 100

def entries (strtod : String → Double) : Entries CliOptions :=
  [("-h", .help), ("--help", .help),
    ("--N", .value fun v opt => .ok { opt with params.N := strtoull v }),
    ("--M", .value fun v opt => .ok { opt with params.M := strtoull v }),
    ("--K", .value fun v opt => .ok { opt with params.kMean := Fin.ofNat (2 ^ 32) (strtoull v) }),
    ("--overlap", .value fun v opt => .ok { opt with overlap := strtod v }),
    ("--seed", .value fun v opt => .ok { opt with params.seed := BitVec.ofFin (strtoull v) }),
    ("--input", .value fun v opt => .ok { opt with input := v }),
    ("--dump", .value fun v opt => .ok { opt with dump := v }),
    ("--output", .value fun v opt => .ok { opt with output := v }),
    ("--unique-hashes", .value fun v opt => .ok { opt with uniqueHashes := v }),
    ("--output-limit", .value fun v opt => .ok { opt with outputLimit := strtoull v })]

def check (samePath : String → String → Bool) (opt : CliOptions) : ArgsResult CliOptions :=
  if opt.input ≠ "" ∧ opt.dump ≠ "" then
    .fails [.line "--input and --dump are mutually exclusive\n"]
  else if opt.dump ≠ "" ∧ opt.uniqueHashes ≠ "" then
    .fails [.line "--dump and --unique-hashes are mutually exclusive\n"]
  else if opt.output ≠ "" ∧ opt.uniqueHashes ≠ "" ∧ samePath opt.output opt.uniqueHashes then
    .fails [.line "--output and --unique-hashes must be different files\n"]
  else if opt.dump = "" ∧ opt.output = "" ∧ opt.uniqueHashes = "" then
    .fails [.line "--output or --unique-hashes is required\n", .usage]
  else .accepted opt

def parseArgs (strtod : String → Double) (samePath : String → String → Bool)
    (argv : List String) : ArgsResult CliOptions :=
  parseWith (entries strtod) (check samePath) argv .default

end Ups

section Fields

variable {O T : Type} {entries : Entries O}

/-- The values given to an option, in order; the last one counts. -/
def valueOf (a : String) : Setting String → Option String
  | .flag _ => none
  | .value b v => if b = a then some v else none

def lastValue (a : String) (settings : List (Setting String)) : Option String :=
  (settings.filterMap (valueOf a)).getLast?

/-- What an entry of the table does to one field of the options. -/
def Writes (get : O → T) (written : Setting String → Option T) :
    String × Effect String O String → Prop
  | (_, .help) => True
  | (a, .flag set) => ∀ s, get (set s) = (written (.flag a)).getD (get s)
  | (a, .value set) => ∀ v s mid, set v s = .ok mid →
      get mid = (written (.value a v)).getD (get s)

theorem mem_of_tableOf {a : String} {effect : Effect String O String}
    (h : tableOf entries a = some effect) : (a, effect) ∈ entries := by
  obtain ⟨l, l', rfl, -⟩ := List.lookup_eq_some_iff.mp h
  exact List.mem_append_right l List.mem_cons_self

theorem field_of_applies {get : O → T} {written : Setting String → Option T}
    (h : ∀ p ∈ entries, Writes get written p) {settings : List (Setting String)} {s s' : O}
    (happlies : Applies (tableOf entries) settings s s') :
    get s' = ((settings.filterMap written).getLast?).getD (get s) :=
  entry_of_applies get written (fun hflag => h _ (mem_of_tableOf hflag) _)
    (fun hvalue hset => h _ (mem_of_tableOf hvalue) _ _ _ hset) happlies

/-- A field that one option sets, by a conversion of its value. -/
theorem field_of_lastValue (get : O → T) (a : String) (convert : String → T)
    (h : ∀ p ∈ entries, Writes get (fun x => (valueOf a x).map convert) p)
    {settings : List (Setting String)} {s s' : O}
    (happlies : Applies (tableOf entries) settings s s') :
    get s' = ((lastValue a settings).map convert).getD (get s) := by
  rw [field_of_applies h happlies, lastValue, ← List.getLast?_map, List.map_filterMap]

/-- A field that one option sets to its value. -/
theorem text_of_lastValue (get : O → String) (a : String)
    (h : ∀ p ∈ entries, Writes get (valueOf a) p) {settings : List (Setting String)} {s s' : O}
    (happlies : Applies (tableOf entries) settings s s') :
    get s' = (lastValue a settings).getD (get s) := field_of_applies h happlies

end Fields

section Texts

/-- A number as a word. -/
def numberText (n : ℕ) : String :=
  String.ofList ((digitsText 10 n).map fun b : Byte => Char.ofNat b.val)

theorem charByte_ofNat {b : Byte} (hb : b.val < 128) : charByte (Char.ofNat b.val) = b := by
  have hall : ∀ b : Byte, b.val < 128 → charByte (Char.ofNat b.val) = b := by decide +kernel
  exact hall b hb

theorem wordBytes_ofList {bytes : List Byte} (h : ∀ b ∈ bytes, b.val < 128) :
    wordBytes (String.ofList (bytes.map fun b : Byte => Char.ofNat b.val)) = bytes := by
  rw [wordBytes, String.toList_ofList, List.map_map]
  exact (List.map_congr_left fun b hb => charByte_ofNat (h b hb)).trans (List.map_id _)

theorem small_of_isDigit {c : Byte} (hc : isDigit 10 c = true) : c.val < 128 ∧ c ≠ 45 ∧ c ≠ 43 := by
  have hall : ∀ c : Byte, isDigit 10 c = true → c.val < 128 ∧ c ≠ 45 ∧ c ≠ 43 := by decide +kernel
  exact hall c hc

/-- A number is read back from its digits. -/
theorem strtoull_numberText {n : ℕ} (hn : n < 2 ^ 64) :
    strtoull (numberText n) = Fin.ofNat (2 ^ 64) n := by
  have hdigits : ∀ c ∈ digitsText 10 n, isDigit 10 c = true :=
    isDigit_digitsText (by omega) (by omega)
  have hbytes : wordBytes (numberText n) = digitsText 10 n :=
    wordBytes_ofList fun b hb => (small_of_isDigit (hdigits b hb)).1
  obtain ⟨c, rest, htext⟩ := List.exists_cons_of_ne_nil (@digitsText_ne_nil 10 n)
  have hc : isDigit 10 c = true := hdigits c (htext ▸ List.mem_cons_self)
  have hspace : isSpace c = false := isSpace_eq_false (by omega) hc
  obtain ⟨-, hminus, hplus⟩ := small_of_isDigit hc
  have hfield : (wordBytes (numberText n)).dropWhile isSpace = digitsText 10 n := by
    rw [hbytes, htext, List.dropWhile_cons_of_neg (by simp [hspace])]
  have hhead : (digitsText 10 n).head? = some c := by rw [htext, List.head?_cons]
  have hall : (digitsText 10 n).takeWhile (isDigit 10) = digitsText 10 n :=
    List.takeWhile_eq_self_iff.mpr hdigits
  have hvalue : digitsValue 10 (digitsText 10 n) = n := digitsValue_digitsText (by omega) (by omega)
  unfold strtoull
  simp only [hfield, hhead, Option.some.injEq, hminus, hplus, or_self, if_false, hall, hvalue,
    hn, if_true]

end Texts

namespace Ups

/-- The options that settings stand for. -/
def optionsOf (strtod : String → Double) (settings : List (Setting String)) : CliOptions where
  params.N := ((lastValue "--N" settings).map strtoull).getD defaultParams.N
  params.M := ((lastValue "--M" settings).map strtoull).getD defaultParams.M
  params.kMean := ((lastValue "--K" settings).map fun v =>
    Fin.ofNat (2 ^ 32) (strtoull v)).getD defaultParams.kMean
  params.seed := ((lastValue "--seed" settings).map fun v =>
    BitVec.ofFin (strtoull v)).getD defaultParams.seed
  overlap := ((lastValue "--overlap" settings).map strtod).getD defaultOverlap
  input := (lastValue "--input" settings).getD ""
  dump := (lastValue "--dump" settings).getD ""
  output := (lastValue "--output" settings).getD ""
  uniqueHashes := (lastValue "--unique-hashes" settings).getD ""
  outputLimit := ((lastValue "--output-limit" settings).map strtoull).getD 100

theorem eq_optionsOf {strtod : String → Double} {settings : List (Setting String)}
    {opt : CliOptions} (h : Applies (tableOf (entries strtod)) settings .default opt) :
    opt = optionsOf strtod settings := by
  have hN := field_of_lastValue (fun o : CliOptions => o.params.N) "--N" strtoull
    (by simp [entries, Writes, valueOf]) h
  have hM := field_of_lastValue (fun o : CliOptions => o.params.M) "--M" strtoull
    (by simp [entries, Writes, valueOf]) h
  have hK := field_of_lastValue (fun o : CliOptions => o.params.kMean) "--K"
    (fun v => Fin.ofNat (2 ^ 32) (strtoull v)) (by simp [entries, Writes, valueOf]) h
  have hseed := field_of_lastValue (fun o : CliOptions => o.params.seed) "--seed"
    (fun v => BitVec.ofFin (strtoull v)) (by simp [entries, Writes, valueOf]) h
  have hoverlap := field_of_lastValue CliOptions.overlap "--overlap" strtod
    (by simp [entries, Writes, valueOf]) h
  have hinput := text_of_lastValue CliOptions.input "--input"
    (by simp [entries, Writes, valueOf]) h
  have hdump := text_of_lastValue CliOptions.dump "--dump"
    (by simp [entries, Writes, valueOf]) h
  have houtput := text_of_lastValue CliOptions.output "--output"
    (by simp [entries, Writes, valueOf]) h
  have hunique := text_of_lastValue CliOptions.uniqueHashes "--unique-hashes"
    (by simp [entries, Writes, valueOf]) h
  have hlimit := field_of_lastValue CliOptions.outputLimit "--output-limit" strtoull
    (by simp [entries, Writes, valueOf]) h
  obtain ⟨⟨N, M, kMean, seed⟩, overlap, input, dump, output, uniqueHashes, outputLimit⟩ := opt
  unfold optionsOf
  rw [CliOptions.mk.injEq, SyntheticParams.mk.injEq]
  exact ⟨⟨hN, hM, hK, hseed⟩, hoverlap, hinput, hdump, houtput, hunique, hlimit⟩

/-- The options that take a value. -/
def valueOptions : List String :=
  ["--N", "--M", "--K", "--overlap", "--seed", "--input", "--dump", "--output",
    "--unique-hashes", "--output-limit"]

def helpOptions : List String := ["-h", "--help"]

def Known : Setting String → Prop
  | .flag _ => False
  | .value a _ => a ∈ valueOptions

theorem table_of_help (strtod : String → Double) {a : String} (h : a ∈ helpOptions) :
    tableOf (entries strtod) a = some .help := by
  simp only [helpOptions, List.mem_cons, List.not_mem_nil, or_false] at h
  rcases h with rfl | rfl
  · rfl
  · rfl

/-- No value is refused. -/
theorem table_of_value (strtod : String → Double) {a : String} (h : a ∈ valueOptions) :
    ∃ set, tableOf (entries strtod) a = some (.value set) ∧
      ∀ v opt, ∃ opt', set v opt = .ok opt' := by
  simp only [valueOptions, List.mem_cons, List.not_mem_nil, or_false] at h
  rcases h with rfl | rfl | rfl | rfl | rfl | rfl | rfl | rfl | rfl | rfl <;>
    exact ⟨_, rfl, fun v opt => ⟨_, rfl⟩⟩

theorem table_of_unknown (strtod : String → Double) {a : String} (hhelp : a ∉ helpOptions)
    (hvalue : a ∉ valueOptions) : tableOf (entries strtod) a = none := by
  have hnames : ∀ p ∈ entries strtod, p.1 ∈ helpOptions ∨ p.1 ∈ valueOptions := by
    simp [entries, helpOptions, valueOptions]
  cases htable : tableOf (entries strtod) a with
  | none => rfl
  | some effect =>
    rcases hnames _ (mem_of_tableOf htable) with hmem | hmem
    · exact absurd hmem hhelp
    · exact absurd hmem hvalue

/-- Any values of known options are read. -/
theorem applies_of_known (strtod : String → Double) {settings : List (Setting String)}
    (h : ∀ x ∈ settings, Known x) (opt : CliOptions) :
    ∃ opt', Applies (tableOf (entries strtod)) settings opt opt' := by
  induction settings generalizing opt with
  | nil => exact ⟨opt, .nil⟩
  | cons x settings ih =>
    have hx := h x List.mem_cons_self
    cases x with
    | flag a => cases hx
    | value a v =>
      obtain ⟨set, htable, hset⟩ := table_of_value strtod hx
      obtain ⟨opt', hok⟩ := hset v opt
      obtain ⟨last, hlast⟩ := ih (fun y hy => h y (List.mem_cons_of_mem _ hy)) opt'
      exact ⟨last, .value htable hok hlast⟩

theorem help_of_table {strtod : String → Double} {a : String}
    (h : tableOf (entries strtod) a = some .help) : a ∈ helpOptions := by
  have hnames : ∀ p ∈ entries strtod, p.2 = .help → p.1 ∈ helpOptions := by
    simp [entries, helpOptions]
  exact hnames _ (mem_of_tableOf h) rfl

theorem value_of_table {strtod : String → Double} {a : String}
    {set : String → CliOptions → Except String CliOptions}
    (h : tableOf (entries strtod) a = some (.value set)) : a ∈ valueOptions := by
  have hnames : ∀ p ∈ entries strtod, ∀ set, p.2 = .value set → p.1 ∈ valueOptions := by
    simp [entries, valueOptions]
  exact hnames _ (mem_of_tableOf h) set rfl

theorem known_of_applies {strtod : String → Double} {settings : List (Setting String)}
    {opt opt' : CliOptions} (h : Applies (tableOf (entries strtod)) settings opt opt') :
    ∀ x ∈ settings, Known x := by
  have hflags : ∀ p ∈ entries strtod, ∀ set, p.2 ≠ .flag set := by simp [entries]
  induction h with
  | nil => exact nofun
  | flag h hrest ih => exact absurd rfl (hflags _ (mem_of_tableOf h) _)
  | value h hset hrest ih =>
    exact List.forall_mem_cons.mpr ⟨value_of_table h, ih⟩

/-- The combinations of options that the checks let through. -/
structure Consistent (samePath : String → String → Bool) (opt : CliOptions) : Prop where
  source : opt.input = "" ∨ opt.dump = ""
  dumpAlone : opt.dump = "" ∨ opt.uniqueHashes = ""
  apart : opt.output = "" ∨ opt.uniqueHashes = "" ∨
    samePath opt.output opt.uniqueHashes = false
  work : opt.dump ≠ "" ∨ opt.output ≠ "" ∨ opt.uniqueHashes ≠ ""

theorem check_eq_accepted_iff {samePath : String → String → Bool} {opt opt' : CliOptions} :
    check samePath opt = .accepted opt' ↔ Consistent samePath opt ∧ opt = opt' := by
  unfold check
  split_ifs with hsource halone hapart hwork
  · refine ⟨nofun, fun h => ?_⟩
    rcases h.1.source with hno | hno
    · exact absurd hno hsource.1
    · exact absurd hno hsource.2
  · refine ⟨nofun, fun h => ?_⟩
    rcases h.1.dumpAlone with hno | hno
    · exact absurd hno halone.1
    · exact absurd hno halone.2
  · refine ⟨nofun, fun h => ?_⟩
    rcases h.1.apart with hno | hno | hno
    · exact absurd hno hapart.1
    · exact absurd hno hapart.2.1
    · rw [hapart.2.2] at hno
      cases hno
  · refine ⟨nofun, fun h => ?_⟩
    rcases h.1.work with hno | hno | hno
    · exact absurd hwork.1 hno
    · exact absurd hwork.2.1 hno
    · exact absurd hwork.2.2 hno
  · constructor
    · intro h
      cases h
      refine ⟨⟨?_, ?_, ?_, ?_⟩, rfl⟩
      · by_contra hno
        exact hsource (not_or.mp hno)
      · by_contra hno
        exact halone (not_or.mp hno)
      · by_contra hno
        obtain ⟨houtput, hno⟩ := not_or.mp hno
        obtain ⟨hunique, hsame⟩ := not_or.mp hno
        exact hapart ⟨houtput, hunique, Bool.eq_true_of_not_eq_false hsame⟩
      · by_contra hno
        obtain ⟨hdump, hno⟩ := not_or.mp hno
        obtain ⟨houtput, hunique⟩ := not_or.mp hno
        exact hwork ⟨not_not.mp hdump, not_not.mp houtput, not_not.mp hunique⟩
    · rintro ⟨-, rfl⟩
      rfl

section Spec

variable {strtod : String → Double} {samePath : String → String → Bool} {argv : List String}

/-- What the words behind some settings come to. -/
theorem stops_iff {mid : CliOptions} {rest : List String} {result : ArgsResult CliOptions} :
    (∃ outcome, Stops (tableOf (entries strtod)) mid rest outcome ∧
      finish (check samePath) outcome = result) ↔
    rest = [] ∧ check samePath mid = result ∨
    (∃ a tail, rest = a :: tail ∧ a ∈ helpOptions ∧ .exits [.usage] = result) ∨
    (∃ a tail, rest = a :: tail ∧ a ∉ helpOptions ∧ a ∉ valueOptions ∧
      .fails [.line ("Unknown argument: " ++ a ++ "\n"), .usage] = result) ∨
    (∃ a, rest = [a] ∧ a ∈ valueOptions ∧ .fails [] = result) := by
  constructor
  · rintro ⟨outcome, hstops, rfl⟩
    cases hstops with
    | read => exact .inl ⟨rfl, rfl⟩
    | @unknown a tail h =>
      refine .inr (.inr (.inl ⟨a, tail, rfl, fun hmem => ?_, fun hmem => ?_, rfl⟩))
      · rw [table_of_help strtod hmem] at h
        cases h
      · obtain ⟨set, hset, -⟩ := table_of_value strtod hmem
        rw [hset] at h
        cases h
    | @help a tail h => exact .inr (.inl ⟨a, tail, rfl, help_of_table h, rfl⟩)
    | @missing a set h => exact .inr (.inr (.inr ⟨a, rfl, value_of_table h, rfl⟩))
    | refused h hset =>
      obtain ⟨set, htable, hall⟩ := table_of_value strtod (value_of_table h)
      rw [htable] at h
      obtain rfl := Effect.value.inj (Option.some.inj h)
      obtain ⟨opt, hok⟩ := hall _ mid
      rw [hok] at hset
      cases hset
  · rintro (⟨rfl, rfl⟩ | ⟨a, tail, rfl, hhelp, rfl⟩ | ⟨a, tail, rfl, hhelp, hvalue, rfl⟩ |
      ⟨a, rfl, hvalue, rfl⟩)
    · exact ⟨_, .read, rfl⟩
    · exact ⟨_, .help (table_of_help strtod hhelp), rfl⟩
    · exact ⟨_, .unknown (table_of_unknown strtod hhelp hvalue), rfl⟩
    · obtain ⟨set, htable, -⟩ := table_of_value strtod hvalue
      exact ⟨_, .missing htable, rfl⟩

/-- All of `parse_args`. The words are settings, read from the left, up to the first word that
cannot be read. Where that is a call for help the program exits, where it is a stranger or lacks
its value it fails, and without one the options are the last values given, if the checks let
them through. -/
theorem parse_args_spec (result : ArgsResult CliOptions) :
    parseArgs strtod samePath argv = result ↔
      ∃ settings rest, argv.drop 1 = wordsOf settings ++ rest ∧ (∀ x ∈ settings, Known x) ∧
        (rest = [] ∧ check samePath (optionsOf strtod settings) = result ∨
        (∃ a tail, rest = a :: tail ∧ a ∈ helpOptions ∧ .exits [.usage] = result) ∨
        (∃ a tail, rest = a :: tail ∧ a ∉ helpOptions ∧ a ∉ valueOptions ∧
          .fails [.line ("Unknown argument: " ++ a ++ "\n"), .usage] = result) ∨
        (∃ a, rest = [a] ∧ a ∈ valueOptions ∧ .fails [] = result)) := by
  constructor
  · rintro rfl
    obtain ⟨settings, rest, mid, hwords, happlies, hstops⟩ :=
      exists_settings (tableOf (entries strtod)) (argv.drop 1) .default
    refine ⟨settings, rest, hwords, known_of_applies happlies, ?_⟩
    rw [← eq_optionsOf happlies]
    exact stops_iff.mp ⟨_, hstops, rfl⟩
  · rintro ⟨settings, rest, hwords, hknown, hrest⟩
    obtain ⟨mid, happlies⟩ := applies_of_known strtod hknown .default
    rw [← eq_optionsOf happlies] at hrest
    obtain ⟨outcome, hstops, rfl⟩ := stops_iff.mpr hrest
    unfold parseArgs parseWith
    rw [hwords, readWords_settings happlies, readWords_of_stops hstops]

/-- A command line that gives every option its value. -/
def commandLine (overlap : String) (opt : CliOptions) : List (Setting String) :=
  [.value "--N" (numberText opt.params.N), .value "--M" (numberText opt.params.M),
    .value "--K" (numberText opt.params.kMean), .value "--overlap" overlap,
    .value "--seed" (numberText opt.params.seed.toFin), .value "--input" opt.input,
    .value "--dump" opt.dump, .value "--output" opt.output,
    .value "--unique-hashes" opt.uniqueHashes,
    .value "--output-limit" (numberText opt.outputLimit)]

variable {overlap : String} {opt : CliOptions} {earlier settings : List (Setting String)}

/-- An option given once at the end has its value there, wherever it stands among the others. -/
theorem lastValue_of_perm (hperm : settings.Perm (commandLine overlap opt)) {a v : String}
    (h : (commandLine overlap opt).filterMap (valueOf a) = [v]) :
    lastValue a (earlier ++ settings) = some v := by
  have hgiven : settings.filterMap (valueOf a) = [v] :=
    List.perm_singleton.mp (h ▸ hperm.filterMap (valueOf a))
  rw [lastValue, List.filterMap_append, hgiven, List.getLast?_concat]

theorem optionsOf_of_perm (hperm : settings.Perm (commandLine overlap opt))
    (hoverlap : strtod overlap = opt.overlap) : optionsOf strtod (earlier ++ settings) = opt := by
  have hlast : ∀ a v, (commandLine overlap opt).filterMap (valueOf a) = [v] →
      lastValue a (earlier ++ settings) = some v := fun a v => lastValue_of_perm hperm
  have hnumber : ∀ n : Fin (2 ^ 64), strtoull (numberText n) = n := fun n =>
    (strtoull_numberText n.isLt).trans (Fin.ofNat_val_eq_self n)
  have hkMean : ∀ k : Fin (2 ^ 32), Fin.ofNat (2 ^ 32) (strtoull (numberText k)) = k := by
    intro k
    have hsmall : (k : ℕ) < 2 ^ 64 := by omega
    rw [strtoull_numberText hsmall, Fin.val_ofNat, Nat.mod_eq_of_lt hsmall]
    exact Fin.ofNat_val_eq_self k
  simp only [optionsOf, hlast "--N" _ rfl, hlast "--M" _ rfl, hlast "--K" _ rfl,
    hlast "--overlap" _ rfl, hlast "--seed" _ rfl, hlast "--input" _ rfl, hlast "--dump" _ rfl,
    hlast "--output" _ rfl, hlast "--unique-hashes" _ rfl, hlast "--output-limit" _ rfl,
    Option.map_some, Option.getD_some, hnumber, hkMean, hoverlap]

/-- Every combination of options that the checks let through has its command lines, with the
options in any order and behind any others. -/
theorem parse_commandLine (h : Consistent samePath opt) (hoverlap : strtod overlap = opt.overlap)
    (program : String) (hearlier : ∀ x ∈ earlier, Known x)
    (hperm : settings.Perm (commandLine overlap opt)) :
    parseArgs strtod samePath (program :: wordsOf (earlier ++ settings)) = .accepted opt := by
  have hall : ∀ x ∈ commandLine overlap opt, Known x := by
    simp [commandLine, Known, valueOptions]
  have hknown : ∀ x ∈ earlier ++ settings, Known x := fun x hx =>
    (List.mem_append.mp hx).elim (hearlier x) fun hlate => hall x (hperm.subset hlate)
  obtain ⟨mid, happlies⟩ := applies_of_known strtod hknown .default
  obtain rfl : mid = opt := (eq_optionsOf happlies).trans (optionsOf_of_perm hperm hoverlap)
  unfold parseArgs parseWith
  rw [List.drop_one, List.tail_cons, readWords_eq_read_iff.mpr ⟨_, rfl, happlies⟩]
  exact check_eq_accepted_iff.mpr ⟨h, rfl⟩

/-- The smallest work, behind a path that does not count, with the last option first. -/
theorem parse_commandLine_default :
    parseArgs (fun _ => defaultOverlap) (fun a b => a = b)
      ("ups" :: wordsOf ([.value "--input" "f"] ++
        (commandLine "0.3" { CliOptions.default with output := "o" }).reverse)) =
        .accepted { CliOptions.default with output := "o" } :=
  parse_commandLine
    { source := .inl rfl
      dumpAlone := .inl rfl
      apart := .inr (.inl rfl)
      work := .inr (.inl (by decide)) } rfl "ups" (by simp [Known, valueOptions])
    (List.reverse_perm _)

end Spec

end Ups

end PatternSearch.ParseArgs
