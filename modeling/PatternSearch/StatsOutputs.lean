import PatternSearch.StatsFile
import PatternSearch.StatsInStep
import PatternSearch.UniqueHashes

/-!
The statistics driver with all that it writes. Beside its collective calls a rank issues its
parts of two shared writes: the distinct hashes, when there is a path for them, as soon as it
has its PatchSet, and the table at the end. A shared write returns on every rank or throws on
every rank. So whenever the ranks run in step they issue the export and then the table, and
unless a write throws all of them return the table.
-/

namespace PatternSearch.StatsOutputs

open Machine Collectives Bucketing Csr Kernels HashMapping IdAssignment Setup PatternStats Bytes
  PatchFile StatsRouting StatsStages StatsRun StatTable StatsCorrect Spmd RankCalls LockStep
  StatsInStep ParallelFile UniqueHashes StatsFile

variable {P : ℕ} {C α β : Type}

section Model

/-- A rank's arguments of `write_shared_file`. -/
structure Part where
  label : String
  path : String
  data : List Byte
  offset : ℤ
  totalSize : ℤ
  head : List Byte

inductive DriverCall (P : ℕ) (C : Type) : Type
  | collective (op : Collective P C)
  | write (part : Part)

/-- A write returns, or it throws an exception with this text. -/
abbrev DriverCall.Reply : DriverCall P C → Type
  | .collective op => op.Reply
  | .write _ => Option String

/-- The program of one rank of a driver. -/
abbrev DriverM (P : ℕ) (C α : Type) := Prog (DriverCall P C) DriverCall.Reply Fault α

/-- A program that writes nothing. -/
def communicate : RankM P C α → DriverM P C α
  | .done a => .done a
  | .stop e => .stop e
  | .call op next => .call (.collective op) fun reply => communicate (next reply)

def writeSharedFile (part : Part) : DriverM P C Unit :=
  .call (.write part) fun
    | none => .done ()
    | some what => .stop (.throws (.runtimeError what))

def hashPart (path : String) (ps : PatchSet) : Part where
  label := "unique-hashes"
  path
  data := Codec.word.encodeAll ps.shardHashes
  offset := hashOffset ps.shardStart
  totalSize := hashOffset ps.N
  head := kUniqueHashMagic ++ numberBytes 8 ps.N

def tablePart (path : String) (part : RankPart) : Part where
  label := "ups-stats"
  path
  data := part.buf
  offset := part.myOff
  totalSize := part.total
  head := []

/-- The call that the ranks' parts make up. -/
def assemble (hP : 0 < P) (parts : Fin P → Part) : Call P where
  label := (parts ⟨0, hP⟩).label
  path := (parts ⟨0, hP⟩).path
  data r := (parts r).data
  offset r := (parts r).offset
  totalSize := (parts ⟨0, hP⟩).totalSize
  head := (parts ⟨0, hP⟩).head

/-- Without a path there is no export. -/
def exportHashes (path : String) (ps : PatchSet) : DriverM P C Unit :=
  if path = "" then return () else writeSharedFile (hashPart path ps)

variable [LinearOrder C] [Zero C]

/-- `UpsPatternStats::Impl::run`. -/
def statsRun (d : Device) (rank : Fin P) (located : LocatedPatches C) (k : ℕ)
    (uniqueHashes : String) : DriverM P C (List (PatternStat C)) := do
  let reduced ← Prog.lift (reduceOccurrences located.flatten)
  let mapped ← communicate
    (RankPrograms.mapHashesToElementIds rank (located.map fun patch => patch.map Prod.fst))
  exportHashes uniqueHashes (patchSetOf mapped)
  communicate (RankPrograms.statsStages d rank k (patchSetOf mapped) reduced)

def patternStats (d : Device) (rank : Fin P) (patches : List (List Hash))
    (coords : List (List (Point (Option C)))) (k : ℕ) (uniqueHashes : String) :
    DriverM P C (List (PatternStat C)) := do
  let located ← Prog.lift (checkInput patches coords)
  statsRun d rank located k uniqueHashes

omit [LinearOrder C] [Zero C] in
def writePatternStatsFile (path : String) (coord : C → List Byte) (stats : List (PatternStat C))
    (rank : Fin P) : DriverM P C Unit := do
  let part ← Prog.lift (rankPart coord stats P rank)
  writeSharedFile (tablePart path part)

/-- `main` with `--output`, once the rank has its slice. -/
def reportStats (coord : C → List Byte) (d : Device) (rank : Fin P) (patches : List (List Hash))
    (coords : List (List (Point (Option C)))) (k : ℕ) (uniqueHashes output : String) :
    DriverM P C (List (PatternStat C)) := do
  let topk ← patternStats d rank patches coords k uniqueHashes
  writePatternStatsFile output coord topk rank
  return topk

end Model

section Communication

theorem communicate_bind (p : RankM P C α) (f : α → RankM P C β) :
    (communicate (p >>= f) : DriverM P C β) = communicate p >>= fun a => communicate (f a) := by
  induction p with
  | done a => rfl
  | stop e => rfl
  | call op next ih => exact congrArg (Prog.call _) (funext fun reply => ih reply)

theorem communicate_lift (x : Except Fault α) :
    (communicate (compute x) : DriverM P C α) = Prog.lift x := by
  cases x with
  | ok a => rfl
  | error e => rfl

/-- Without an export the driver runs the statistics that only communicate. -/
theorem patternStats_of_no_export [LinearOrder C] [Zero C] (d : Device) (rank : Fin P)
    (patches : List (List Hash)) (coords : List (List (Point (Option C)))) (k : ℕ) :
    patternStats d rank patches coords k "" =
      communicate (RankPrograms.patternStats d rank patches coords k) := by
  simp only [patternStats, statsRun, exportHashes, RankPrograms.patternStats,
    RankPrograms.statsRun, communicate_bind, communicate_lift]
  rfl

end Communication

section Rounds

/-- The ranks' calls match when all are collective and match there, or all are parts of a write
at one path. -/
inductive DriverMatches : (calls : Fin P → DriverCall P C) → (∀ r, (calls r).Reply) → Prop
  | collective {ops : Fin P → Collective P C} {replies : ∀ r, (ops r).Reply} :
      Matches ops replies → DriverMatches (fun r => .collective (ops r)) replies
  | written (parts : Fin P → Part) : (∀ r s, (parts r).path = (parts s).path) →
      DriverMatches (fun r => .write (parts r)) fun _ => none
  | threw (parts : Fin P → Part) (what : Fin P → String) :
      (∀ r s, (parts r).path = (parts s).path) →
      DriverMatches (fun r => .write (parts r)) fun r => some (what r)

theorem DriverMatches.of_collective (hP : 0 < P) {calls : Fin P → DriverCall P C}
    {replies : ∀ r, (calls r).Reply} (h : DriverMatches calls replies)
    {ops : Fin P → Collective P C} (hops : calls = fun r => .collective (ops r)) :
    Matches ops fun r => cast (by rw [hops]) (replies r) := by
  cases h with
  | @collective ops' replies' hmatch =>
    obtain rfl : ops' = ops := funext fun r => DriverCall.collective.inj (congrFun hops r)
    exact hmatch
  | written parts _ => cases congrFun hops ⟨0, hP⟩
  | threw parts what _ => cases congrFun hops ⟨0, hP⟩

theorem DriverMatches.of_write (hP : 0 < P) {calls : Fin P → DriverCall P C}
    {replies : ∀ r, (calls r).Reply} (h : DriverMatches calls replies) {parts : Fin P → Part}
    (hparts : calls = fun r => .write (parts r)) :
    (∀ r, cast (by rw [hparts]) (replies r) = (none : Option String)) ∨
      ∃ what : Fin P → String, ∀ r, cast (by rw [hparts]) (replies r) = some (what r) := by
  cases h with
  | collective _ => cases congrFun hparts ⟨0, hP⟩
  | written parts' _ => exact .inl fun r => rfl
  | threw parts' what _ => exact .inr ⟨what, fun r => rfl⟩

/-- The rounds of a run that only communicates. -/
def collectives (rounds : List (Fin P → Collective P C)) : List (Fin P → DriverCall P C) :=
  rounds.map fun ops r => .collective (ops r)

def writing (parts : Fin P → Part) : Fin P → DriverCall P C := fun r => .write (parts r)

/-- Every rank has stopped with an exception of a write. -/
def Throws (ending : Ending P Fault α) : Prop :=
  ∃ what : Fin P → String, ending = .stopped fun r => .throws (.runtimeError (what r))

variable {ending : Ending P Fault β} {trace : List (Fin P → DriverCall P C)}

theorem inStep_communicate {progs : Fin P → RankM P C α} {a : Fin P → α}
    {rounds : List (Fin P → Collective P C)}
    (h : InStep Matches Undefined progs rounds (.returned a)) :
    InStep DriverMatches Undefined (fun r => communicate (progs r)) (collectives rounds)
      (.returned a) := by
  generalize hend : Ending.returned a = e at h
  induction h with
  | returned a' =>
    obtain rfl := Ending.returned.inj hend
    exact .returned a
  | stopped e => cases hend
  | undefined r _ _ => cases hend
  | round hmatch _ ih => exact .round (.collective hmatch) (ih hend)

/-- The replies to collective calls leave no choice, so a driver goes through the rounds of the
part that only communicates and on to the rest. -/
theorem of_inStep_communicate (hP : 0 < P) {progs : Fin P → RankM P C α} {a : Fin P → α}
    {rounds : List (Fin P → Collective P C)}
    (h : InStep Matches Undefined progs rounds (.returned a))
    {f : Fin P → α → DriverM P C β}
    (hrun : InStep DriverMatches Undefined (fun r => communicate (progs r) >>= f r) trace
      ending) :
    ∃ rest, trace = collectives rounds ++ rest ∧
      InStep DriverMatches Undefined (fun r => f r (a r)) rest ending := by
  generalize hend : Ending.returned a = e at h
  induction h generalizing trace with
  | returned a' =>
    obtain rfl := Ending.returned.inj hend
    exact ⟨trace, rfl, hrun⟩
  | stopped e => cases hend
  | undefined r _ _ => cases hend
  | @round ops replies next rounds _ hmatch _ ih =>
    obtain ⟨replies', rest, rfl, hmatch', hrest⟩ := hrun.of_call hP
    have hsame : replies' = replies :=
      (replies_eq (hmatch'.of_collective hP rfl)).trans (replies_eq hmatch).symm
    subst hsame
    obtain ⟨rest', rfl, hrest'⟩ := ih hrest hend
    exact ⟨rest', rfl, hrest'⟩

theorem inStep_write {parts : Fin P → Part} (hpath : ∀ r s, (parts r).path = (parts s).path)
    {f : Fin P → Unit → DriverM P C β}
    (h : InStep DriverMatches Undefined (fun r => f r ()) trace ending) :
    InStep DriverMatches Undefined (fun r => writeSharedFile (parts r) >>= f r)
      (writing parts :: trace) ending :=
  .round (.written parts hpath) h

/-- A shared write returns on every rank, or it stops every rank. -/
theorem of_inStep_write (hP : 0 < P) {parts : Fin P → Part} {f : Fin P → Unit → DriverM P C β}
    (hrun : InStep DriverMatches Undefined (fun r => writeSharedFile (parts r) >>= f r) trace
      ending) :
    ∃ rest, trace = writing parts :: rest ∧
      (InStep DriverMatches Undefined (fun r => f r ()) rest ending ∨
        rest = [] ∧ Throws ending) := by
  obtain ⟨replies, rest, rfl, hmatch, hrest⟩ := hrun.of_call hP
  refine ⟨rest, rfl, ?_⟩
  rcases hmatch.of_write hP rfl with hnone | ⟨what, hwhat⟩
  · obtain rfl : replies = fun _ => none := funext hnone
    exact .inl hrest
  · obtain rfl : replies = fun r => some (what r) := funext hwhat
    have hthrows : ∀ r, ¬ Undefined (.throws (.runtimeError (what r))) := by
      intro r hundefined
      rcases hundefined with h | h
      · cases h
      · cases h
    obtain ⟨hnil, hstopped⟩ := InStep.of_stop hP hthrows hrest
    exact .inr ⟨hnil, what, hstopped⟩

end Rounds

section Sizes

variable {located : Fin P → LocatedPatches C} {coord : C → List Byte}

theorem ranks_le (htable : TableFits P) : P ≤ intMax := by
  have hlt := htable.lt_two_pow
  unfold intMax
  omega

/-- The export of hashes that can be counted stays far from the end of the off_t range. -/
theorem export_fits (hP : 0 < P) (hfit : StatAdmissible located) :
    kUniqueHashHeaderBytes + (globalUniq (hashesOf located)).length * 8 < 2 ^ 63 := by
  have hranks := hfit.table.lt_two_pow
  have hshards := Finset.sum_le_card_nsmul Finset.univ
    (fun r => (shard (hashesOf located) r).length) intMax
    fun r _ => length_shard_le hfit.hashes r
  rw [← displacement_last, displacement_shards hP, Finset.card_univ, Fintype.card_fin,
    smul_eq_mul] at hshards
  unfold intMax at hshards
  unfold kUniqueHashHeaderBytes
  omega

variable [LinearOrder C] [Zero C]

/-- Counts of patches and coordinates of 25 characters can be printed. -/
theorem printable_table (hfit : StatAdmissible located) (hcoord : ∀ x, (coord x).length = 25)
    (k : ℕ) : ∀ e ∈ (statTable (gather located)).take k, Printable coord e := by
  intro e he
  refine ⟨?_, hcoord _, hcoord _⟩
  rw [(isStatTable_statTable _).count e (List.mem_of_mem_take he)]
  exact lt_of_le_of_lt List.countP_le_length hfit.patches

/-- A table that the ranks could merge is far too short for the products of the split rule to
overflow. -/
theorem fits_table (hP : 0 < P) (hfit : StatAdmissible located) {k : ℕ}
    (hcheck : checkCandidates k (candidateCount (hashesOf located) k) = .ok ()) :
    Fits ((statTable (gather located)).take k).length P := by
  have hranks := hfit.table.lt_two_pow
  have hfew := le_trans (length_take_statTable_le hP hfit.toStatCountsFit k)
    (few_of_checkCandidates hcheck)
  generalize ((statTable (gather located)).take k).length = n at hfew
  unfold intMax at hfew
  have hheader := length_headerText_lt (show n < 2 ^ 64 by omega) (ranks_le hfit.table)
  have hproduct := Nat.mul_le_mul hfew hranks.le
  refine ⟨by omega, ?_⟩
  unfold kLineBytes
  omega

end Sizes

section Runs

variable {located : Fin P → LocatedPatches C} {coord : C → List Byte}

/-- What the ranks export. -/
def hashParts (path : String) (rawPatches : Fin P → List (List Hash)) : Fin P → Part :=
  fun r => hashPart path (patchSetOf (mapped rawPatches r))

/-- What the ranks write of a table. -/
def tableParts (path : String) (coord : C → List Byte) (stats : List (PatternStat C)) :
    Fin P → Part :=
  fun r => tablePart path (exactPart coord stats P r)

theorem assemble_hashParts (hP : 0 < P) (path : String) (rawPatches : Fin P → List (List Hash)) :
    assemble hP (hashParts path rawPatches) = exactWrite path rawPatches := by
  simp only [assemble, hashParts, hashPart, patchSetOf, mapped, exactWrite,
    writeUniqueHashShards, rootValue_const hP]

theorem assemble_tableParts (hP : 0 < P) (path : String) (stats : List (PatternStat C)) :
    assemble hP (tableParts path coord stats) = exactCall path coord stats := rfl

variable [LinearOrder C] [Zero C]

/-- The driver on input that it takes, one stage after another. -/
theorem reportStats_eq (hfit : StatAdmissible located) (d : Device) (k : ℕ)
    {uniquePath : String} (hunique : uniquePath ≠ "") (outPath : String) (r : Fin P) :
    reportStats coord d r (hashesOf located r) (coordsOf located r) k uniquePath outPath = (do
      let mapped ← communicate (RankPrograms.mapHashesToElementIds r (hashesOf located r))
      writeSharedFile (hashPart uniquePath (patchSetOf mapped))
      let topk ← communicate (RankPrograms.statsStages d r k (patchSetOf mapped)
        (representatives (kept (occurrences located r))))
      let part ← Prog.lift (rankPart coord topk P r)
      writeSharedFile (tablePart outPath part)
      return topk) := by
  have hreduced : reduceOccurrences (located r).flatten =
      .ok (representatives (kept (occurrences located r))) :=
    reduceOccurrences_eq_ok (items_nonneg hfit.occurrences r)
  simp only [reportStats, patternStats, statsRun, writePatternStatsFile, exportHashes,
    if_neg hunique, checkInput_eq_ok located, Prog.bind_assoc, Prog.lift_ok_bind, hreduced]
  rfl

/-- The ranks run in step through two writes to this result, with nothing but collective calls
around them; and no run in step makes other writes, or ends in another way unless a write
throws and is the last round. -/
def WritesInTurn (progs : Fin P → DriverM P C α) (unique table : Fin P → Part) (result : α) :
    Prop :=
  ∃ first second : List (Fin P → Collective P C),
    InStep DriverMatches Undefined progs
      (collectives first ++ writing unique :: (collectives second ++ [writing table]))
      (.returned fun _ => result) ∧
    ∀ trace ending, InStep DriverMatches Undefined progs trace ending →
      trace = collectives first ++ [writing unique] ∧ Throws ending ∨
      trace = collectives first ++ writing unique :: (collectives second ++ [writing table]) ∧
        (ending = .returned (fun _ => result) ∨ Throws ending)

/-- On input that the statistics take, with the table that they come to. -/
theorem writesInTurn_reportStats (hP : 0 < P) (dev : Fin P → Device)
    (hfit : StatAdmissible located) {k : ℕ}
    (hcheck : checkCandidates k (candidateCount (hashesOf located) k) = .ok ())
    (hcoord : ∀ x, (coord x).length = 25) {uniquePath : String} (hunique : uniquePath ≠ "")
    (outPath : String) :
    WritesInTurn
      (fun r => reportStats coord (dev r) r (hashesOf located r) (coordsOf located r) k uniquePath
        outPath)
      (hashParts uniquePath (hashesOf located))
      (tableParts outPath coord ((statTable (gather located)).take k))
      ((statTable (gather located)).take k) := by
  have hpart : ∀ r : Fin P, rankPart coord ((statTable (gather located)).take k) P r =
      .ok (exactPart coord ((statTable (gather located)).take k) P r) := fun r =>
    rankPart_eq_ok hP (ranks_le hfit.table) (printable_table hfit hcoord k)
      (fits_table hP hfit hcheck) r.isLt
  have hstages := together_statsStages hP dev hfit
    (together_mergeCandidates (k := k) (by
      rw [sum_topOfShard]
      exact few_of_checkCandidates hcheck))
  rw [smallest_topOfShard hP hfit.toStatCountsFit] at hstages
  obtain ⟨second, hsecond⟩ := hstages
  obtain ⟨first, hfirst⟩ := together_mapHashesToElementIds (C := C)
    ((mapHashes_eq_ok_iff hP _).mpr ⟨hfit.hashes, rfl⟩)
  unfold hashParts tableParts
  simp only [reportStats_eq hfit _ k hunique outPath]
  refine ⟨first, second, ?_, fun trace ending hrun => ?_⟩
  · refine (inStep_communicate hfirst).bind DriverMatches Undefined ?_
    refine inStep_write (fun _ _ => rfl) ?_
    refine (inStep_communicate hsecond).bind DriverMatches Undefined ?_
    simp only [hpart, Prog.lift_ok_bind]
    exact inStep_write (fun _ _ => rfl) (.returned _)
  · obtain ⟨afterMapping, rfl, hexport⟩ := of_inStep_communicate hP hfirst hrun
    obtain ⟨afterExport, rfl, hstages | ⟨rfl, hthrows⟩⟩ := of_inStep_write hP hexport
    case inr => exact .inl ⟨rfl, hthrows⟩
    obtain ⟨afterStages, rfl, htable⟩ := of_inStep_communicate hP hsecond hstages
    simp only [hpart, Prog.lift_ok_bind] at htable
    obtain ⟨afterTable, rfl, hdone | ⟨rfl, hthrows⟩⟩ := of_inStep_write hP htable
    case inr => exact .inr ⟨rfl, .inr hthrows⟩
    obtain ⟨rfl, rfl⟩ := InStep.of_done hP hdone
    exact .inr ⟨rfl, .inl rfl⟩

end Runs

end PatternSearch.StatsOutputs
