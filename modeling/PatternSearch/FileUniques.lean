import PatternSearch.FileJobs
import PatternSearch.UniqueHashes

/-!
The driver that only collects the distinct hashes of a file. It reads either version of the
format, maps the hashes without a device, and has the ranks write their shards into one file,
whose bytes depend on the input file alone.
-/

namespace PatternSearch.FileUniques

open Machine Collectives Csr Kernels HashMapping IdAssignment PatternStats Bytes FileStream
  PatchFile PatchFileRead PatchFileWrite InputSlices ParallelFile UniqueHashes Spmd RankCalls
  LockStep Interleaving AnyOrder MalformedInput FileJobs

variable {P : ℕ} {C : Type} {path : String} {file : List Byte}

section Model

/-- The share of a rank where coordinates are not needed. -/
def readHashShare (path : String) (file : List Byte) (size rank : ℕ) :
    Except Fault (Option PatchSlice) :=
  (exec (Ups.readInputSlice path rank size false) (Stream.opened file)).1

/-- `main` of the statistics with `--unique-hashes` alone on one rank, up to the write. -/
def uniquesFromFile (path : String) (file : List Byte) (rank : Fin P) :
    RankM P C (Option IdMappedPatches) := do
  let slice ← compute (readHashShare path file P rank)
  match slice with
  | none => return none
  | some slice => do
    let mapped ← RankPrograms.mapHashesToElementIds rank slice.patches
    return some mapped

def uniqueFileJob (P : ℕ) (C : Type) (path : String) (file : List Byte) :
    Job P (Collective P C) Collective.Reply Fault (Option IdMappedPatches) :=
  start fun r => uniquesFromFile path file r

end Model

/-- Without the look for coordinates both drivers read alike. -/
theorem readHashShare_eq (path : String) (file : List Byte) (size rank : ℕ) :
    readHashShare path file size rank = (readShare path file size rank).map some := by
  have hsame : Ups.readInputSlice path rank size false =
      (Usc.readInputSlice path rank size >>= fun slice => pure (some slice)) := by
    unfold Ups.readInputSlice Usc.readInputSlice
    simp only [Bool.false_eq_true, false_and, if_false, bind_assoc]
  unfold readHashShare readShare
  rw [hsame, exec_bind]
  cases exec (Usc.readInputSlice path rank size) (Stream.opened file) with
  | mk outcome s =>
    cases outcome with
    | ok slice => rfl
    | error e => rfl

theorem readHashShare_ok {size rank : ℕ} {slice : PatchSlice}
    (h : readShare path file size rank = .ok slice) :
    readHashShare path file size rank = .ok (some slice) := by
  rw [readHashShare_eq, h]
  rfl

theorem readHashShare_error_iff {size rank : ℕ} {e : Fault} :
    readHashShare path file size rank = .error e ↔ readShare path file size rank = .error e := by
  rw [readHashShare_eq]
  cases readShare path file size rank with
  | ok slice => exact ⟨nofun, nofun⟩
  | error e' =>
    constructor
    · intro h
      cases h
      rfl
    · intro h
      cases h
      rfl

end PatternSearch.FileUniques
