import Mathlib.Logic.Function.Basic
import Mathlib.Logic.Relation
import PatternSearch.Bytes

/-!
One file that all ranks write at once, each its own part. The ranks run on their own, and
`pwrite` may write as little as one byte of what it is asked to. They meet in two
agreements: the k-th allreduce of a rank is the k-th of every other rank, so a rank that
makes one call less leaves the others waiting.
-/

namespace PatternSearch.ParallelFile

open Bytes

section Posix

/-- The file after the bytes of a piece have been written at an offset. -/
def pwrite (file : List Byte) (offset : ℕ) (piece : List Byte) : List Byte :=
  if piece = [] then file
  else (file ++ List.replicate (offset - file.length) 0).take offset ++ piece ++
    file.drop (offset + piece.length)

def ftruncate (file : List Byte) (size : ℕ) : List Byte :=
  file.take size ++ List.replicate (size - file.length) 0

/-- A position that a piece covers is the piece's, and every other position stays. -/
theorem getElem?_pwrite (file : List Byte) (offset : ℕ) (piece : List Byte) {x : ℕ}
    (hx : x < file.length ∨ offset ≤ x ∧ x < offset + piece.length) :
    (pwrite file offset piece)[x]? =
      if offset ≤ x ∧ x < offset + piece.length then piece[x - offset]? else file[x]? := by
  rw [pwrite]
  by_cases hnil : piece = []
  · subst hnil
    rw [if_pos rfl, if_neg (by simp)]
  have hlen : ((file ++ List.replicate (offset - file.length) 0).take offset).length = offset := by
    simp only [List.length_take, List.length_append, List.length_replicate]
    omega
  rw [if_neg hnil]
  by_cases hbefore : x < offset
  · have hin : x < file.length := by omega
    rw [if_neg (by omega), List.append_assoc, List.getElem?_append_left (by omega),
      List.getElem?_take_of_lt hbefore, List.getElem?_append_left hin]
  · by_cases hpiece : x < offset + piece.length
    · rw [if_pos ⟨by omega, hpiece⟩, List.getElem?_append_left (by rw [List.length_append]; omega),
        List.getElem?_append_right (by omega), hlen]
    · rw [if_neg (by omega), List.getElem?_append_right (by rw [List.length_append]; omega),
        List.length_append, hlen, List.getElem?_drop]
      congr 1
      omega

end Posix

/-- The arguments of `write_shared_file`. The data and its offset are a rank's own. An off_t is
signed, and the system refuses a negative one. -/
structure Call (P : ℕ) where
  label : String
  path : String
  data : Fin P → List Byte
  offset : Fin P → ℤ
  totalSize : ℤ
  head : List Byte

/-- Where a rank stands in the call. -/
inductive Pc
  | opening
  /-- In `pwrite_all`, so many bytes written. -/
  | head (done : ℕ)
  | data (done : ℕ)
  /-- Before and in the first allreduce. -/
  | agreeWritten
  | waitWritten
  | truncate
  | close
  /-- Before and in the second allreduce. -/
  | agreeClosed
  | waitClosed
  | returned
  | threw (what : String)
  deriving DecidableEq, Repr

structure Rank where
  pc : Pc
  /-- Whether the descriptor is open. -/
  fd : Bool
  err : Option String
  /-- What the rank has contributed to its allreduces. -/
  votes : List Bool
  deriving DecidableEq, Repr

structure State (P : ℕ) where
  /-- The file at the path, if there is one. -/
  file : Option (List Byte)
  ranks : Fin P → Rank
  /-- Whether an operation of some rank has failed. -/
  failed : Bool

section Steps

variable {P : ℕ}

def ioError (what reason : String) : String := what ++ ": " ++ reason

/-- The text of the exception that `agree_or_throw` throws. -/
def Call.message (c : Call P) (err : Option String) : String :=
  c.label ++ ": " ++ c.path ++ ": " ++ err.getD "I/O failed on another rank"

def Call.afterData (c : Call P) (r : Fin P) (done : ℕ) : Pc :=
  if done < (c.data r).length then .data done else .agreeWritten

def Call.afterHead (c : Call P) (r : Fin P) (done : ℕ) : Pc :=
  if done < c.head.length then .head done else c.afterData r 0

def Call.afterOpen (c : Call P) (r : Fin P) : Pc :=
  if r.val = 0 then c.afterHead r 0 else c.afterData r 0

/-- Every rank has made its k-th allreduce without an error. -/
def State.AllAgree (s : State P) (k : ℕ) : Prop := ∀ q, (s.ranks q).votes[k]? = some true

/-- Every rank has made its k-th allreduce, and some rank with an error. -/
def State.SomeRefuses (s : State P) (k : ℕ) : Prop :=
  (∀ q, k < (s.ranks q).votes.length) ∧ ∃ q, (s.ranks q).votes[k]? = some false

/-- The allreduce that a rank is in. -/
def Rank.current (k : Rank) : ℕ := k.votes.length - 1

/-- What a rank can do next: its new state, the file after it, and whether it failed. -/
inductive Local (c : Call P) (s : State P) (r : Fin P) :
    Rank → Option (List Byte) → Bool → Prop
  | openOk : (s.ranks r).pc = .opening →
      Local c s r { s.ranks r with pc := c.afterOpen r, fd := true } (some (s.file.getD [])) false
  | openFails (reason : String) : (s.ranks r).pc = .opening →
      Local c s r
        { s.ranks r with pc := .agreeWritten, err := some (ioError "cannot open" reason) }
        s.file true
  | headPiece (done n : ℕ) : (s.ranks r).pc = .head done → 0 < n → done + n ≤ c.head.length →
      Local c s r { s.ranks r with pc := c.afterHead r (done + n) }
        (s.file.map fun f => pwrite f done ((c.head.drop done).take n)) false
  | headFails (done : ℕ) (reason : String) : (s.ranks r).pc = .head done →
      Local c s r
        { s.ranks r with pc := .agreeWritten, err := some (ioError "pwrite failed" reason) }
        s.file true
  | dataPiece (done n : ℕ) : (s.ranks r).pc = .data done → 0 ≤ c.offset r + done → 0 < n →
      done + n ≤ (c.data r).length →
      Local c s r { s.ranks r with pc := c.afterData r (done + n) }
        (s.file.map fun f =>
          pwrite f (c.offset r + done).toNat (((c.data r).drop done).take n)) false
  | dataFails (done : ℕ) (reason : String) : (s.ranks r).pc = .data done →
      Local c s r
        { s.ranks r with pc := .agreeWritten, err := some (ioError "pwrite failed" reason) }
        s.file true
  | agreeWritten : (s.ranks r).pc = .agreeWritten →
      Local c s r
        { s.ranks r with
          pc := .waitWritten, votes := (s.ranks r).votes ++ [(s.ranks r).err.isNone] }
        s.file false
  | allWritten : (s.ranks r).pc = .waitWritten → s.AllAgree (s.ranks r).current →
      Local c s r { s.ranks r with pc := if r.val = 0 then .truncate else .close } s.file false
  /-- The destructor of `FdGuard` closes the descriptor. -/
  | someNotWritten : (s.ranks r).pc = .waitWritten → s.SomeRefuses (s.ranks r).current →
      Local c s r { s.ranks r with pc := .threw (c.message (s.ranks r).err), fd := false }
        s.file false
  | truncateOk : (s.ranks r).pc = .truncate → 0 ≤ c.totalSize →
      Local c s r { s.ranks r with pc := .close }
        (s.file.map fun f => ftruncate f c.totalSize.toNat) false
  | truncateFails (reason : String) : (s.ranks r).pc = .truncate →
      Local c s r { s.ranks r with pc := .close, err := some (ioError "ftruncate failed" reason) }
        s.file true
  | closeOk : (s.ranks r).pc = .close →
      Local c s r { s.ranks r with pc := .agreeClosed, fd := false } s.file false
  | closeFails (reason : String) : (s.ranks r).pc = .close →
      Local c s r
        { s.ranks r with
          pc := .agreeClosed, fd := false
          err := some ((s.ranks r).err.getD (ioError "close failed" reason)) }
        s.file true
  | agreeClosed : (s.ranks r).pc = .agreeClosed →
      Local c s r
        { s.ranks r with
          pc := .waitClosed, votes := (s.ranks r).votes ++ [(s.ranks r).err.isNone] }
        s.file false
  | allClosed : (s.ranks r).pc = .waitClosed → s.AllAgree (s.ranks r).current →
      Local c s r { s.ranks r with pc := .returned } s.file false
  | someNotClosed : (s.ranks r).pc = .waitClosed → s.SomeRefuses (s.ranks r).current →
      Local c s r { s.ranks r with pc := .threw (c.message (s.ranks r).err), fd := false }
        s.file false

/-- One rank takes one step. -/
def Step (c : Call P) (s s' : State P) : Prop :=
  ∃ r k file failed, Local c s r k file failed ∧
    s' = { file, ranks := Function.update s.ranks r k, failed := s.failed || failed }

def initial (prior : Option (List Byte)) : State P :=
  { file := prior
    ranks := fun _ => { pc := .opening, fd := false, err := none, votes := [] }
    failed := false }

/-- The states that some interleaving of the ranks leads to. -/
def Reachable (c : Call P) (prior : Option (List Byte)) (s : State P) : Prop :=
  Relation.ReflTransGen (Step c) (initial prior) s

/-- The rank has left the call. -/
def Pc.Done : Pc → Prop
  | .returned => True
  | .threw _ => True
  | _ => False

end Steps

section Tiling

variable {P : ℕ}

/-- No negative size, and no data at a negative offset. -/
structure Call.Legal (c : Call P) : Prop where
  offset : ∀ r, c.data r ≠ [] → 0 ≤ c.offset r
  total : 0 ≤ c.totalSize

/-- Where the data of a rank starts. -/
def Call.start (c : Call P) (r : Fin P) : ℕ := (c.offset r).toNat

/-- The position belongs to the data of the rank. -/
def Call.Owns (c : Call P) (r : Fin P) (x : ℕ) : Prop :=
  c.start r ≤ x ∧ x < c.start r + (c.data r).length

/-- The head and the data of the ranks cover the file, no position twice. -/
structure Call.Tiles (c : Call P) : Prop where
  legal : c.Legal
  covered : ∀ x : ℕ, x < c.totalSize.toNat ↔ x < c.head.length ∨ ∃ r, c.Owns r x
  head_disjoint : ∀ r x, x < c.head.length → ¬ c.Owns r x
  disjoint : ∀ r r' x, c.Owns r x → c.Owns r' x → r = r'

/-- The bytes of which every part is where it belongs. -/
structure Call.IsContent (c : Call P) (content : List Byte) : Prop where
  length_eq : content.length = c.totalSize.toNat
  head : ∀ x < c.head.length, content[x]? = c.head[x]?
  data : ∀ r, ∀ x < (c.data r).length, content[c.start r + x]? = (c.data r)[x]?

end Tiling

end PatternSearch.ParallelFile
