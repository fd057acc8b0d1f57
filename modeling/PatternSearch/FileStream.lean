import PatternSearch.Bytes
import PatternSearch.Machine

/-!
A FILE* open for reading, and the checks that C++ does not make. Besides its position the
stream keeps a record of everything that could go wrong unnoticed: where it was read, how
much was allocated, what was subtracted from what, and which ranges of a buffer were copied.
A call that throws leaves the stream as it stood.
-/

namespace PatternSearch.FileStream

open Machine Bytes

inductive Access
  | seek (pos : ℕ)
  | read (pos count : ℕ)
  /-- An allocation for entries that take so many bytes each in memory. -/
  | alloc (entries width : ℕ)
  /-- An unsigned subtraction. -/
  | sub (a b : ℕ)
  /-- Iterators into a buffer of the given size. -/
  | range (first last size : ℕ)
  deriving DecidableEq, Repr

/-- A seek or a read inside a file of the given size, an allocation of at most three times that
size, a subtraction that does not wrap, a range inside its buffer. -/
def Access.Safe (size : ℕ) : Access → Prop
  | .seek pos => pos ≤ size
  | .read pos count => pos + count ≤ size
  | .alloc entries width => entries * width ≤ 3 * size
  | .sub a b => b ≤ a
  | .range first last len => first ≤ last ∧ last ≤ len

structure Stream where
  bytes : List Byte
  pos : ℕ
  log : List Access

/-- A file that has just been opened. -/
def Stream.opened (bytes : List Byte) : Stream := { bytes, pos := 0, log := [] }

abbrev FileM (α : Type) := ExceptT Fault (StateM Stream) α

/-- The outcome of a call and the stream it leaves. -/
def exec {α : Type} (call : FileM α) (s : Stream) : Except Fault α × Stream := call.run.run s

/-- Note an access. -/
def note (a : Access) : FileM Unit := modify fun s => { s with log := s.log ++ [a] }

/-- `fseeko(f, static_cast<off_t>(pos), SEEK_SET)`, which refuses a negative offset. -/
def fseek (refused : Fault) (pos : ℕ) : FileM Unit := do
  if 2 ^ 63 ≤ pos then throw refused
  note (.seek pos)
  modify fun s => { s with pos }

/-- `fseeko(f, 0, SEEK_END)` and `ftello(f)`. -/
def ftellEnd : FileM ℕ := do
  modify fun s => { s with pos := s.bytes.length }
  return (← get).pos % 2 ^ 64

/-- `fread(dst, 1, count, f)`: fewer bytes at the end of the file. -/
def fread (count : ℕ) : FileM (List Byte) := do
  let s ← get
  note (.read s.pos count)
  let got := (s.bytes.drop s.pos).take count
  modify fun s => { s with pos := s.pos + got.length }
  return got

/-- The construction of a vector, or its `reserve`. -/
def allocate (entries width : ℕ) : FileM Unit := note (.alloc entries width)

/-- `a - b` on 64-bit unsigned integers. -/
def sub64 (a b : ℕ) : FileM ℕ := do
  note (.sub a b)
  return (a + 2 ^ 64 - b) % 2 ^ 64

/-- The entries between two iterators. -/
def copyRange {α : Type} (buf : List α) (first last : ℕ) : FileM (List α) := do
  note (.range first last buf.length)
  if first ≤ last ∧ last ≤ buf.length then return (buf.drop first).take (last - first)
  else throw .outOfBounds

section Exec

variable {α β : Type} {s s' : Stream}

theorem exec_bind (m : FileM α) (f : α → FileM β) (s : Stream) :
    exec (m >>= f) s =
      match exec m s with
      | (.ok a, s') => exec (f a) s'
      | (.error e, s') => (.error e, s') := by
  simp only [exec, ExceptT.run_bind, StateT.run_bind]
  rcases m.run.run s with ⟨r, s'⟩
  cases r <;> rfl

theorem exec_bind_ok {m : FileM α} {f : α → FileM β} {a : α} (h : exec m s = (.ok a, s')) :
    exec (m >>= f) s = exec (f a) s' := by
  rw [exec_bind, h]

theorem exec_bind_error {m : FileM α} {f : α → FileM β} {e : Fault}
    (h : exec m s = (.error e, s')) : exec (m >>= f) s = (.error e, s') := by
  rw [exec_bind, h]

theorem exec_bind_fst_error {m : FileM α} {f : α → FileM β} {e : Fault}
    (h : (exec m s).1 = .error e) : (exec (m >>= f) s).1 = .error e := by
  rw [exec_bind_error (Prod.ext h rfl)]

end Exec

/-- Wherever the stream stands in the file, the call has this outcome, and everything it does
on the way is safe. -/
def Safely {α : Type} (file : List Byte) (call : FileM α) (outcome : Except Fault α) : Prop :=
  ∀ s : Stream, s.bytes = file → ∃ s' made, exec call s = (outcome, s') ∧ s'.bytes = file ∧
    s'.log = s.log ++ made ∧ ∀ a ∈ made, a.Safe file.length

namespace Safely

variable {α β : Type} {file : List Byte}

theorem pure (a : α) : Safely file (Pure.pure a) (.ok a) :=
  fun s hs => ⟨s, [], rfl, hs, (List.append_nil _).symm, by simp⟩

theorem throw (e : Fault) : Safely file (MonadExcept.throw e : FileM α) (.error e) :=
  fun s hs => ⟨s, [], rfl, hs, (List.append_nil _).symm, by simp⟩

theorem note {a : Access} (ha : a.Safe file.length) :
    Safely file (FileStream.note a) (.ok ()) :=
  fun s hs => ⟨{ s with log := s.log ++ [a] }, [a], rfl, hs, rfl, by simpa using ha⟩

theorem bind {m : FileM α} {f : α → FileM β} {a : α} {outcome : Except Fault β}
    (hm : Safely file m (.ok a)) (hf : Safely file (f a) outcome) :
    Safely file (m >>= f) outcome := by
  intro s hs
  obtain ⟨s₁, made, hrun, hbytes, hlog, hsafe⟩ := hm s hs
  obtain ⟨s₂, made', hrun', hbytes', hlog', hsafe'⟩ := hf s₁ hbytes
  refine ⟨s₂, made ++ made', (exec_bind_ok hrun).trans hrun', hbytes', ?_, ?_⟩
  · rw [hlog', hlog, List.append_assoc]
  · intro a ha
    rcases List.mem_append.mp ha with ha | ha
    · exact hsafe a ha
    · exact hsafe' a ha

theorem bind_error {m : FileM α} {f : α → FileM β} {e : Fault}
    (hm : Safely file m (.error e)) : Safely file (m >>= f) (.error e) := by
  intro s hs
  obtain ⟨s₁, made, hrun, hbytes, hlog, hsafe⟩ := hm s hs
  exact ⟨s₁, made, exec_bind_error hrun, hbytes, hlog, hsafe⟩

/-- A loop whose passes all succeed. -/
theorem mapM {γ : Type} {f : γ → FileM β} {g : γ → β} {l : List γ}
    (h : ∀ x ∈ l, Safely file (f x) (.ok (g x))) : Safely file (l.mapM f) (.ok (l.map g)) := by
  induction l with
  | nil => exact Safely.pure []
  | cons x l ih =>
    rw [List.mapM_cons, List.map_cons]
    apply Safely.bind (h x List.mem_cons_self)
    apply Safely.bind (ih fun y hy => h y (List.mem_cons_of_mem x hy))
    exact Safely.pure _

/-- The outcome does not depend on where the stream stands. -/
theorem outcome_eq {call : FileM α} {outcome : Except Fault α} (h : Safely file call outcome)
    {s : Stream} (hs : s.bytes = file) : (exec call s).1 = outcome := by
  obtain ⟨s', made, hrun, -⟩ := h s hs
  rw [hrun]

theorem sub64 {a b : ℕ} (hle : b ≤ a) (ha : a < 2 ^ 64) :
    Safely file (FileStream.sub64 a b) (.ok (a - b)) := by
  have hdiff : (a + 2 ^ 64 - b) % 2 ^ 64 = a - b := by omega
  rw [FileStream.sub64, hdiff]
  exact Safely.bind (Safely.note hle) (Safely.pure _)

theorem copyRange {buf : List α} {first last : ℕ} (h : first ≤ last ∧ last ≤ buf.length) :
    Safely file (FileStream.copyRange buf first last)
      (.ok ((buf.drop first).take (last - first))) := by
  apply Safely.bind (Safely.note (a := .range first last buf.length) h)
  rw [if_pos h]
  exact Safely.pure _

end Safely

end PatternSearch.FileStream
