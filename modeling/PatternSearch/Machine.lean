import Mathlib.Algebra.BigOperators.Group.List.Basic
import Mathlib.Algebra.GroupWithZero.Nat
import Mathlib.Data.Fin.Tuple.Basic
import Mathlib.Data.Int.Init
import Mathlib.Tactic.Choose
import Mathlib.Tactic.SplitIfs

/-!
The C++ machine as far as a computation can tell. Signed int arithmetic that leaves the
range of int is undefined behaviour and stops the run, while a conversion to a 32-bit
integer reduces modulo 2^32. Thrown exceptions are told apart from undefined behaviour
and from ranks that wait for each other forever.
-/

namespace PatternSearch.Machine

/-- INT_MAX, INT32_MAX and std::numeric_limits<int>::max(). -/
def intMax : ℕ := 2147483647

/-- The exceptions of the C++ standard library, with the text of what(). -/
inductive Thrown
  | invalidArgument (what : String)
  | runtimeError (what : String)
  | outOfRange
  | lengthError
  deriving DecidableEq, Repr

inductive Fault
  /-- Undefined behaviour: signed arithmetic left the range of int. -/
  | overflow
  /-- Undefined behaviour: an access past the end of a buffer. -/
  | outOfBounds
  /-- A library call outside its documented contract. -/
  | contract
  /-- The ranks disagree about a collective call. -/
  | mismatch
  | outOfFuel
  | throws (e : Thrown)
  deriving DecidableEq, Repr

/-- Addition of two non-negative ints. -/
def intAdd (a b : ℕ) : Except Fault ℕ :=
  if a + b ≤ intMax then .ok (a + b) else .error .overflow

/-- Multiplication of two non-negative ints. -/
def intMul (a b : ℕ) : Except Fault ℕ :=
  if a * b ≤ intMax then .ok (a * b) else .error .overflow

/-- `std::accumulate` of ints with an int as the initial value. -/
def totalInt (counts : List ℕ) : Except Fault ℕ := counts.foldlM intAdd 0

/-- The conversion of an integer to a 32-bit signed integer: reduction modulo 2^32. -/
def toInt32 (x : ℤ) : ℤ := x.bmod (2 ^ 32)

/-- The conversion to a 64-bit signed integer. -/
def toInt64 (x : ℤ) : ℤ := x.bmod (2 ^ 64)

theorem toInt64_eq_self {x : ℤ} (hlow : -(2 ^ 63) ≤ x) (hhigh : x < 2 ^ 63) : toInt64 x = x := by
  unfold toInt64
  apply Int.bmod_eq_of_le
  · omega
  · omega

theorem toInt32_eq_self {x : ℤ} (hlow : -(2 ^ 31) ≤ x) (hhigh : x < 2 ^ 31) : toInt32 x = x := by
  unfold toInt32
  apply Int.bmod_eq_of_le
  · omega
  · omega

theorem toInt32_range (x : ℤ) : -(2 ^ 31) ≤ toInt32 x ∧ toInt32 x < 2 ^ 31 := by
  unfold toInt32
  rw [Int.bmod_def]
  split_ifs <;> omega

/-- Run the same program on every rank. A rank that does not return stops the whole run. -/
def onRanks {α : Type} : {P : ℕ} → (Fin P → Except Fault α) → Except Fault (Fin P → α)
  | 0, _ => .ok Fin.elim0
  | _ + 1, f => do
    let first ← f 0
    let rest ← onRanks fun r => f r.succ
    return Fin.cons first rest

@[simp] theorem bind_eq_ok {α β : Type} {x : Except Fault α} {f : α → Except Fault β} {b : β} :
    (x >>= f) = .ok b ↔ ∃ a, x = .ok a ∧ f a = .ok b := by
  cases x with
  | error e => simp [bind, Except.bind]
  | ok a => simp [bind, Except.bind]

theorem bind_eq_error {α β : Type} {x : Except Fault α} {f : α → Except Fault β} {e : Fault} :
    (x >>= f) = .error e ↔ x = .error e ∨ ∃ a, x = .ok a ∧ f a = .error e := by
  cases x with
  | error e' => simp [bind, Except.bind]
  | ok a => simp [bind, Except.bind]

@[simp] theorem ok_bind {α β : Type} (a : α) (f : α → Except Fault β) :
    (Except.ok a >>= f) = f a := rfl

@[simp] theorem error_bind {α β : Type} (e : Fault) (f : α → Except Fault β) :
    ((.error e : Except Fault α) >>= f) = .error e := rfl

@[simp] theorem pure_eq_ok {α : Type} (a : α) : (pure a : Except Fault α) = .ok a := rfl

theorem intAdd_eq_ok {a b : ℕ} (h : a + b ≤ intMax) : intAdd a b = .ok (a + b) := if_pos h

theorem intAdd_eq_error {a b : ℕ} (h : ¬ a + b ≤ intMax) : intAdd a b = .error .overflow :=
  if_neg h

theorem totalInt_eq_ok_iff (counts : List ℕ) (c : ℕ) :
    totalInt counts = .ok c ↔ counts.sum ≤ intMax ∧ c = counts.sum := by
  have aux : ∀ a, a ≤ intMax → (counts.foldlM intAdd a = .ok c ↔
      a + counts.sum ≤ intMax ∧ c = a + counts.sum) := by
    induction counts with
    | nil =>
      intro a ha
      simp [ha, eq_comm]
    | cons x counts ih =>
      intro a _
      rw [List.foldlM_cons, List.sum_cons, ← Nat.add_assoc]
      by_cases hfit : a + x ≤ intMax
      · rw [intAdd_eq_ok hfit, ok_bind]
        exact ih (a + x) hfit
      · rw [intAdd_eq_error hfit, error_bind]
        constructor
        · intro h
          cases h
        · rintro ⟨h, _⟩
          omega
  simpa [totalInt] using aux 0 (Nat.zero_le _)

theorem totalInt_eq_error {counts : List ℕ} (h : intMax < counts.sum) :
    totalInt counts = .error .overflow := by
  have aux : ∀ (l : List ℕ) a e, l.foldlM intAdd a = .error e → e = .overflow := by
    intro l
    induction l with
    | nil => exact fun a e h => by cases h
    | cons x l ih =>
      intro a e hrun
      rw [List.foldlM_cons] at hrun
      rcases bind_eq_error.mp hrun with hfirst | ⟨b, _, hrest⟩
      · unfold intAdd at hfirst
        split_ifs at hfirst
        exact (Except.error.inj hfirst).symm
      · exact ih b e hrest
  cases hrun : totalInt counts with
  | ok c =>
    have hfit := ((totalInt_eq_ok_iff counts c).mp hrun).1
    omega
  | error e => rw [aux counts 0 e hrun]

theorem mapM_eq_ok {α β : Type} {f : α → Except Fault β} {g : α → β} (l : List α)
    (h : ∀ a ∈ l, f a = .ok (g a)) : l.mapM f = .ok (l.map g) := by
  induction l with
  | nil => rfl
  | cons a l ih =>
    have hhead := h a (List.mem_cons_self ..)
    have htail := ih fun b hb => h b (List.mem_cons_of_mem _ hb)
    rw [List.mapM_cons, hhead, ok_bind, htail, ok_bind]
    rfl

theorem exists_error_of_mapM {α β : Type} {f : α → Except Fault β} {l : List α} {e : Fault}
    (h : l.mapM f = .error e) : ∃ a ∈ l, f a = .error e := by
  induction l with
  | nil => cases h
  | cons a l ih =>
    rw [List.mapM_cons, bind_eq_error] at h
    rcases h with ha | ⟨_, _, h⟩
    · exact ⟨a, List.mem_cons_self .., ha⟩
    · rcases bind_eq_error.mp h with hl | ⟨_, _, h⟩
      · obtain ⟨b, hb, hfail⟩ := ih hl
        exact ⟨b, List.mem_cons_of_mem _ hb, hfail⟩
      · cases h

theorem length_of_mapM {α β : Type} {f : α → Except Fault β} {l : List α} {l' : List β}
    (h : l.mapM f = .ok l') : l'.length = l.length := by
  induction l generalizing l' with
  | nil =>
    cases h
    rfl
  | cons a l ih =>
    rw [List.mapM_cons, bind_eq_ok] at h
    obtain ⟨_, _, h⟩ := h
    obtain ⟨rest, hrest, h⟩ := bind_eq_ok.mp h
    cases h
    rw [List.length_cons, List.length_cons, ih hrest]

theorem exists_of_mem_mapM {α β : Type} {f : α → Except Fault β} {l : List α} {l' : List β}
    (h : l.mapM f = .ok l') {b : β} (hb : b ∈ l') : ∃ a ∈ l, f a = .ok b := by
  induction l generalizing l' with
  | nil =>
    cases h
    cases hb
  | cons a l ih =>
    rw [List.mapM_cons, bind_eq_ok] at h
    obtain ⟨b', ha, h⟩ := h
    obtain ⟨rest, hrest, h⟩ := bind_eq_ok.mp h
    cases h
    rcases List.mem_cons.mp hb with rfl | hb
    · exact ⟨a, List.mem_cons_self .., ha⟩
    · obtain ⟨a', ha', hfa⟩ := ih hrest hb
      exact ⟨a', List.mem_cons_of_mem a ha', hfa⟩

/-- A loop over a list whose body never fails under an invariant is the pure loop. -/
theorem foldlM_eq_ok {α σ : Type} {f : σ → α → Except Fault σ} {g : σ → α → σ} {I : σ → Prop}
    (l : List α) (hstep : ∀ s, I s → ∀ a ∈ l, f s a = .ok (g s a) ∧ I (g s a)) {s : σ} (hs : I s) :
    l.foldlM f s = .ok (l.foldl g s) ∧ I (l.foldl g s) := by
  induction l generalizing s with
  | nil => exact ⟨rfl, hs⟩
  | cons a l ih =>
    obtain ⟨hhead, hI⟩ := hstep s hs a (List.mem_cons_self ..)
    have htail := ih (fun s hs b hb => hstep s hs b (List.mem_cons_of_mem _ hb)) hI
    rw [List.foldlM_cons, hhead, ok_bind]
    exact htail

variable {α : Type} {P : ℕ} {f : Fin P → Except Fault α}

theorem onRanks_eq_ok_iff {g : Fin P → α} : onRanks f = .ok g ↔ ∀ r, f r = .ok (g r) := by
  induction P with
  | zero =>
    constructor
    · exact fun _ r => r.elim0
    · intro _
      exact congrArg Except.ok (funext fun r => r.elim0)
  | succ P ih =>
    rw [onRanks, bind_eq_ok, Fin.forall_fin_succ]
    simp only [bind_eq_ok, pure_eq_ok, Except.ok.injEq]
    constructor
    · rintro ⟨a, ha, rest, hrest, rfl⟩
      exact ⟨ha, ih.mp hrest⟩
    · rintro ⟨h0, hsucc⟩
      exact ⟨g 0, h0, fun r => g r.succ, ih.mpr hsucc, Fin.cons_self_tail g⟩

theorem onRanks_eq_ok {g : Fin P → α} (h : ∀ r, f r = .ok (g r)) : onRanks f = .ok g :=
  onRanks_eq_ok_iff.mpr h

theorem exists_onRanks_eq_ok {Q : Fin P → α → Prop} (h : ∀ r, ∃ a, f r = .ok a ∧ Q r a) :
    ∃ g, onRanks f = .ok g ∧ ∀ r, Q r (g r) := by
  choose g hg hQ using h
  exact ⟨g, onRanks_eq_ok hg, hQ⟩

theorem exists_error_of_onRanks {e : Fault} (h : onRanks f = .error e) :
    ∃ r, f r = .error e := by
  induction P with
  | zero => cases h
  | succ P ih =>
    rw [onRanks] at h
    cases h0 : f 0 with
    | error e' =>
      rw [h0, error_bind, Except.error.injEq] at h
      exact ⟨0, h0.trans (congrArg _ h)⟩
    | ok a =>
      rw [h0, ok_bind] at h
      cases hrest : onRanks fun r : Fin P => f r.succ with
      | ok rest =>
        rw [hrest] at h
        cases h
      | error e' =>
        rw [hrest, error_bind, Except.error.injEq] at h
        subst e'
        obtain ⟨r, hr⟩ := ih hrest
        exact ⟨r.succ, hr⟩

/-- When every rank stops in the same way, so does the run. -/
theorem onRanks_eq_error {e : Fault} (hP : 0 < P) (h : ∀ r, f r = .error e) :
    onRanks f = .error e := by
  cases P with
  | zero => exact absurd hP (lt_irrefl 0)
  | succ P => rw [onRanks, h 0, error_bind]

/-- Ranks that can only stop in one way. -/
theorem onRanks_ite (p : Fin P → Prop) [DecidablePred p] (g : Fin P → α) (e : Fault) :
    onRanks (fun r => if p r then .ok (g r) else .error e) =
      if ∀ r, p r then .ok g else .error e := by
  by_cases hall : ∀ r, p r
  · rw [if_pos hall]
    exact onRanks_eq_ok fun r => if_pos (hall r)
  · rw [if_neg hall]
    cases hrun : onRanks fun r => if p r then .ok (g r) else .error e with
    | ok out =>
      refine absurd (fun r => ?_) hall
      by_contra hr
      have hok := onRanks_eq_ok_iff.mp hrun r
      rw [if_neg hr] at hok
      cases hok
    | error e' =>
      obtain ⟨r, hr⟩ := exists_error_of_onRanks hrun
      split_ifs at hr
      rw [Except.error.inj hr]

theorem onRanks_ne_error {e : Fault} (h : ∀ r, f r ≠ .error e) : onRanks f ≠ .error e := by
  intro hrun
  obtain ⟨r, hr⟩ := exists_error_of_onRanks hrun
  exact h r hr

theorem bind_ne_error {β : Type} {x : Except Fault α} {g : α → Except Fault β} {e : Fault}
    (hx : x ≠ .error e) (hg : ∀ a, g a ≠ .error e) : x >>= g ≠ .error e := by
  cases x with
  | error e' => exact fun h => hx (congrArg Except.error (Except.error.inj h))
  | ok a => exact hg a

section NoThrow

variable {β σ : Type}

/-- A computation that may stop but throws no exception. -/
def NoThrow (x : Except Fault α) : Prop := ∀ e, x ≠ .error (.throws e)

theorem NoThrow.ok (a : α) : NoThrow (.ok a) := fun _ h => by cases h

theorem NoThrow.bind {x : Except Fault α} {f : α → Except Fault β} (hx : NoThrow x)
    (hf : ∀ a, NoThrow (f a)) : NoThrow (x >>= f) :=
  fun e => bind_ne_error (hx e) fun a => hf a e

theorem NoThrow.foldlM {f : σ → α → Except Fault σ} (hf : ∀ s a, NoThrow (f s a)) (l : List α)
    (s : σ) : NoThrow (l.foldlM f s) := by
  induction l generalizing s with
  | nil => exact NoThrow.ok s
  | cons a l ih =>
    rw [List.foldlM_cons]
    exact (hf s a).bind ih

theorem NoThrow.onRanks (h : ∀ r, NoThrow (f r)) : NoThrow (onRanks f) :=
  fun e => onRanks_ne_error fun r => h r e

theorem NoThrow.intAdd (a b : ℕ) : NoThrow (intAdd a b) := by
  intro thrown h
  unfold Machine.intAdd at h
  split_ifs at h
  cases h

theorem NoThrow.totalInt (counts : List ℕ) : NoThrow (totalInt counts) :=
  NoThrow.foldlM NoThrow.intAdd counts 0

end NoThrow

end PatternSearch.Machine
