import Mathlib.Algebra.BigOperators.Fin
import Mathlib.Algebra.Order.Ring.Nat
import Mathlib.Algebra.Order.BigOperators.Group.List
import Mathlib.Data.List.FinRange
import PatternSearch.FirstMaximum
import PatternSearch.Machine

/-!
Collective operations over P ranks, on the buffers all ranks hold at the call. Every rank
passes its own arguments. A collective whose arguments do not match across the ranks is
a mismatch, and one that would run past a buffer is out of bounds; neither returns.

The communicator is not part of the source. Assumed of it: segments are laid out in rank order,
one after the other; the prefix sum of rank 0 is 0; of equal scores MAXLOC reports the smallest
rank; and sums of integers wrap around. Left out is a limit of its host calls: displacements in
bytes are ints there, so what one call gathers or exchanges must stay under 2 ^ 31 bytes.
-/

namespace PatternSearch.Collectives

open FirstMaximum Machine

variable {α : Type} {P : ℕ}

/-- The concatenation of all ranks' lists in rank order. -/
def gather (f : Fin P → List α) : List α := (List.ofFn f).flatten

/-- Where a rank's segment starts when segments of the given lengths are laid out in order. -/
def displacement (counts : Fin P → ℕ) (r : ℕ) : ℕ := ((List.ofFn counts).take r).sum

def segment (buf : List α) (counts : Fin P → ℕ) (r : Fin P) : List α :=
  (buf.drop (displacement counts r)).take (counts r)

/-- A branch that decides which collectives follow has to be taken alike on every rank. -/
def agree (b : Fin P → Bool) : Except Fault Bool :=
  if ∀ r, b r = true then .ok true
  else if ∀ r, b r = false then .ok false
  else .error .mismatch

/-- Every rank contributes one fixed-size record and receives all of them. -/
def allgather (x : Fin P → α) : Fin P → Fin P → α := fun _ s => x s

/-- Every rank contributes a list of the length all ranks expect from it. -/
def allgatherv (send : Fin P → List α) (recvcounts : Fin P → Fin P → ℕ) :
    Except Fault (Fin P → List α) :=
  if ∀ r s, recvcounts r s = (send s).length then .ok fun _ => gather send
  else .error .mismatch

/-- Rank s ships its segment r to rank r, which has room for `room r` entries. -/
def alltoallv (send : Fin P → List α) (sendcounts recvcounts : Fin P → Fin P → ℕ)
    (room : Fin P → ℕ) : Except Fault (Fin P → List α) :=
  if ∀ r s, recvcounts r s = sendcounts s r then
    if ∀ r, displacement (sendcounts r) P ≤ (send r).length ∧
        displacement (recvcounts r) P ≤ room r then
      .ok fun r => gather fun s => segment (send s) (sendcounts s) r
    else .error .outOfBounds
  else .error .mismatch

/-- The exclusive prefix sum in rank order; rank 0 receives 0. -/
def exscan (x : Fin P → ℕ) : Fin P → ℕ := fun r => displacement x r

/-- One value from the root to every rank. -/
def bcastValue (root : Fin P → ℕ) (x : Fin P → α) : Except Fault (Fin P → α) :=
  match (List.finRange P).find? fun q : Fin P => ∀ r, root r = q with
  | some q => .ok fun _ => x q
  | none => .error .mismatch

/-- The first `count` entries of the root's buffer overwrite those of every rank's. -/
def bcast (root count : Fin P → ℕ) (buf : Fin P → List α) : Except Fault (Fin P → List α) :=
  match (List.finRange P).find? fun q : Fin P => ∀ r, root r = q ∧ count r = count q with
  | some q =>
    if ∀ r, count r ≤ (buf r).length then
      .ok fun r => (buf q).take (count q) ++ (buf r).drop (count q)
    else .error .outOfBounds
  | none => .error .mismatch

/-- The elementwise sum over the ranks of the first m entries, reduced by `wrap`. -/
def columnSums (wrap : ℤ → ℤ) (m : ℕ) (x : Fin P → List ℤ) : List ℤ :=
  (List.range m).map fun i => wrap (∑ r, (x r).getD i 0)

def allreduceSum (wrap : ℤ → ℤ) (count : Fin P → ℕ) (x : Fin P → List ℤ) :
    Except Fault (Fin P → List ℤ) :=
  if ∀ r s, count r = count s then
    if ∀ r, count r ≤ (x r).length then .ok fun r => columnSums wrap (count r) x
    else .error .outOfBounds
  else .error .mismatch

/-- The largest value with the smallest rank holding it, on every rank. -/
def allreduceMaxloc (x : Fin P → ℤ) : Fin P → ℤ × ℕ :=
  fun r => match firstMax x (List.finRange P) with
    | some q => (x q, q)
    | none => (x r, r)

section Layout

theorem gather_succ (f : Fin (P + 1) → List α) :
    gather f = f 0 ++ gather fun r => f r.succ := by
  rw [gather, List.ofFn_succ, List.flatten_cons, gather]

theorem mem_gather {f : Fin P → List α} {a : α} : a ∈ gather f ↔ ∃ r, a ∈ f r := by
  simp [gather, List.mem_ofFn]

theorem gather_eq_flatMap (f : Fin P → List α) : gather f = (List.finRange P).flatMap f := by
  rw [gather, List.ofFn_eq_map, List.flatMap_def]

theorem gather_eq_flatMap_range (f : ℕ → List α) :
    gather (fun r : Fin P => f r) = (List.range P).flatMap f := by
  have hparts : List.ofFn (fun r : Fin P => f r) = (List.range P).map f :=
    List.ext_getElem (by simp) (by simp)
  rw [gather, hparts, List.flatMap_def]

theorem map_gather {β : Type} (g : α → β) (f : Fin P → List α) :
    (gather f).map g = gather fun r => (f r).map g := by
  rw [gather, gather, List.map_flatten, List.map_ofFn]
  rfl

theorem filter_gather (p : α → Bool) (f : Fin P → List α) :
    (gather f).filter p = gather fun r => (f r).filter p := by
  rw [gather, gather, List.filter_flatten, List.map_ofFn]
  rfl

theorem displacement_zero (counts : Fin P → ℕ) : displacement counts 0 = 0 := rfl

theorem displacement_succ (counts : Fin P → ℕ) (r : Fin P) :
    displacement counts (r + 1) = displacement counts r + counts r := by
  unfold displacement
  rw [List.take_succ_eq_append_getElem (by simp), List.sum_append, List.getElem_ofFn]
  simp

theorem displacement_cons_succ (counts : Fin (P + 1) → ℕ) (r : ℕ) :
    displacement counts (r + 1) = counts 0 + displacement (fun s => counts s.succ) r := by
  rw [displacement, displacement, List.ofFn_succ, List.take_succ_cons, List.sum_cons]

theorem displacement_last (counts : Fin P → ℕ) :
    displacement counts P = ∑ r, counts r := by
  rw [displacement, List.take_of_length_le (by simp), List.sum_ofFn]

theorem displacement_mono (counts : Fin P → ℕ) {r s : ℕ} (h : r ≤ s) :
    displacement counts r ≤ displacement counts s := by
  unfold displacement
  exact (List.take_sublist_take_left h).sum_le_sum fun _ _ => Nat.zero_le _

theorem block_end_le (counts : Fin P → ℕ) (r : Fin P) :
    displacement counts r + counts r ≤ displacement counts P := by
  rw [← displacement_succ]
  exact displacement_mono counts r.isLt

/-- No position lies in the blocks of two ranks. -/
theorem block_unique (counts : Fin P → ℕ) {x : ℕ} {r s : Fin P}
    (hr : displacement counts r ≤ x ∧ x < displacement counts r + counts r)
    (hs : displacement counts s ≤ x ∧ x < displacement counts s + counts s) : r = s := by
  have hordered : ∀ {r s : Fin P}, x < displacement counts r + counts r →
      displacement counts s ≤ x → ¬ r < s := by
    intro r s hend hstart hlt
    have hmono := displacement_mono counts (show (r : ℕ) + 1 ≤ s from hlt)
    rw [displacement_succ] at hmono
    omega
  exact le_antisymm (not_lt.mp (hordered hs.2 hr.1)) (not_lt.mp (hordered hr.2 hs.1))

theorem length_gather (f : Fin P → List α) :
    (gather f).length = displacement (fun r => (f r).length) P := by
  rw [displacement, List.take_of_length_le (by simp), gather, List.length_flatten, List.map_ofFn]
  rfl

theorem length_flatten_gather (f : Fin P → List (List α)) :
    (gather f).flatten.length = ∑ r, (f r).flatten.length := by
  rw [gather, List.flatten_flatten, List.map_ofFn, List.length_flatten, List.map_ofFn,
    List.sum_ofFn]
  rfl

/-- Cutting a concatenation at the lengths of its parts gives the parts back. -/
theorem segment_gather (f : Fin P → List α) (r : Fin P) :
    segment (gather f) (fun s => (f s).length) r = f r := by
  induction P with
  | zero => exact r.elim0
  | succ P ih =>
    rw [gather_succ, segment]
    cases r using Fin.cases with
    | zero => simp [displacement_zero]
    | succ r =>
      have htail := ih (fun s => f s.succ) r
      rw [Fin.val_succ, displacement_cons_succ, List.drop_append, List.drop_of_length_le (by simp),
        List.nil_append, Nat.add_sub_cancel_left]
      exact htail

theorem getElem?_gather (f : Fin P → List α) (r : Fin P) (i : ℕ) (hi : i < (f r).length) :
    (gather f)[displacement (fun s => (f s).length) r + i]? = (f r)[i]? := by
  induction P with
  | zero => exact r.elim0
  | succ P ih =>
    rw [gather_succ]
    cases r using Fin.cases with
    | zero =>
      rw [Fin.val_zero, displacement_zero, Nat.zero_add]
      exact List.getElem?_append_left hi
    | succ r =>
      have htail := ih (fun s => f s.succ) r hi
      rw [Fin.val_succ, displacement_cons_succ, Nat.add_assoc,
        List.getElem?_append_right (by omega), Nat.add_sub_cancel_left]
      exact htail

/-- Writing into one part of a concatenation. -/
theorem set_gather (f : Fin P → List α) (r : Fin P) (i : ℕ) (x : α) (hi : i < (f r).length) :
    (gather f).set (displacement (fun s => (f s).length) r + i) x =
      gather (Function.update f r ((f r).set i x)) := by
  induction P with
  | zero => exact r.elim0
  | succ P ih =>
    rw [gather_succ, gather_succ]
    cases r using Fin.cases with
    | zero =>
      rw [Fin.val_zero, displacement_zero, Nat.zero_add, List.set_append_left _ _ hi]
      simp
    | succ r =>
      have htail := ih (fun s => f s.succ) r hi
      rw [Fin.val_succ, displacement_cons_succ, Nat.add_assoc,
        List.set_append_right _ _ (by omega), Nat.add_sub_cancel_left, htail]
      have hne : (0 : Fin (P + 1)) ≠ r.succ := (Fin.succ_ne_zero r).symm
      rw [Function.update_of_ne hne]
      congr 2
      funext s
      by_cases hs : s = r
      · subst s
        simp
      · rw [Function.update_of_ne hs, Function.update_of_ne (by simpa using hs)]

end Layout

theorem agree_eq_true {b : Fin P → Bool} (h : ∀ r, b r = true) : agree b = .ok true := if_pos h

theorem agree_eq_false {b : Fin P → Bool} (hP : 0 < P) (h : ∀ r, b r = false) :
    agree b = .ok false := by
  unfold agree
  rw [if_neg, if_pos h]
  intro htrue
  have h0 := htrue ⟨0, hP⟩
  rw [h] at h0
  cases h0

/-- The branch all ranks take is the one each of them decided for. -/
theorem of_agree {b : Fin P → Bool} {v : Bool} (h : agree b = .ok v) (r : Fin P) : b r = v := by
  unfold agree at h
  split_ifs at h with htrue hfalse
  · rw [htrue r, Except.ok.inj h]
  · rw [hfalse r, Except.ok.inj h]

/-- Ranks that all know the same value branch alike on it. -/
theorem agree_const (hP : 0 < P) (b : Bool) : agree (fun _ : Fin P => b) = .ok b := by
  cases b with
  | true => exact agree_eq_true fun _ => rfl
  | false => exact agree_eq_false hP fun _ => rfl

theorem allgatherv_eq_ok {send : Fin P → List α} {recvcounts : Fin P → Fin P → ℕ}
    (h : ∀ r s, recvcounts r s = (send s).length) :
    allgatherv send recvcounts = .ok fun _ => gather send := if_pos h

/-- When every rank's buffer is the concatenation of its parts, the parts are transposed. -/
theorem alltoallv_eq_ok (parts : Fin P → Fin P → List α)
    {sendcounts recvcounts : Fin P → Fin P → ℕ} {room : Fin P → ℕ}
    (hsend : ∀ s r, sendcounts s r = (parts s r).length)
    (hrecv : ∀ r s, recvcounts r s = (parts s r).length)
    (hroom : ∀ r, displacement (recvcounts r) P ≤ room r) :
    alltoallv (fun s => gather (parts s)) sendcounts recvcounts room =
      .ok fun r => gather fun s => parts s r := by
  have hs : sendcounts = fun s r => (parts s r).length := funext fun s => funext (hsend s)
  unfold alltoallv
  rw [if_pos (fun r s => by rw [hrecv, hsend]), if_pos]
  · subst hs
    simp only [segment_gather]
  · intro r
    refine ⟨?_, hroom r⟩
    rw [length_gather, hs]

theorem noThrow_alltoallv (send : Fin P → List α) (sendcounts recvcounts : Fin P → Fin P → ℕ)
    (room : Fin P → ℕ) : NoThrow (alltoallv send sendcounts recvcounts room) := by
  intro thrown h
  unfold alltoallv at h
  split_ifs at h <;> cases h

theorem bcastValue_eq_ok {root : Fin P → ℕ} {x : Fin P → α} (q : Fin P)
    (h : ∀ r, root r = q) : bcastValue root x = .ok fun _ => x q := by
  unfold bcastValue
  cases hfind : (List.finRange P).find? fun q : Fin P => ∀ r, root r = q with
  | none =>
    rw [List.find?_eq_none] at hfind
    exact absurd (decide_eq_true h) (hfind q (List.mem_finRange q))
  | some q' =>
    have hfound := List.find?_some hfind
    have hq' := of_decide_eq_true hfound q
    have heq : q' = q := Fin.ext (hq'.symm.trans (h q))
    rw [heq]

/-- Only the last rank knows a total after an exclusive scan; it broadcasts it. -/
theorem bcastTotal_eq_ok (hP : 0 < P) (counts : Fin P → ℕ) :
    bcastValue (fun _ : Fin P => P - 1)
        (fun r => if (r : ℕ) = P - 1 then displacement counts r + counts r else 0) =
      .ok fun _ => displacement counts P := by
  let last : Fin P := ⟨P - 1, by omega⟩
  have hstep := displacement_succ counts last
  have hlast : (last : ℕ) + 1 = P := by
    show P - 1 + 1 = P
    omega
  rw [hlast] at hstep
  rw [bcastValue_eq_ok last fun _ => rfl, hstep, if_pos rfl]

theorem bcast_eq_ok {root count : Fin P → ℕ} {buf : Fin P → List α} (q : Fin P) (c : ℕ)
    (hroot : ∀ r, root r = q) (hcount : ∀ r, count r = c) (hlen : ∀ r, c ≤ (buf r).length) :
    bcast root count buf = .ok fun r => (buf q).take c ++ (buf r).drop c := by
  unfold bcast
  cases hfind : (List.finRange P).find? fun q : Fin P =>
      decide (∀ r, root r = q ∧ count r = count q) with
  | none =>
    rw [List.find?_eq_none] at hfind
    exact absurd (decide_eq_true fun r => ⟨hroot r, by rw [hcount, hcount]⟩)
      (hfind q (List.mem_finRange q))
  | some q' =>
    have hfound := List.find?_some hfind
    have hq' := (of_decide_eq_true hfound q).1
    obtain rfl : q' = q := Fin.ext (hq'.symm.trans (hroot q))
    simp only [hcount]
    exact if_pos hlen

theorem allreduceSum_eq_ok {wrap : ℤ → ℤ} {count : Fin P → ℕ} {x : Fin P → List ℤ} (m : ℕ)
    (hcount : ∀ r, count r = m) (hlen : ∀ r, m ≤ (x r).length) :
    allreduceSum wrap count x = .ok fun _ => columnSums wrap m x := by
  unfold allreduceSum
  rw [if_pos fun r s => by rw [hcount, hcount], if_pos fun r => by rw [hcount]; exact hlen r]
  simp only [hcount]

theorem length_columnSums (wrap : ℤ → ℤ) (m : ℕ) (x : Fin P → List ℤ) :
    (columnSums wrap m x).length = m := by
  simp [columnSums]

theorem getD_columnSums (wrap : ℤ → ℤ) (x : Fin P → List ℤ) {m i : ℕ} (hi : i < m) :
    (columnSums wrap m x).getD i 0 = wrap (∑ r, (x r).getD i 0) := by
  simp [columnSums, List.getD_eq_getElem?_getD, hi]

/-- On at least one rank, MAXLOC finds the first rank with the largest value. -/
theorem allreduceMaxloc_spec (x : Fin P → ℤ) (hP : 0 < P) :
    ∃ q, IsFirstMax x (List.finRange P) q ∧ allreduceMaxloc x = fun _ => (x q, q.val) := by
  have hne : List.finRange P ≠ [] := List.ne_nil_of_mem (List.mem_finRange ⟨0, hP⟩)
  obtain ⟨q, hq⟩ := exists_isFirstMax x hne
  refine ⟨q, hq, ?_⟩
  funext r
  rw [allreduceMaxloc, (firstMax_eq_some_iff x _ q).mpr hq]

end PatternSearch.Collectives
