import Mathlib.Data.List.GetD
import Mathlib.Data.List.Perm.Basic
import PatternSearch.Machine
import PatternSearch.GreedyCover
import PatternSearch.Transpose
import PatternSearch.WordBits

/-!
The device code both partition modes share: CUB's ArgMax and the kernels that list the newly
covered ids, set their bits and lower the scores of the patches they lie in. The threads of
a launch run in an order the program does not control, and freshly allocated device memory
holds anything; a device is a choice of both. What the threads leave behind is the same set,
bitset and scores in any order.
-/

namespace PatternSearch.Kernels

open Machine Csr Transpose WordBits FirstMaximum GreedyCover

section Device

/-- Orders are indexed by the iteration and the kernel, so every launch may differ. -/
structure Device : Type 1 where
  order : ℕ → ℕ → {α : Type} → List α → List α
  order_perm : ∀ (iteration kernel : ℕ) {α : Type} (threads : List α),
    (order iteration kernel threads).Perm threads
  uninitialized : ℕ → ℕ → ℕ

/-- The device that runs threads in launch order on zeroed memory. -/
def Device.inOrder : Device where
  order _ _ _ threads := threads
  order_perm _ _ _ threads := List.Perm.refl threads
  uninitialized _ _ := 0

namespace Device

variable {σ α : Type} (d : Device) (iteration kernel : ℕ)

/-- A buffer of the given size as cudaMalloc leaves it. -/
def alloc (size : ℕ) : List ℕ := (List.range size).map (d.uninitialized iteration)

@[simp] theorem length_alloc (size : ℕ) : (d.alloc iteration size).length = size := by
  simp [alloc]

/-- A launch whose threads may access memory out of bounds. -/
def launch (threads : List α) (body : σ → α → Except Fault σ) (s : σ) : Except Fault σ :=
  (d.order iteration kernel threads).foldlM body s

/-- A launch without threads does nothing. -/
theorem launch_nil (body : σ → α → Except Fault σ) (s : σ) :
    d.launch iteration kernel [] body s = .ok s := by
  have hnil := (d.order_perm iteration kernel ([] : List α)).eq_nil
  rw [launch, hnil]
  rfl

end Device

end Device

/-- `cub::DeviceReduce::ArgMax` on the first `numItems` scores: the largest value with the
smallest index holding it. -/
def argMax (scores : List ℤ) (numItems : ℤ) : Except Fault (ℤ × ℕ) :=
  if numItems ≤ 0 then .error .contract
  else if (scores.length : ℤ) < numItems then .error .outOfBounds
  else match firstMax (fun i => scores.getD i 0) (List.range numItems.toNat) with
    | some i => .ok (scores.getD i 0, i)
    | none => .error .contract

/-- The output buffer of the build kernels with its atomic counter. -/
structure NewlyBuffer where
  ids : List ElementId
  count : ℕ

/-- One thread of the build kernels: append the id when its bit is clear. -/
def emitUncovered (covered : List Word) (out : NewlyBuffer) (id : ElementId) :
    Except Fault NewlyBuffer := do
  let hit ← readBit covered id
  if hit then return out
  else if out.count < out.ids.length then
    return { ids := out.ids.set out.count id, count := (out.count + 1) % 2 ^ 32 }
  else .error .outOfBounds

/-- One atomic decrement; `wrap` is the arithmetic of the score type. -/
def decrement (wrap : ℤ → ℤ) (scores : List ℤ) (q : PatchId) : Except Fault (List ℤ) :=
  if q < scores.length then .ok (scores.modify q fun s => wrap (s - 1)) else .error .outOfBounds

/-- The atomic operations of the score update kernels, block after block. -/
def scoreThreads (inv : InvertedIndex) (newlyIds : List ElementId) : List PatchId :=
  newlyIds.flatMap (affectedPatches inv)

theorem argMax_eq_ok {scores : List ℤ} (hpos : 0 < scores.length) (hfit : scores.length ≤ intMax) :
    ∃ i, IsFirstMax (fun i => scores.getD i 0) (List.range scores.length) i ∧
      argMax scores (toInt32 scores.length) = .ok (scores.getD i 0, i) := by
  have hne : List.range scores.length ≠ [] := by
    rw [Ne, List.range_eq_nil]
    omega
  obtain ⟨i, hi⟩ := exists_isFirstMax (fun i => scores.getD i 0) hne
  have hitems : toInt32 scores.length = scores.length := by
    unfold intMax at hfit
    apply toInt32_eq_self
    · omega
    · omega
  refine ⟨i, hi, ?_⟩
  rw [argMax, hitems, if_neg (by omega), if_neg (by omega), Int.toNat_natCast,
    (firstMax_eq_some_iff _ _ i).mpr hi]

/-- A result is the value of an index in range. -/
theorem argMax_spec {scores : List ℤ} {numItems v : ℤ} {i : ℕ}
    (h : argMax scores numItems = .ok (v, i)) : i < scores.length ∧ v = scores.getD i 0 := by
  unfold argMax at h
  split_ifs at h with hpos hlen
  cases hmax : firstMax (fun i => scores.getD i 0) (List.range numItems.toNat) with
  | none =>
    rw [hmax] at h
    cases h
  | some j =>
    rw [hmax] at h
    obtain ⟨rfl, rfl⟩ := Prod.mk.inj (Except.ok.inj h)
    have hmem := List.mem_range.mp ((firstMax_eq_some_iff _ _ _).mp hmax).mem
    exact ⟨by omega, rfl⟩

section Build

variable {covered : List Word} {n : ℕ} {C : Finset ℕ}

theorem foldlM_emitUncovered (hC : Represents covered n C) (threads newly buf : List ℕ)
    (hthreads : ∀ id ∈ threads, id < n)
    (hroom : (threads.filter fun id => id ∉ C).length ≤ buf.length)
    (hsmall : newly.length + (threads.filter fun id => id ∉ C).length < 2 ^ 32) :
    threads.foldlM (emitUncovered covered) { ids := newly ++ buf, count := newly.length } =
      .ok { ids := newly ++ (threads.filter fun id => id ∉ C) ++
              buf.drop (threads.filter fun id => id ∉ C).length
            count := (newly ++ threads.filter fun id => id ∉ C).length } := by
  induction threads generalizing newly buf with
  | nil => simp
  | cons id threads ih =>
    have hid : id < n := hthreads id (List.mem_cons_self ..)
    have htail : ∀ x ∈ threads, x < n := fun x hx => hthreads x (List.mem_cons_of_mem _ hx)
    rw [List.foldlM_cons, emitUncovered, hC.readBit_eq_ok hid, ok_bind]
    by_cases hmem : id ∈ C
    · rw [List.filter_cons_of_neg (by simpa using hmem)] at hroom hsmall ⊢
      rw [if_pos (by simpa using hmem), pure_eq_ok, ok_bind]
      exact ih newly buf htail hroom hsmall
    · rw [List.filter_cons_of_pos (by simpa using hmem)] at hroom hsmall ⊢
      cases buf with
      | nil => simp at hroom
      | cons x buf =>
        simp only [List.length_cons] at hroom hsmall
        have hset : (newly ++ x :: buf).set newly.length id = (newly ++ [id]) ++ buf := by
          rw [List.set_append_right _ _ le_rfl, Nat.sub_self, List.set_cons_zero]
          simp
        have hcount : (newly.length + 1) % 2 ^ 32 = (newly ++ [id]).length := by
          rw [List.length_append, List.length_singleton]
          omega
        have hstep := ih (newly ++ [id]) buf htail (by omega)
          (by simp only [List.length_append, List.length_singleton]; omega)
        rw [if_neg (by simpa using hmem), if_pos (by simp), hset, hcount, pure_eq_ok, ok_bind,
          hstep]
        simp

/-- The build kernel lists each uncovered id of the range once, in some order, at the front
of its buffer. -/
theorem launch_emitUncovered (d : Device) (iteration kernel : ℕ) (hC : Represents covered n C)
    (ids buf : List ℕ) (hids : ∀ id ∈ ids, id < n)
    (hroom : (ids.filter fun id => id ∉ C).length ≤ buf.length)
    (hsmall : (ids.filter fun id => id ∉ C).length < 2 ^ 32) :
    ∃ newly, newly.Perm (ids.filter fun id => id ∉ C) ∧
      d.launch iteration kernel ids (emitUncovered covered) { ids := buf, count := 0 } =
        .ok { ids := newly ++ buf.drop newly.length, count := newly.length } := by
  have hperm := d.order_perm iteration kernel ids
  have hlen := (hperm.filter fun id => id ∉ C).length_eq
  have hrun := foldlM_emitUncovered hC (d.order iteration kernel ids) [] buf
    (fun id hid => hids id (hperm.mem_iff.mp hid)) (by rw [hlen]; exact hroom)
    (by rw [List.length_nil, Nat.zero_add, hlen]; exact hsmall)
  exact ⟨_, hperm.filter _, hrun⟩

/-- So many ids, each once: those of a range whose bits are clear. -/
structure ListsUncovered (ids : List ElementId) (covered : List Word) (count : ℤ)
    (newly : List ElementId) : Prop where
  nodup : newly.Nodup
  length_eq : (newly.length : ℤ) = count
  mem_iff : ∀ e, e ∈ newly ↔ e ∈ ids ∧ testBit covered e = false

theorem listsUncovered_of_perm (hC : Represents covered n C) {ids newly : List ElementId}
    (hids : ids.Nodup) (hperm : newly.Perm (ids.filter fun id => id ∉ C)) {count : ℤ}
    (hcount : ((ids.filter fun id => id ∉ C).length : ℤ) = count) :
    ListsUncovered ids covered count newly where
  nodup := hperm.nodup_iff.mpr (hids.filter _)
  length_eq := by rw [hperm.length_eq, hcount]
  mem_iff e := by
    rw [hperm.mem_iff, List.mem_filter, decide_eq_true_eq, hC.test_eq, decide_eq_false_iff_not]

/-- The set_bits kernel adds the listed ids, whatever their order and repetitions. -/
theorem launch_writeBit (d : Device) (iteration kernel : ℕ) (hC : Represents covered n C)
    (ids : List ℕ) (hids : ∀ id ∈ ids, id < n) :
    ∃ words, d.launch iteration kernel ids writeBit covered = .ok words ∧
      Represents words n (C ∪ ids.toFinset) := by
  have hperm := d.order_perm iteration kernel ids
  have hlt : ∀ id ∈ d.order iteration kernel ids, id < n := fun id hid =>
    hids id (hperm.mem_iff.mp hid)
  have hrun := foldlM_eq_ok (I := fun words => words.length = wordsFor n)
    (f := writeBit) (g := setBit) (d.order iteration kernel ids) (fun words hwords id hid => by
      constructor
      · rw [writeBit, if_pos]
        rw [hwords]
        exact shiftRight_lt_wordsFor (hlt id hid)
      · rw [length_setBit, hwords]) hC.length_eq
  refine ⟨_, hrun.1, ?_⟩
  have hset : (d.order iteration kernel ids).toFinset = ids.toFinset :=
    List.toFinset_eq_of_perm _ _ hperm
  rw [← hset]
  exact hC.foldl_setBit _ hlt

end Build

section Update

variable {wrap : ℤ → ℤ}

/-- One atomic operation lowers its own score and no other. -/
theorem getD_modify_decrement {scores : List ℤ} {a : ℕ} (ha : a < scores.length)
    (hone : wrap (scores.getD a 0 - 1) = scores.getD a 0 - 1) (q : ℕ) :
    (scores.modify a fun s => wrap (s - 1)).getD q 0 =
      scores.getD q 0 - if a = q then 1 else 0 := by
  rw [List.getD_eq_getElem?_getD, List.getElem?_modify]
  by_cases hq : a = q
  · subst q
    rw [List.getD_eq_getElem _ _ ha] at hone ⊢
    simp [ha, hone]
  · simp [hq, List.getD_eq_getElem?_getD]

theorem count_cons_cast (a : ℕ) (threads : List ℕ) (q : ℕ) :
    ((a :: threads).count q : ℤ) = (if a = q then 1 else 0) + threads.count q := by
  by_cases hq : a = q
  · subst q
    rw [List.count_cons_self, if_pos rfl]
    push_cast
    omega
  · rw [List.count_cons_of_ne hq, if_neg hq, Int.zero_add]

/-- As long as no value on the way wraps, every score ends lower by the number of its threads. -/
theorem foldlM_decrement (threads : List ℕ) (scores : List ℤ)
    (hthreads : ∀ q ∈ threads, q < scores.length)
    (hwrap : ∀ q < scores.length, ∀ k ≤ threads.count q,
      wrap (scores.getD q 0 - k) = scores.getD q 0 - k) :
    ∃ scores', threads.foldlM (decrement wrap) scores = .ok scores' ∧
      scores'.length = scores.length ∧
      ∀ q, scores'.getD q 0 = scores.getD q 0 - threads.count q := by
  induction threads generalizing scores with
  | nil => exact ⟨scores, rfl, rfl, by simp⟩
  | cons a threads ih =>
    have ha : a < scores.length := hthreads a (List.mem_cons_self ..)
    have hone : wrap (scores.getD a 0 - 1) = scores.getD a 0 - 1 := by
      have h := hwrap a ha 1 (by simp)
      simpa using h
    have hstep := getD_modify_decrement ha hone
    obtain ⟨scores', hrun, hlen, hscores⟩ := ih (scores.modify a fun s => wrap (s - 1))
      (fun q hq => by
        rw [List.length_modify]
        exact hthreads q (List.mem_cons_of_mem _ hq))
      (fun q hlt k hk => by
        rw [List.length_modify] at hlt
        have hq := count_cons_cast a threads q
        rw [hstep q]
        by_cases haq : a = q
        · rw [if_pos haq] at hq ⊢
          have h := hwrap q hlt (k + 1) (by omega)
          push_cast at h
          rw [Int.sub_sub, Int.add_comm 1]
          exact h
        · rw [if_neg haq] at hq ⊢
          rw [Int.sub_zero]
          exact hwrap q hlt k (by omega))
    refine ⟨scores', ?_, by rw [hlen, List.length_modify], fun q => ?_⟩
    · rw [List.foldlM_cons, decrement, if_pos ha, ok_bind, hrun]
    · rw [hscores q, hstep q, count_cons_cast]
      omega

/-- The score kernels subtract from each score the number of atomic operations on it. -/
theorem launch_decrement (wrap : ℤ → ℤ) (d : Device) (iteration kernel : ℕ)
    (threads : List ℕ) (scores : List ℤ) (hthreads : ∀ q ∈ threads, q < scores.length)
    (hwrap : ∀ q < scores.length, ∀ k ≤ threads.count q,
      wrap (scores.getD q 0 - k) = scores.getD q 0 - k) :
    ∃ scores', d.launch iteration kernel threads (decrement wrap) scores = .ok scores' ∧
      scores'.length = scores.length ∧
      ∀ q, scores'.getD q 0 = scores.getD q 0 - threads.count q := by
  have hperm := d.order_perm iteration kernel threads
  obtain ⟨scores', hrun, hlen, hscores⟩ :=
    foldlM_decrement (d.order iteration kernel threads) scores
      (fun q hq => hthreads q (hperm.mem_iff.mp hq))
      (fun q hlt k hk => hwrap q hlt k (hperm.count_eq q ▸ hk))
  exact ⟨scores', hrun, hlen, fun q => by rw [hscores q, hperm.count_eq q]⟩

variable {patches : PatchCsr} (hrows : ∀ p, (patches.patch p).Nodup)
include hrows

theorem mem_scoreThreads {newlyIds : List ElementId} {q : PatchId} :
    q ∈ scoreThreads (buildInvertedIndex patches) newlyIds ↔
      q < patches.M ∧ ∃ e ∈ newlyIds, e ∈ patches.patch q := by
  simp only [scoreThreads, List.mem_flatMap, affectedPatches_buildInvertedIndex hrows, owners,
    List.mem_filter, List.mem_range, decide_eq_true_eq]
  tauto

/-- A patch's score is lowered once for each of its elements in the list. -/
theorem count_scoreThreads (newlyIds : List ElementId) {q : PatchId} (hq : q < patches.M) :
    (scoreThreads (buildInvertedIndex patches) newlyIds).count q =
      (newlyIds.filter fun e => e ∈ patches.patch q).length := by
  induction newlyIds with
  | nil => rfl
  | cons e newlyIds ih =>
    have hone : (owners patches e).count q = if e ∈ patches.patch q then 1 else 0 := by
      have hnodup : (owners patches e).Nodup := List.nodup_range.filter _
      by_cases he : e ∈ patches.patch q
      · rw [if_pos he]
        exact List.count_eq_one_of_mem hnodup (by simp [owners, hq, he])
      · rw [if_neg he]
        exact List.count_eq_zero_of_not_mem (by simp [owners, he])
    have hcons : scoreThreads (buildInvertedIndex patches) (e :: newlyIds) =
        owners patches e ++ scoreThreads (buildInvertedIndex patches) newlyIds := by
      rw [scoreThreads, List.flatMap_cons, affectedPatches_buildInvertedIndex hrows]
      rfl
    rw [hcons, List.count_append, ih, hone]
    by_cases he : e ∈ patches.patch q
    · rw [if_pos he, List.filter_cons_of_pos (by simpa using he), List.length_cons, Nat.add_comm]
    · rw [if_neg he, List.filter_cons_of_neg (by simpa using he), Nat.zero_add]

/-- Over the newly covered ids that is exactly the drop of the patch's gain. -/
theorem count_scoreThreads_eq_gain {S : ℕ → Finset ElementId} {C T : Finset ElementId}
    {newlyIds : List ElementId} {q : PatchId} {i : ℕ} (hq : q < patches.M)
    (hS : S i = (patches.patch q).toFinset) (hnodup : newlyIds.Nodup)
    (hnewly : newlyIds.toFinset = T \ C) :
    gain S (C ∪ T) i + (scoreThreads (buildInvertedIndex patches) newlyIds).count q =
      gain S C i := by
  have hcard : (S i ∩ (T \ C)).card =
      (newlyIds.filter fun e => e ∈ patches.patch q).length := by
    rw [← List.toFinset_card_of_nodup (hnodup.filter _), ← hnewly, hS]
    congr 1
    ext x
    simp [and_comm]
  rw [count_scoreThreads hrows newlyIds hq, ← hcard]
  exact gain_union_add C T i

/-- Run over the newly covered ids, the score kernels keep every score at the distance it had
from its gain, as long as the arithmetic of the scores is exact on the way. -/
theorem launch_scoreThreads (wrap : ℤ → ℤ) (d : Device) (iteration kernel : ℕ)
    {S : ℕ → Finset ElementId} {C T : Finset ElementId} {newlyIds : List ElementId}
    {scores : List ℤ} (hlen : scores.length = patches.M)
    (hS : ∀ q < patches.M, S q = (patches.patch q).toFinset) (hnodup : newlyIds.Nodup)
    (hnewly : newlyIds.toFinset = T \ C)
    (hwrap : ∀ q < patches.M, ∀ v ≤ scores.getD q 0, scores.getD q 0 - gain S C q ≤ v →
      wrap v = v) :
    ∃ scores', d.launch iteration kernel (scoreThreads (buildInvertedIndex patches) newlyIds)
        (decrement wrap) scores = .ok scores' ∧
      scores'.length = patches.M ∧
      ∀ q < patches.M,
        scores'.getD q 0 + gain S C q = scores.getD q 0 + gain S (C ∪ T) q := by
  have hdrop : ∀ q < patches.M, gain S (C ∪ T) q +
      (scoreThreads (buildInvertedIndex patches) newlyIds).count q = gain S C q :=
    fun q hq => count_scoreThreads_eq_gain hrows hq (hS q hq) hnodup hnewly
  obtain ⟨scores', hrun, hlen', hscores⟩ := launch_decrement wrap d iteration kernel
    (scoreThreads (buildInvertedIndex patches) newlyIds) scores
    (by
      intro q hq
      rw [hlen]
      exact ((mem_scoreThreads hrows).mp hq).1)
    (by
      intro q hq k hk
      rw [hlen] at hq
      have hd := hdrop q hq
      apply hwrap q hq
      · omega
      · omega)
  refine ⟨scores', hrun, hlen'.trans hlen, fun q hq => ?_⟩
  have hd := hdrop q hq
  have hvalue := hscores q
  omega

end Update

end PatternSearch.Kernels
