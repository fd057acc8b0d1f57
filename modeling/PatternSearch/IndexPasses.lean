import PatternSearch.Loops
import PatternSearch.Transpose

/-!
`build_inverted_index` pass by pass: the incidences are collected into two arrays, sorted
indirectly, their runs counted, and keys, offsets and data filled run by run. The pass that
counts and the pass that fills scan for the ends of the runs on their own. No write leaves an
array, the assertions hold, and what is left behind is the transpose of `Transpose`.
-/

namespace PatternSearch.IndexPasses

open Machine Csr KeyRuns Loops SortedLists
open Transpose (InvertedIndex incidences patchesOf affectedPatches owners)

/-- `buf[i] = x`. -/
def store {α : Type} (buf : List α) (i : ℕ) (x : α) : Except Fault (List α) :=
  if i < buf.length then .ok (buf.set i x) else .error .outOfBounds

def assertThat (c : Prop) [Decidable c] : Except Fault Unit :=
  if c then .ok () else .error .contract

section Passes

/-- The arrays `elems` and `owners` with their common write head. -/
structure Pairs where
  elems : List ElementId
  owners : List PatchId
  cursor : ℕ

def collectEntry (patches : PatchCsr) (p : PatchId) (st : Pairs) (i : ℕ) : Except Fault Pairs := do
  let elems ← store st.elems st.cursor (patches.data.getD i 0)
  let owners ← store st.owners st.cursor p
  return { elems, owners, cursor := st.cursor + 1 }

def collectRow (patches : PatchCsr) (st : Pairs) (p : PatchId) : Except Fault Pairs :=
  let b := patches.offsets.getD p 0
  let e := patches.offsets.getD (p + 1) 0
  (List.range' b (e - b)).foldlM (collectEntry patches p) st

def collect (patches : PatchCsr) : Except Fault Pairs :=
  let total := patches.data.length
  (List.range patches.M).foldlM (collectRow patches)
    { elems := List.replicate total 0, owners := List.replicate total 0, cursor := 0 }

/-- The order of the indirect sort: by element, ties broken by the owner. -/
def orderLe (elems : List ElementId) (owners : List PatchId) (a b : ℕ) : Prop :=
  pairLe (elems.getD a 0, owners.getD a 0) (elems.getD b 0, owners.getD b 0)

instance (elems : List ElementId) (owners : List PatchId) : DecidableRel (orderLe elems owners) :=
  fun a b =>
    inferInstanceAs
      (Decidable (pairLe (elems.getD a 0, owners.getD a 0) (elems.getD b 0, owners.getD b 0)))

def sortOrder (elems : List ElementId) (owners : List PatchId) (total : ℕ) : List ℕ :=
  (List.range total).insertionSort (orderLe elems owners)

/-- `while (j < total && elems[order[j]] == e) ++j`, with the number of entries left. -/
def runEnd (elem : ℕ → ElementId) (e : ElementId) : ℕ → ℕ → ℕ
  | 0, j => j
  | left + 1, j => if elem j = e then runEnd elem e left (j + 1) else j

/-- One turn of the counting loop over i and `num_keys`. -/
def countStep (elem : ℕ → ElementId) (total : ℕ) (s : ℕ × ℕ) : Except Fault ((ℕ × ℕ) ⊕ ℕ) :=
  if s.1 < total then
    .ok (.inl (runEnd elem (elem s.1) (total - (s.1 + 1)) (s.1 + 1), s.2 + 1))
  else .ok (.inr s.2)

def countKeys (elem : ℕ → ElementId) (total : ℕ) : Except Fault ℕ :=
  loop (countStep elem total) (total + 1) (0, 0)

structure FillState where
  i : ℕ
  k : ℕ
  write : ℕ
  keys : List ElementId
  offsets : List ℕ
  data : List PatchId

/-- The inner loop of the filling pass over j, `write` and the data. -/
def fillRun (elem : ℕ → ElementId) (owner : ℕ → PatchId) (e : ElementId) :
    ℕ → ℕ → ℕ → List PatchId → Except Fault (ℕ × ℕ × List PatchId)
  | 0, j, write, data => .ok (j, write, data)
  | left + 1, j, write, data =>
    if elem j = e then do
      let data ← store data write (owner j)
      fillRun elem owner e left (j + 1) (write + 1) data
    else .ok (j, write, data)

def fillStep (elem : ℕ → ElementId) (owner : ℕ → PatchId) (total : ℕ) (s : FillState) :
    Except Fault (FillState ⊕ FillState) :=
  if s.i < total then do
    let e := elem s.i
    let keys ← store s.keys s.k e
    let offsets ← store s.offsets s.k s.write
    let (j, write, data) ← fillRun elem owner e (total - s.i) s.i s.write s.data
    return .inl { i := j, k := s.k + 1, write, keys, offsets, data }
  else .ok (.inr s)

def fill (elem : ℕ → ElementId) (owner : ℕ → PatchId) (total numKeys : ℕ) :
    Except Fault FillState :=
  loop (fillStep elem owner total) (total + 1)
    { i := 0
      k := 0
      write := 0
      keys := List.replicate numKeys 0
      offsets := List.replicate (numKeys + 1) 0
      data := List.replicate total 0 }

def buildInvertedIndex (patches : PatchCsr) : Except Fault InvertedIndex :=
  let total := patches.data.length
  if total = 0 then .ok { keys := [], offsets := [0], data := [] }
  else do
    let pairs ← collect patches
    assertThat (pairs.cursor = total)
    let order := sortOrder pairs.elems pairs.owners total
    let elem := fun j => pairs.elems.getD (order.getD j 0) 0
    let owner := fun j => pairs.owners.getD (order.getD j 0) 0
    let numKeys ← countKeys elem total
    let filled ← fill elem owner total numKeys
    let offsets ← store filled.offsets numKeys filled.write
    assertThat (filled.write = total)
    assertThat (filled.k = numKeys)
    return { keys := filled.keys, offsets, data := filled.data }

end Passes

theorem store_append {α : Type} (front back : List α) (old x : α) :
    store (front ++ old :: back) front.length x = .ok (front ++ x :: back) := by
  have hset : (front ++ old :: back).set front.length x = front ++ x :: back := by
    rw [List.set_append_right _ _ le_rfl, Nat.sub_self, List.set_cons_zero]
  rw [store, if_pos (by simp), hset]

section Scan

variable {elem : ℕ → ElementId} {owner : ℕ → PatchId}

/-- From position i on the sorted arrays read as a list of pairs. -/
def Reads (elem : ℕ → ElementId) (owner : ℕ → PatchId) (i : ℕ) (l : List (ElementId × PatchId)) :
    Prop :=
  ∀ q (hq : q < l.length), elem (i + q) = l[q].1 ∧ owner (i + q) = l[q].2

theorem Reads.head {i : ℕ} {x : ElementId × PatchId} {l : List (ElementId × PatchId)}
    (h : Reads elem owner i (x :: l)) : elem i = x.1 ∧ owner i = x.2 :=
  h 0 (Nat.zero_lt_succ _)

theorem Reads.tail {i : ℕ} {x : ElementId × PatchId} {l : List (ElementId × PatchId)}
    (h : Reads elem owner i (x :: l)) : Reads elem owner (i + 1) l := by
  intro q hq
  have hnext := h (q + 1) (Nat.succ_lt_succ hq)
  rw [Nat.add_assoc, Nat.add_comm 1]
  exact hnext

/-- Behind the first run the arrays read as what is left of the list. -/
theorem Reads.dropWhile {p : ElementId × PatchId → Bool} {i : ℕ}
    {l : List (ElementId × PatchId)} (h : Reads elem owner i l) :
    Reads elem owner (i + (l.takeWhile p).length) (l.dropWhile p) := by
  induction l generalizing i with
  | nil => exact h
  | cons x l ih =>
    by_cases hx : p x = true
    · rw [List.takeWhile_cons_of_pos hx, List.dropWhile_cons_of_pos hx, List.length_cons,
        Nat.add_comm _ 1, ← Nat.add_assoc]
      exact ih h.tail
    · rw [List.takeWhile_cons_of_neg hx, List.dropWhile_cons_of_neg hx]
      exact h

theorem runEnd_eq {i : ℕ} {l : List (ElementId × PatchId)} (h : Reads elem owner i l)
    (e : ElementId) :
    runEnd elem e l.length i = i + (l.takeWhile fun x => x.1 = e).length := by
  induction l generalizing i with
  | nil => rfl
  | cons x l ih =>
    rw [List.length_cons, runEnd, h.head.1]
    by_cases hx : x.1 = e
    · rw [if_pos hx, ih h.tail, List.takeWhile_cons_of_pos (by simpa using hx), List.length_cons]
      omega
    · rw [if_neg hx, List.takeWhile_cons_of_neg (by simpa using hx)]
      rfl

theorem fillRun_eq {i : ℕ} {l : List (ElementId × PatchId)} (h : Reads elem owner i l)
    (e : ElementId) (front back : List PatchId) (hroom : l.length ≤ back.length) :
    fillRun elem owner e l.length i front.length (front ++ back) =
      .ok (i + (l.takeWhile fun x => x.1 = e).length,
        front.length + (l.takeWhile fun x => x.1 = e).length,
        front ++ (l.takeWhile fun x => x.1 = e).map Prod.snd ++
          back.drop (l.takeWhile fun x => x.1 = e).length) := by
  induction l generalizing i front back with
  | nil => simp [fillRun]
  | cons x l ih =>
    rw [List.length_cons, fillRun, h.head.1]
    by_cases hx : x.1 = e
    · cases back with
      | nil => simp at hroom
      | cons old back =>
        have hstep := ih h.tail (front ++ [x.2]) back (by simpa using hroom)
        rw [List.length_append, List.length_singleton, List.append_assoc,
          List.singleton_append] at hstep
        rw [if_pos hx, store_append, ok_bind, h.head.2, hstep,
          List.takeWhile_cons_of_pos (by simpa using hx), List.length_cons, List.map_cons,
          List.drop_succ_cons]
        simp [Nat.add_assoc, Nat.add_comm 1]
    · rw [if_neg hx, List.takeWhile_cons_of_neg (by simpa using hx)]
      simp

/-- The counting pass counts the runs. -/
theorem countKeys_loop {total i n fuel : ℕ} {l : List (ElementId × PatchId)}
    (h : Reads elem owner i l) (htotal : i + l.length = total) (hfuel : l.length < fuel) :
    loop (countStep elem total) fuel (i, n) = .ok (n + (runsByKey l).length) := by
  obtain ⟨fuel, rfl⟩ := Nat.exists_eq_succ_of_ne_zero (Nat.ne_of_gt (Nat.zero_lt_of_lt hfuel))
  induction l using runsByKey.induct generalizing i n fuel with
  | case1 =>
    rw [List.length_nil] at htotal
    rw [runsByKey]
    exact loop_of_leave fuel (if_neg (by simp only; omega))
  | case2 k v rest ih =>
    have hsplit := List.takeWhile_append_dropWhile (p := fun x : ElementId × PatchId => x.1 = k)
      (l := rest)
    have hlen := congrArg List.length hsplit
    rw [List.length_append] at hlen
    rw [List.length_cons] at htotal hfuel
    have hend := runEnd_eq h.tail k
    have hstep : countStep elem total (i, n) =
        .ok (.inl (i + 1 + (rest.takeWhile fun x => x.1 = k).length, n + 1)) := by
      have hleft : total - (i + 1) = rest.length := by omega
      unfold countStep
      rw [if_pos (by simp only; omega)]
      simp only [h.head.1, hleft, hend]
    obtain ⟨fuel, rfl⟩ := Nat.exists_eq_succ_of_ne_zero (show fuel ≠ 0 by omega)
    rw [loop_of_continue _ hstep, runsByKey, List.length_cons]
    rw [ih h.tail.dropWhile (by omega) fuel (by omega)]
    congr 1
    omega

/-- Where the runs start when they are laid out from a position on. -/
def starts (first : ℕ) (runs : List (ElementId × List PatchId)) : List ℕ :=
  ((runs.map fun run => run.2.length).scanl (· + ·) first).take runs.length

theorem starts_cons (first : ℕ) (run : ElementId × List PatchId)
    (runs : List (ElementId × List PatchId)) :
    starts first (run :: runs) = first :: starts (first + run.2.length) runs := by
  rw [starts, List.map_cons, List.scanl_cons, List.length_cons, List.take_succ_cons]
  rfl

/-- One turn of the filling pass writes one run. -/
theorem fillStep_run {total i : ℕ} {k : ElementId} {v : PatchId}
    {rest : List (ElementId × PatchId)} (h : Reads elem owner i ((k, v) :: rest))
    (htotal : i + (rest.length + 1) = total) {keys : List ElementId} {offsets : List ℕ}
    (hoffsets : offsets.length = keys.length) (data : List PatchId) {dataRoom : List PatchId}
    (hroom : rest.length + 1 ≤ dataRoom.length) (oldKey : ElementId) (oldOffset : ℕ)
    (keysRoom : List ElementId) (offsetsRoom : List ℕ) :
    fillStep elem owner total
        { i
          k := keys.length
          write := data.length
          keys := keys ++ oldKey :: keysRoom
          offsets := offsets ++ oldOffset :: offsetsRoom
          data := data ++ dataRoom } =
      .ok (.inl
        { i := i + ((rest.takeWhile fun x => x.1 = k).length + 1)
          k := keys.length + 1
          write := data.length + ((rest.takeWhile fun x => x.1 = k).length + 1)
          keys := keys ++ k :: keysRoom
          offsets := offsets ++ data.length :: offsetsRoom
          data := data ++ v :: ((rest.takeWhile fun x => x.1 = k).map Prod.snd) ++
            dataRoom.drop ((rest.takeWhile fun x => x.1 = k).length + 1) }) := by
  have hrun := fillRun_eq h k data dataRoom hroom
  rw [List.takeWhile_cons_of_pos (by simp), List.length_cons, List.length_cons,
    List.map_cons] at hrun
  have hleft : total - i = rest.length + 1 := by omega
  unfold fillStep
  rw [if_pos (by simp only; omega)]
  simp only [h.head.1, hleft]
  rw [store_append, ok_bind, ← hoffsets, store_append, ok_bind, hrun, ok_bind]
  rfl

/-- The filling pass writes the runs the counting pass has counted. -/
theorem fill_loop {total i fuel : ℕ} {l : List (ElementId × PatchId)}
    (h : Reads elem owner i l) (htotal : i + l.length = total) (hfuel : l.length < fuel)
    (keys keysRoom : List ElementId) (offsets offsetsRoom : List ℕ) (data dataRoom : List PatchId)
    (hkeys : keysRoom.length = (runsByKey l).length) (hoffsets : offsets.length = keys.length)
    (hoffsetsRoom : (runsByKey l).length ≤ offsetsRoom.length)
    (hdata : dataRoom.length = l.length) :
    loop (fillStep elem owner total) fuel
        { i
          k := keys.length
          write := data.length
          keys := keys ++ keysRoom
          offsets := offsets ++ offsetsRoom
          data := data ++ dataRoom } =
      .ok
        { i := total
          k := keys.length + (runsByKey l).length
          write := data.length + l.length
          keys := keys ++ (runsByKey l).map Prod.fst
          offsets := offsets ++ starts data.length (runsByKey l) ++
            offsetsRoom.drop (runsByKey l).length
          data := data ++ (runsByKey l).flatMap Prod.snd } := by
  obtain ⟨fuel, rfl⟩ := Nat.exists_eq_succ_of_ne_zero (Nat.ne_of_gt (Nat.zero_lt_of_lt hfuel))
  induction l using runsByKey.induct generalizing i keys keysRoom offsets offsetsRoom data dataRoom
    fuel with
  | case1 =>
    rw [List.length_nil] at htotal hdata
    rw [runsByKey, List.length_nil] at hkeys
    obtain rfl := List.length_eq_zero_iff.mp hdata
    obtain rfl := List.length_eq_zero_iff.mp hkeys
    have hstop : ∀ s : FillState, s.i = total → fillStep elem owner total s = .ok (.inr s) := by
      intro s hs
      exact if_neg (by omega)
    rw [loop_of_leave fuel (hstop _ (by simp only; omega)), runsByKey, ← htotal]
    simp [starts]
  | case2 k v rest ih =>
    have hsplit := List.takeWhile_append_dropWhile (p := fun x : ElementId × PatchId => x.1 = k)
      (l := rest)
    have hlen := congrArg List.length hsplit
    rw [List.length_append] at hlen
    rw [List.length_cons] at htotal hfuel hdata
    rw [runsByKey, List.length_cons] at hkeys hoffsetsRoom
    obtain ⟨oldKey, keysRoom, rfl⟩ := List.exists_cons_of_length_eq_add_one hkeys
    obtain ⟨oldOffset, offsetsRoom, rfl⟩ :=
      List.exists_cons_of_ne_nil (List.ne_nil_of_length_pos (show 0 < offsetsRoom.length by omega))
    rw [List.length_cons] at hkeys hoffsetsRoom
    have hstep := fillStep_run h htotal hoffsets data (le_of_eq hdata.symm) oldKey oldOffset
      keysRoom offsetsRoom
    obtain ⟨fuel, rfl⟩ := Nat.exists_eq_succ_of_ne_zero (show fuel ≠ 0 by omega)
    have htail : Reads elem owner (i + ((rest.takeWhile fun x => x.1 = k).length + 1))
        (rest.dropWhile fun x => x.1 = k) := by
      rw [Nat.add_comm _ 1, ← Nat.add_assoc]
      exact h.tail.dropWhile
    have hnext := ih htail (by omega) (keys ++ [k]) keysRoom (offsets ++ [data.length]) offsetsRoom
      (data ++ v :: (rest.takeWhile fun x => x.1 = k).map Prod.snd)
      (dataRoom.drop ((rest.takeWhile fun x => x.1 = k).length + 1)) (by omega)
      (by simp [hoffsets]) (by omega)
      (by
        rw [List.length_drop]
        omega) fuel (by omega)
    simp only [List.length_append, List.length_cons, List.length_map, List.length_nil,
      Nat.zero_add, List.append_assoc, List.nil_append, List.cons_append] at hnext
    rw [loop_of_continue _ hstep, runsByKey, starts_cons]
    simp only [List.append_assoc, List.cons_append, List.length_cons, List.length_map,
      List.map_cons, List.flatMap_cons, List.drop_succ_cons]
    rw [hnext]
    congr 2
    · omega
    · omega

end Scan

section Collect

variable {patches : PatchCsr} {p : PatchId}

/-- The arrays while they are being filled. -/
def pairsOf (front : List (ElementId × PatchId)) (room : ℕ) : Pairs where
  elems := front.map Prod.fst ++ List.replicate room 0
  owners := front.map Prod.snd ++ List.replicate room 0
  cursor := front.length

theorem collectEntry_eq (front : List (ElementId × PatchId)) (room i : ℕ) :
    collectEntry patches p (pairsOf front (room + 1)) i =
      .ok (pairsOf (front ++ [(patches.data.getD i 0, p)]) room) := by
  have helems := store_append (front.map Prod.fst) (List.replicate room 0) 0
    (patches.data.getD i 0)
  have howners := store_append (front.map Prod.snd) (List.replicate room 0) 0 p
  rw [List.length_map, ← List.replicate_succ] at helems howners
  unfold collectEntry
  simp only [pairsOf, helems, howners, ok_bind]
  simp

theorem foldlM_collectEntry (b : ℕ) (row : List ElementId)
    (hrow : ∀ q (hq : q < row.length), patches.data.getD (b + q) 0 = row[q])
    (front : List (ElementId × PatchId)) (room : ℕ) :
    (List.range' b row.length).foldlM (collectEntry patches p)
        (pairsOf front (room + row.length)) =
      .ok (pairsOf (front ++ row.map fun e => (e, p)) room) := by
  induction row generalizing b front with
  | nil => simp
  | cons x row ih =>
    have hx := hrow 0 (Nat.zero_lt_succ _)
    have htail : ∀ q (hq : q < row.length), patches.data.getD (b + 1 + q) 0 = row[q] := by
      intro q hq
      have hnext := hrow (q + 1) (Nat.succ_lt_succ hq)
      rw [Nat.add_assoc, Nat.add_comm 1]
      exact hnext
    rw [Nat.add_zero, List.getElem_cons_zero] at hx
    have hstep : collectEntry patches p (pairsOf front (room + row.length + 1)) b =
        .ok (pairsOf (front ++ [(x, p)]) (room + row.length)) := by
      rw [collectEntry_eq, hx]
    rw [List.length_cons, List.range'_succ, List.foldlM_cons, ← Nat.add_assoc, hstep, ok_bind,
      ih (b + 1) htail]
    simp

/-- A row that lies in the data as its offsets say. -/
theorem collectRow_eq (hsize : (patches.patch p).length = patches.patchSize p)
    (front : List (ElementId × PatchId)) (room : ℕ) :
    collectRow patches (pairsOf front (room + (patches.patch p).length)) p =
      .ok (pairsOf (front ++ (patches.patch p).map fun e => (e, p)) room) := by
  have hrow : ∀ q (hq : q < (patches.patch p).length),
      patches.data.getD (patches.offsets.getD p 0 + q) 0 = (patches.patch p)[q] := by
    intro q hq
    have hget := List.getElem?_eq_getElem hq
    simp only [PatchCsr.patch] at hget ⊢
    rw [List.getElem?_take_of_lt (by omega), List.getElem?_drop] at hget
    rw [List.getD_eq_getElem?_getD, hget, Option.getD_some]
  have hrun := foldlM_collectEntry (p := p) (patches.offsets.getD p 0) (patches.patch p) hrow
    front room
  unfold collectRow
  simp only
  rw [show patches.offsets.getD (p + 1) 0 - patches.offsets.getD p 0 =
    (patches.patch p).length from hsize.symm]
  exact hrun

theorem foldlM_collectRow (ps : List PatchId)
    (hsize : ∀ p ∈ ps, (patches.patch p).length = patches.patchSize p)
    (front : List (ElementId × PatchId)) (room : ℕ) :
    ps.foldlM (collectRow patches)
        (pairsOf front
          (room + (ps.flatMap fun p => (patches.patch p).map fun e => (e, p)).length)) =
      .ok (pairsOf (front ++ ps.flatMap fun p => (patches.patch p).map fun e => (e, p)) room) := by
  induction ps generalizing front with
  | nil => simp
  | cons p ps ih =>
    have hhead := hsize p (List.mem_cons_self ..)
    have htail : ∀ q ∈ ps, (patches.patch q).length = patches.patchSize q :=
      fun q hq => hsize q (List.mem_cons_of_mem _ hq)
    have hrow := collectRow_eq hhead front
      (room + (ps.flatMap fun p => (patches.patch p).map fun e => (e, p)).length)
    rw [List.foldlM_cons, List.flatMap_cons, List.length_append, List.length_map,
      Nat.add_comm (patches.patch p).length, ← Nat.add_assoc, hrow, ok_bind, ih htail,
      List.append_assoc]

/-- The collected arrays are the incidences. -/
theorem collect_eq (hsize : ∀ p < patches.M, (patches.patch p).length = patches.patchSize p)
    (htotal : (incidences patches).length = patches.data.length) :
    collect patches = .ok (pairsOf (incidences patches) 0) := by
  have hrun := foldlM_collectRow (List.range patches.M)
    (fun p hp => hsize p (List.mem_range.mp hp)) [] 0
  rw [Nat.zero_add, List.nil_append] at hrun
  refine Eq.trans ?_ hrun
  unfold collect
  rw [← htotal]
  rfl

end Collect

section Order

variable (inc : List (ElementId × PatchId))

/-- Read in the order of the indirect sort, the arrays are the sorted incidences. -/
theorem map_sortOrder :
    (sortOrder (inc.map Prod.fst) (inc.map Prod.snd) inc.length).map
        (fun i => ((inc.map Prod.fst).getD i 0, (inc.map Prod.snd).getD i 0)) =
      inc.insertionSort pairLe := by
  have hpairs : (List.range inc.length).map
      (fun i => ((inc.map Prod.fst).getD i 0, (inc.map Prod.snd).getD i 0)) = inc := by
    conv_rhs => rw [← map_getD_range inc (0, 0)]
    apply List.map_congr_left
    intro i hi
    have hlt := List.mem_range.mp hi
    rw [List.getD_eq_getElem _ _ (by simpa using hlt),
      List.getD_eq_getElem _ _ (by simpa using hlt), List.getD_eq_getElem _ _ hlt,
      List.getElem_map, List.getElem_map]
  have hsort := List.map_insertionSort (orderLe (inc.map Prod.fst) (inc.map Prod.snd)) pairLe
    (fun i => ((inc.map Prod.fst).getD i 0, (inc.map Prod.snd).getD i 0))
    (List.range inc.length) fun _ _ _ _ => Iff.rfl
  rw [hpairs] at hsort
  exact hsort

theorem getD_of_map_eq {α : Type} {order : List ℕ} {f : ℕ → α} {l : List α}
    (h : order.map f = l) (q : ℕ) (hq : q < l.length) : f (order.getD q 0) = l[q] := by
  subst h
  rw [List.length_map] at hq
  rw [List.getElem_map, List.getD_eq_getElem _ _ hq]

theorem reads_sortOrder :
    Reads
      (fun j => (inc.map Prod.fst).getD
        ((sortOrder (inc.map Prod.fst) (inc.map Prod.snd) inc.length).getD j 0) 0)
      (fun j => (inc.map Prod.snd).getD
        ((sortOrder (inc.map Prod.fst) (inc.map Prod.snd) inc.length).getD j 0) 0)
      0 (inc.insertionSort pairLe) := by
  intro q hq
  have hpair := getD_of_map_eq (map_sortOrder inc) q hq
  rw [Nat.zero_add]
  exact Prod.ext_iff.mp hpair

end Order

section Build

variable {patches : PatchCsr}

/-- The offsets are the starts of the runs and the end of the last one. -/
theorem scanl_eq_starts (first : ℕ) (runs : List (ElementId × List PatchId)) :
    (runs.map fun run => run.2.length).scanl (· + ·) first =
      starts first runs ++ [first + (runs.flatMap Prod.snd).length] := by
  induction runs generalizing first with
  | nil => simp [starts]
  | cons run runs ih =>
    rw [List.map_cons, List.scanl_cons, ih, starts_cons, List.flatMap_cons, List.length_append,
      Nat.add_assoc]
    rfl

theorem length_starts (first : ℕ) (runs : List (ElementId × List PatchId)) :
    (starts first runs).length = runs.length := by
  simp [starts]

/-- The passes succeed on rows that lie in the data as the offsets say, and build the transpose. -/
theorem buildInvertedIndex_eq
    (hsize : ∀ p < patches.M, (patches.patch p).length = patches.patchSize p)
    (htotal : (incidences patches).length = patches.data.length) :
    buildInvertedIndex patches = .ok (Transpose.buildInvertedIndex patches) := by
  unfold buildInvertedIndex Transpose.buildInvertedIndex
  by_cases hempty : patches.data.length = 0
  · simp only [if_pos hempty]
  · simp only [if_neg hempty, collect_eq hsize htotal, ok_bind, pairsOf, List.replicate_zero,
      List.append_nil]
    rw [← htotal]
    have hreads := reads_sortOrder (incidences patches)
    have hsorted : ((incidences patches).insertionSort pairLe).length =
        (incidences patches).length := List.length_insertionSort ..
    have hcount := countKeys_loop (n := 0) hreads (by rw [hsorted, Nat.zero_add])
      (Nat.lt_succ_self _)
    have hfill := fill_loop hreads (by rw [hsorted, Nat.zero_add]) (Nat.lt_succ_self _) []
      (List.replicate (runsByKey ((incidences patches).insertionSort pairLe)).length 0) []
      (List.replicate ((runsByKey ((incidences patches).insertionSort pairLe)).length + 1) 0) []
      (List.replicate (incidences patches).length 0) List.length_replicate rfl
      (by rw [List.length_replicate]; exact Nat.le_succ _) (by rw [List.length_replicate, hsorted])
    rw [hsorted] at hcount hfill
    simp only [Nat.zero_add, List.nil_append, List.length_nil, List.drop_replicate,
      Nat.add_sub_cancel_left, List.replicate_one] at hcount hfill
    have hlast := store_append (starts 0 (runsByKey ((incidences patches).insertionSort pairLe)))
      [] 0 (incidences patches).length
    rw [length_starts] at hlast
    have hoffsets := scanl_eq_starts 0 (runsByKey ((incidences patches).insertionSort pairLe))
    rw [length_flatMap_runsByKey, hsorted, Nat.zero_add] at hoffsets
    unfold countKeys fill assertThat
    rw [if_pos rfl, ok_bind, hcount, ok_bind, hfill, ok_bind, hlast, ok_bind, if_pos rfl, ok_bind,
      if_pos rfl, ok_bind, hoffsets]
    rfl

/-- The lookup of `score_update_invidx_kernel`, where a block handles one element. -/
def scoreUpdateInvidxKernel (inv : InvertedIndex) (id : ElementId) : List PatchId :=
  affectedPatches inv id

/-- The lookup of `elem_score_update_kernel`, where the blocks stride over the elements. -/
def elemScoreUpdateKernel (inv : InvertedIndex) (id : ElementId) : List PatchId :=
  affectedPatches inv id

/-- An index into data whose parts are all nonempty and fill it up. -/
structure Partitions (offsets : List ℕ) (parts size : ℕ) : Prop where
  length_eq : offsets.length = parts + 1
  first : offsets.head? = some 0
  ascending : offsets.Pairwise (· < ·)
  last : offsets.getLast? = some size

theorem pairwise_starts (runs : List (ElementId × List PatchId)) (hruns : ∀ run ∈ runs, run.2 ≠ [])
    (first : ℕ) :
    (starts first runs ++ [first + (runs.flatMap Prod.snd).length]).Pairwise (· < ·) ∧
      ∀ x ∈ starts first runs ++ [first + (runs.flatMap Prod.snd).length], first ≤ x := by
  induction runs generalizing first with
  | nil => simp [starts]
  | cons run runs ih =>
    obtain ⟨hsorted, hle⟩ := ih (fun r hr => hruns r (List.mem_cons_of_mem _ hr))
      (first + run.2.length)
    have hpos := List.length_pos_iff.mpr (hruns run (List.mem_cons_self ..))
    rw [starts_cons, List.flatMap_cons, List.length_append, List.cons_append, ← Nat.add_assoc]
    constructor
    · refine List.pairwise_cons.mpr ⟨fun x hx => ?_, hsorted⟩
      have hx' := hle x hx
      omega
    · intro x hx
      rcases List.mem_cons.mp hx with rfl | hx
      · exact Nat.le_refl _
      · exact le_trans (Nat.le_add_right ..) (hle x hx)

theorem partitions_buildInvertedIndex (htotal : (incidences patches).length = patches.data.length) :
    Partitions (Transpose.buildInvertedIndex patches).offsets
        (Transpose.buildInvertedIndex patches).keys.length patches.data.length ∧
      (Transpose.buildInvertedIndex patches).data.length = patches.data.length := by
  unfold Transpose.buildInvertedIndex
  by_cases hempty : patches.data.length = 0
  · simp only [hempty]
    exact ⟨⟨rfl, rfl, List.pairwise_singleton _ _, rfl⟩, rfl⟩
  · simp only [if_neg hempty]
    have hsorted : ((incidences patches).insertionSort pairLe).length = patches.data.length :=
      (List.length_insertionSort ..).trans htotal
    have hdata := length_flatMap_runsByKey ((incidences patches).insertionSort pairLe)
    rw [hsorted] at hdata
    have hoffsets := scanl_eq_starts 0 (runsByKey ((incidences patches).insertionSort pairLe))
    obtain ⟨hascending, -⟩ := pairwise_starts _
      (fun run => ne_nil_of_mem_runsByKey ((incidences patches).insertionSort pairLe)) 0
    rw [hdata, Nat.zero_add] at hoffsets hascending
    refine ⟨⟨?_, ?_, ?_, ?_⟩, hdata⟩
    · simp
    · rw [List.head?_scanl]
    · rw [hoffsets]
      exact hascending
    · rw [hoffsets, List.getLast?_append, List.getLast?_singleton]
      rfl

/-- The patches whose row contains an element. -/
def containing (rows : List (List ElementId)) (e : ElementId) : List PatchId :=
  (List.range rows.length).filter fun p => e ∈ rows.getD p []

theorem length_incidences (rows : List (List ElementId)) :
    (incidences (buildPatchCsr rows)).length = (buildPatchCsr rows).data.length := by
  have hflat : (List.range rows.length).map (fun p => rows.getD p []) = rows :=
    map_getD_range rows []
  have hfst := congrArg List.length (congrArg List.flatten hflat)
  rw [data_buildPatchCsr, ← hfst, incidences, M_buildPatchCsr, ← List.flatMap_def,
    List.length_flatMap, List.length_flatMap]
  simp only [List.length_map, patch_eq_getD]

theorem nodup_patch_buildPatchCsr {rows : List (List ElementId)}
    (hrows : ∀ row ∈ rows, row.Pairwise (· < ·)) (p : PatchId) :
    ((buildPatchCsr rows).patch p).Nodup := by
  rw [patch_eq_getD]
  by_cases hp : p < rows.length
  · rw [List.getD_eq_getElem _ _ hp]
    exact (hrows _ (List.getElem_mem hp)).imp fun hlt => ne_of_lt hlt
  · rw [List.getD_eq_default _ _ (not_lt.mp hp)]
    exact List.nodup_nil

/-- The keys are the elements that occur. -/
theorem mem_keys_iff_exists_row {rows : List (List ElementId)}
    (hnodup : ∀ p, ((buildPatchCsr rows).patch p).Nodup) (e : ElementId) :
    e ∈ (Transpose.buildInvertedIndex (buildPatchCsr rows)).keys ↔ ∃ row ∈ rows, e ∈ row := by
  rw [Transpose.mem_keys_buildInvertedIndex hnodup, M_buildPatchCsr]
  simp only [patch_eq_getD]
  constructor
  · rintro ⟨p, hp, he⟩
    rw [List.getD_eq_getElem _ _ hp] at he
    exact ⟨_, List.getElem_mem hp, he⟩
  · rintro ⟨row, hrow, he⟩
    obtain ⟨p, hp, rfl⟩ := List.mem_iff_getElem.mp hrow
    exact ⟨p, hp, by rwa [List.getD_eq_getElem _ _ hp]⟩

/-- Over ascending rows the index built by the passes is the transpose of the CSR, and the three
lookups find every element's patches in it, none for an element that does not occur. -/
theorem inverted_index_exact (rows : List (List ElementId))
    (hrows : ∀ row ∈ rows, row.Pairwise (· < ·)) :
    ∃ inv, buildInvertedIndex (buildPatchCsr rows) = .ok inv ∧
      inv.keys.Pairwise (· < ·) ∧ (∀ e, e ∈ inv.keys ↔ ∃ row ∈ rows, e ∈ row) ∧
      Partitions inv.offsets inv.keys.length inv.data.length ∧
      inv.data.length = (buildPatchCsr rows).data.length ∧
      ∀ e, (containing rows e).Pairwise (· < ·) ∧ patchesOf inv e = containing rows e ∧
        scoreUpdateInvidxKernel inv e = containing rows e ∧
        elemScoreUpdateKernel inv e = containing rows e := by
  have hsize : ∀ p < (buildPatchCsr rows).M,
      ((buildPatchCsr rows).patch p).length = (buildPatchCsr rows).patchSize p := by
    intro p hp
    rw [M_buildPatchCsr] at hp
    rw [patch_buildPatchCsr rows p hp, patchSize_buildPatchCsr rows p hp]
  have htotal := length_incidences rows
  have hnodup := nodup_patch_buildPatchCsr hrows
  have hcontaining : ∀ e, Transpose.owners (buildPatchCsr rows) e = containing rows e := by
    intro e
    simp only [owners, containing, M_buildPatchCsr, patch_eq_getD]
  obtain ⟨hpartitions, hdata⟩ := partitions_buildInvertedIndex htotal
  rw [← hdata] at hpartitions
  refine ⟨_, buildInvertedIndex_eq hsize htotal, ?_, ?_, hpartitions, hdata, fun e => ?_⟩
  · rw [Transpose.keys_buildInvertedIndex hnodup]
    exact sortUnique_pairwise _
  · exact mem_keys_iff_exists_row hnodup
  · have haffected := Transpose.affectedPatches_buildInvertedIndex hnodup e
    rw [hcontaining] at haffected
    refine ⟨List.pairwise_lt_range.filter _, ?_, haffected, haffected⟩
    rw [Transpose.patchesOf_buildInvertedIndex hnodup, hcontaining]

/-- Three patches, one of them empty. -/
theorem inverted_index_exact_three :
    ∃ inv, buildInvertedIndex (buildPatchCsr [[2, 5], [], [5, 9]]) = .ok inv ∧
      patchesOf inv 5 = [0, 2] ∧ elemScoreUpdateKernel inv 7 = [] := by
  obtain ⟨inv, hbuild, -, -, -, -, hlookup⟩ :=
    inverted_index_exact [[2, 5], [], [5, 9]] (by decide)
  exact ⟨inv, hbuild, (hlookup 5).2.1, (hlookup 7).2.2.2⟩

end Build

end PatternSearch.IndexPasses
