import Mathlib.Algebra.GroupWithZero.Nat
import Mathlib.Algebra.Order.BigOperators.Group.List
import Mathlib.Data.List.GetD
import Mathlib.Order.Fin.Basic

/-!
The types of the public API and the compressed sparse row layout of a list of patches. Hashes
are 64-bit values, which the algorithms compare and move but never compute with; ids, slots
and counters are natural numbers. Building it and reading a row back
are written separately in the source; `patch_buildPatchCsr` says they agree.
-/

namespace PatternSearch.Csr

abbrev Hash := Fin (2 ^ 64)

scoped instance instNeZeroHashCount : NeZero (2 ^ 64) := ⟨(Nat.two_pow_pos 64).ne'⟩

instance instLawfulBEqHash : LawfulBEq Hash := inferInstance

abbrev ElementId := ℕ
abbrev PatchId := ℕ

/-- The score of a patch that has been selected. -/
def kDisabledScore : ℤ := -1

structure PatchSelection where
  selected : List PatchId
  coveredCount : ℕ
  iterations : ℕ
  deriving DecidableEq, Repr

structure PatchCsr where
  data : List ElementId
  offsets : List ℕ
  deriving DecidableEq, Repr

namespace PatchCsr

def M (csr : PatchCsr) : ℕ := csr.offsets.length - 1

def patchSize (csr : PatchCsr) (p : PatchId) : ℕ :=
  csr.offsets.getD (p + 1) 0 - csr.offsets.getD p 0

def patch (csr : PatchCsr) (p : PatchId) : List ElementId :=
  (csr.data.drop (csr.offsets.getD p 0)).take (csr.patchSize p)

end PatchCsr

/-- `data[off + i] = src[i]` for every i. -/
def copyInto (data : List ElementId) (off : ℕ) : List ElementId → List ElementId
  | [] => data
  | x :: src => copyInto (data.set off x) (off + 1) src

def buildPatchCsr (sortedIdLists : List (List ElementId)) : PatchCsr :=
  let sizes := sortedIdLists.map List.length
  let offsets := sizes.scanl (· + ·) 0
  let data := (sortedIdLists.zip offsets).foldl (fun data x => copyInto data x.2 x.1)
    (List.replicate sizes.sum 0)
  { data, offsets }

/-- Reading every position of a list gives the list. -/
theorem map_getD_range {α : Type} (l : List α) (d : α) :
    (List.range l.length).map (fun i => l.getD i d) = l := by
  apply List.ext_getElem
  · simp
  · intro i hi _
    rw [List.getElem_map, List.getElem_range, List.getD_eq_getElem]

theorem copyInto_append (front back : List ElementId) (src : List ElementId)
    (h : src.length ≤ back.length) :
    copyInto (front ++ back) front.length src = front ++ src ++ back.drop src.length := by
  induction src generalizing front back with
  | nil => simp [copyInto]
  | cons x src ih =>
    cases back with
    | nil => simp at h
    | cons y back =>
      have hlen : src.length ≤ back.length := by simpa using h
      have hset : (front ++ y :: back).set front.length x = (front ++ [x]) ++ back := by
        rw [List.set_append_right _ _ (le_refl _), Nat.sub_self, List.set_cons_zero]
        simp
      have hstep := ih (front ++ [x]) back hlen
      rw [List.length_append, List.length_singleton] at hstep
      rw [copyInto, hset, hstep]
      simp

private theorem foldl_copyInto (rows : List (List ElementId)) (front : List ElementId) :
    (rows.zip ((rows.map List.length).scanl (· + ·) front.length)).foldl
        (fun data x => copyInto data x.2 x.1)
        (front ++ List.replicate (rows.map List.length).sum 0) =
      front ++ rows.flatten := by
  induction rows generalizing front with
  | nil => simp
  | cons row rows ih =>
    have hstep := ih (front ++ row)
    rw [List.length_append] at hstep
    rw [List.map_cons, List.scanl_cons, List.zip_cons_cons, List.foldl_cons,
      copyInto_append _ _ _ (by simp)]
    rw [List.drop_replicate, List.sum_cons, Nat.add_sub_cancel_left, hstep]
    simp

theorem getD_scanl_length {α : Type} (rows : List (List α)) (a p : ℕ) (hp : p ≤ rows.length) :
    ((rows.map List.length).scanl (· + ·) a).getD p 0 = a + (rows.take p).flatten.length := by
  induction rows generalizing a p with
  | nil =>
    obtain rfl : p = 0 := by simpa using hp
    simp
  | cons row rows ih =>
    rw [List.map_cons, List.scanl_cons]
    cases p with
    | zero => simp
    | succ p =>
      have htail := ih (a + row.length) p (by simpa using hp)
      rw [List.getD_cons_succ, htail]
      simp [Nat.add_assoc]

theorem PatchCsr.patch_eq_nil (csr : PatchCsr) {p : ℕ} (hp : csr.M ≤ p) : csr.patch p = [] := by
  have hoff : csr.offsets.getD (p + 1) 0 = 0 := by
    apply List.getD_eq_default
    unfold PatchCsr.M at hp
    omega
  rw [PatchCsr.patch, PatchCsr.patchSize, hoff, Nat.zero_sub, List.take_zero]

variable (rows : List (List ElementId))

theorem data_buildPatchCsr : (buildPatchCsr rows).data = rows.flatten := by
  unfold buildPatchCsr
  simpa using foldl_copyInto rows []

theorem M_buildPatchCsr : (buildPatchCsr rows).M = rows.length := by
  simp [PatchCsr.M, buildPatchCsr]

theorem offsets_buildPatchCsr (p : ℕ) (hp : p ≤ rows.length) :
    (buildPatchCsr rows).offsets.getD p 0 = (rows.take p).flatten.length := by
  rw [← Nat.zero_add (rows.take p).flatten.length]
  exact getD_scanl_length rows 0 p hp

theorem flatten_take_succ {α : Type} (l : List (List α)) {p : ℕ} (hp : p < l.length) :
    (l.take (p + 1)).flatten = (l.take p).flatten ++ l[p] := by
  rw [List.take_succ_eq_append_getElem hp, List.flatten_append]
  simp

theorem patchSize_buildPatchCsr (p : ℕ) (hp : p < rows.length) :
    (buildPatchCsr rows).patchSize p = rows[p].length := by
  rw [PatchCsr.patchSize, offsets_buildPatchCsr rows (p + 1) hp,
    offsets_buildPatchCsr rows p hp.le, flatten_take_succ rows hp, List.length_append]
  omega

/-- Reading row p of the layout gives the list it was built from. -/
theorem patch_buildPatchCsr (p : ℕ) (hp : p < rows.length) :
    (buildPatchCsr rows).patch p = rows[p] := by
  have hsplit : rows.flatten =
      (rows.take p).flatten ++ (rows[p] ++ (rows.drop (p + 1)).flatten) := by
    conv_lhs => rw [← List.take_append_drop (p + 1) rows]
    rw [List.flatten_append, flatten_take_succ rows hp, List.append_assoc]
  rw [PatchCsr.patch, patchSize_buildPatchCsr rows p hp, offsets_buildPatchCsr rows p hp.le,
    data_buildPatchCsr, hsplit, List.drop_left, List.take_left]

theorem patch_eq_getD (p : ℕ) : (buildPatchCsr rows).patch p = rows.getD p [] := by
  by_cases hp : p < rows.length
  · rw [patch_buildPatchCsr rows p hp, List.getD_eq_getElem _ _ hp]
  · have hM : (buildPatchCsr rows).M ≤ p := by
      rw [M_buildPatchCsr]
      exact not_lt.mp hp
    rw [PatchCsr.patch_eq_nil _ hM, List.getD_eq_default _ _ (not_lt.mp hp)]

/-- Any CSR reads like the layout of its own rows. -/
theorem patch_buildPatchCsr_rows (csr : PatchCsr) :
    (buildPatchCsr ((List.range csr.M).map csr.patch)).patch = csr.patch := by
  funext p
  rw [patch_eq_getD]
  by_cases hp : p < csr.M
  · rw [List.getD_eq_getElem _ _ (by simpa using hp), List.getElem_map, List.getElem_range]
  · rw [List.getD_eq_default _ _ (by simpa using hp), csr.patch_eq_nil (not_lt.mp hp)]

end PatternSearch.Csr
