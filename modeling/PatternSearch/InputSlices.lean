import PatternSearch.PatchFileCorrupt

/-!
The share of the patches that a rank works on. The split rule stands in the source four
times: in both overloads of `slice_patches_by_rank` and in the `read_input_slice` of both
drivers. All of them give the same slice, and the slices of all ranks are the whole input.
-/

namespace PatternSearch.InputSlices

open Csr Machine Bytes FileStream PatternStats PatchFile PatchFileRead PatchFileWrite
  PatchFileCorrupt

section Model

/-- `v[i]` of a vector. -/
def elementAt {α : Type} (v : List α) (i : ℕ) : Except Fault α :=
  match v[i]? with
  | some a => .ok a
  | none => .error .outOfBounds

def slicePatchesByRank (allPatches : List (List Hash)) (rank size : ℕ) :
    Except Fault PatchSlice := do
  let M := allPatches.length
  let myBegin := wrap64 (M * rank) / size
  let myEnd := wrap64 (M * (rank + 1)) / size
  -- A difference that wraps is past what any vector can hold, and `reserve` throws.
  if myEnd < myBegin then throw (.throws .lengthError)
  let ids := List.range' myBegin (myEnd - myBegin)
  let patches ← ids.mapM (elementAt allPatches)
  return { patches, globalIds := ids, coords := [] }

/-- The overload with coordinates finds the begin of the slice once more. -/
def slicePatchesByRankCoords (allPatches : List (List Hash))
    (coords : List (List (Point Double))) (rank size : ℕ) : Except Fault PatchSlice := do
  if coords.length ≠ allPatches.length then throw .contract
  let myBegin := wrap64 (allPatches.length * rank) / size
  let slice ← slicePatchesByRank allPatches rank size
  let coords ← (List.range slice.patches.length).mapM fun p => elementAt coords (myBegin + p)
  return { slice with coords }

namespace Usc

def readInputSlice (path : String) (rank size : ℕ) : FileM PatchSlice := do
  let reader ← openPatchFile path
  let M := reader.patchCount
  let first := wrap64 (M * rank) / size
  let last := wrap64 (M * (rank + 1)) / size
  readSlice reader first last

end Usc

namespace Ups

/-- Without a slice the driver has printed its message and exits with status 1. -/
def readInputSlice (path : String) (rank size : ℕ) (needCoords : Bool) :
    FileM (Option PatchSlice) := do
  let reader ← openPatchFile path
  if needCoords ∧ ¬ reader.hasCoords then return none
  let M := reader.patchCount
  let first := wrap64 (M * rank) / size
  let last := wrap64 (M * (rank + 1)) / size
  return some (← readSlice reader first last)

end Ups

end Model

section SplitRule

/-- The first patch of a rank. -/
def rankBegin (M size rank : ℕ) : ℕ := M * rank / size

theorem rankBegin_mono (M size : ℕ) {r r' : ℕ} (h : r ≤ r') :
    rankBegin M size r ≤ rankBegin M size r' :=
  Nat.div_le_div_right (Nat.mul_le_mul_left M h)

theorem rankBegin_size (M : ℕ) {size : ℕ} (hpos : 0 < size) : rankBegin M size size = M :=
  Nat.mul_div_cancel M hpos

theorem rankBegin_succ_le {M size r : ℕ} (hpos : 0 < size) (hr : r < size) :
    rankBegin M size (r + 1) ≤ M :=
  (rankBegin_mono M size hr).trans_eq (rankBegin_size M hpos)

/-- Every share has the average length, rounded down or up. -/
theorem rankBegin_succ_bounds (M : ℕ) {size : ℕ} (hpos : 0 < size) (r : ℕ) :
    rankBegin M size r + M / size ≤ rankBegin M size (r + 1) ∧
      rankBegin M size (r + 1) ≤ rankBegin M size r + M / size + 1 := by
  have hadd : rankBegin M size (r + 1) = (M * r + M) / size := rfl
  rw [hadd, Nat.add_div hpos, rankBegin]
  split_ifs <;> omega

theorem divides_ranks (M size : ℕ) : ∀ n first, Divides (rankBegin M size first)
    (rankBegin M size (first + n))
    ((List.range' first n).map fun r => (rankBegin M size r, rankBegin M size (r + 1)))
  | 0, _ => rfl
  | n + 1, first => by
    have hnext := divides_ranks M size n (first + 1)
    rw [show first + 1 + n = first + (n + 1) by omega] at hnext
    exact ⟨rfl, rankBegin_mono M size (Nat.le_succ first), hnext⟩

/-- The slice of a rank. -/
def rankSlice (patches : List (List Hash)) (coords : Option (List (List (Point Double))))
    (size rank : ℕ) : PatchSlice :=
  let first := rankBegin patches.length size rank
  let last := rankBegin patches.length size (rank + 1)
  { patches := window patches first last
    globalIds := List.range' first (last - first)
    coords := window (coords.getD []) first last }

end SplitRule

section Agreement

variable {path : String} {patches : List (List Hash)}
  {coords : Option (List (List (Point Double)))} {size rank : ℕ}

theorem elementAt_eq_ok {α : Type} (v : List α) (d : α) {i : ℕ} (hi : i < v.length) :
    elementAt v i = .ok (v.getD i d) := by
  rw [elementAt, List.getElem?_eq_getElem hi, List.getD_eq_getElem _ _ hi]

/-- Without overflow the split rule is plain division. -/
theorem wrap64_split {M r : ℕ} (hfit : M * size < 2 ^ 64) (hr : r ≤ size) :
    wrap64 (M * r) / size = rankBegin M size r := by
  have hle := Nat.mul_le_mul_left M hr
  rw [wrap64_eq_self (by omega), rankBegin]

variable (hpos : 0 < size) (hfit : patches.length * size < 2 ^ 64) (hrank : rank < size)
include hpos hfit hrank

theorem slicePatchesByRank_eq_ok (coords : Option (List (List (Point Double)))) :
    slicePatchesByRank patches rank size =
    .ok { rankSlice patches coords size rank with coords := [] } := by
  have hmono := rankBegin_mono patches.length size (Nat.le_add_right rank 1)
  have hlast := rankBegin_succ_le (M := patches.length) hpos hrank
  have hbegin := wrap64_split hfit hrank.le
  have hend := wrap64_split (r := rank + 1) hfit hrank
  rw [slicePatchesByRank, hbegin, hend, if_neg (Nat.not_lt.mpr hmono)]
  dsimp only
  rw [mapM_eq_ok (g := fun p => patches.getD p []), ok_bind]
  · rw [pure_eq_ok, rankSlice, window_eq_map patches [] hlast, List.range'_eq_map_range,
      List.map_map]
    rfl
  · intro p hp
    rw [List.mem_range'_1] at hp
    exact elementAt_eq_ok patches [] (by omega)

theorem slicePatchesByRankCoords_eq_ok {cs : List (List (Point Double))}
    (hcs : coords = some cs) (hsame : SameShape patches cs) :
    slicePatchesByRankCoords patches cs rank size = .ok (rankSlice patches coords size rank) := by
  have hmono := rankBegin_mono patches.length size (Nat.le_add_right rank 1)
  have hlast := rankBegin_succ_le (M := patches.length) hpos hrank
  have hlen : cs.length = patches.length := by simpa using congrArg List.length hsame
  have hcount : (rankSlice patches coords size rank).patches.length =
      rankBegin patches.length size (rank + 1) - rankBegin patches.length size rank :=
    length_window patches hlast
  rw [slicePatchesByRankCoords, if_neg (by simpa using hlen),
    wrap64_split hfit hrank.le, slicePatchesByRank_eq_ok hpos hfit hrank coords,
    ok_bind, mapM_eq_ok (g := fun p => cs.getD (rankBegin patches.length size rank + p) []),
    ok_bind]
  · rw [hcount, pure_eq_ok, ← window_eq_map cs [] (by omega), rankSlice, hcs]
    rfl
  · intro p hp
    rw [List.mem_range, hcount] at hp
    exact elementAt_eq_ok cs [] (by omega)

variable (hshape : ∀ cs, coords = some cs → SameShape patches cs)
  (hsmall : (layout patches coords).length < 2 ^ 63)
include hshape hsmall

omit hfit in
/-- The slice of the file that the split rule asks for. -/
theorem safely_readRankSlice :
    Safely (layout patches coords) (readSlice (layoutReader path patches coords)
        (rankBegin patches.length size rank) (rankBegin patches.length size (rank + 1)))
      (.ok (rankSlice patches coords size rank)) :=
  safely_readSlice_layout hshape hsmall
    (rankBegin_mono patches.length size (Nat.le_add_right rank 1)) (rankBegin_succ_le hpos hrank)

theorem safely_uscReadInputSlice :
    Safely (layout patches coords) (Usc.readInputSlice path rank size)
      (.ok (rankSlice patches coords size rank)) := by
  have hopen := (accepted_layout hshape hsmall path).safely_open hsmall
  have hbegin := wrap64_split hfit hrank.le
  have hend := wrap64_split (r := rank + 1) hfit hrank
  have hcount : (layoutReader path patches coords).patchCount = patches.length := rfl
  rw [Usc.readInputSlice]
  apply Safely.bind hopen
  dsimp only
  rw [hcount, hbegin, hend]
  exact safely_readRankSlice hpos hrank hshape hsmall

/-- With a file of the first version a driver that needs coordinates gives up. -/
theorem safely_upsReadInputSlice (needCoords : Bool) :
    Safely (layout patches coords) (Ups.readInputSlice path rank size needCoords)
      (.ok (if needCoords ∧ coords = none then none
        else some (rankSlice patches coords size rank))) := by
  have hopen := (accepted_layout hshape hsmall path).safely_open hsmall
  have hbegin := wrap64_split hfit hrank.le
  have hend := wrap64_split (r := rank + 1) hfit hrank
  have hcount : (layoutReader path patches coords).patchCount = patches.length := rfl
  have hhas : ¬ (layoutReader path patches coords).hasCoords ↔ coords = none := by
    rw [layoutReader, Option.not_isSome_iff_eq_none]
  rw [Ups.readInputSlice]
  apply Safely.bind hopen
  simp only [hhas]
  by_cases hmissing : needCoords ∧ coords = none
  · rw [if_pos hmissing, if_pos hmissing]
    exact Safely.pure none
  · rw [if_neg hmissing, if_neg hmissing, hcount, hbegin, hend]
    apply Safely.bind (safely_readRankSlice hpos hrank hshape hsmall)
    exact Safely.pure _

end Agreement

section Partition

variable {patches : List (List Hash)} {coords : Option (List (List (Point Double)))} {size : ℕ}

theorem window_eq_map_range' {α : Type} (l : List α) (d : α) {first last : ℕ}
    (h : last ≤ l.length) : window l first last =
      (List.range' first (last - first)).map fun p => l.getD p d := by
  rw [window_eq_map l d h, List.range'_eq_map_range, List.map_map]
  rfl

/-- What the ranks take one after another is everything. -/
theorem flatMap_ranks {α : Type} (M : ℕ) (hpos : 0 < size) (f : ℕ → α) :
    ((List.range size).flatMap fun r => (List.range' (rankBegin M size r)
      (rankBegin M size (r + 1) - rankBegin M size r)).map f) = (List.range M).map f := by
  have hdiv := divides_ranks M size size 0
  have hzero : rankBegin M size 0 = 0 := by simp [rankBegin]
  rw [Nat.zero_add, hzero, rankBegin_size M hpos, ← List.range_eq_range'] at hdiv
  have hall := hdiv.flatMap_range' f
  rw [List.flatMap_map, Nat.sub_zero, ← List.range_eq_range'] at hall
  exact hall

theorem flatMap_windows {α : Type} (l : List (List α)) (hpos : 0 < size) :
    ((List.range size).flatMap fun r =>
      window l (rankBegin l.length size r) (rankBegin l.length size (r + 1))) = l := by
  have hwindow : ∀ r ∈ List.range size,
      window l (rankBegin l.length size r) (rankBegin l.length size (r + 1)) =
        (List.range' (rankBegin l.length size r) (rankBegin l.length size (r + 1) -
          rankBegin l.length size r)).map fun p => l.getD p [] := fun r hr =>
    window_eq_map_range' l [] (rankBegin_succ_le hpos (List.mem_range.mp hr))
  rw [List.flatMap_congr hwindow, flatMap_ranks l.length hpos]
  apply List.ext_getElem (by simp)
  intro p hp hp'
  rw [List.getElem_map, List.getElem_range, List.getD_eq_getElem _ _ hp']

theorem flatMap_rankSlice_patches (hpos : 0 < size) :
    ((List.range size).flatMap fun r => (rankSlice patches coords size r).patches) = patches :=
  flatMap_windows patches hpos

theorem flatMap_rankSlice_globalIds (hpos : 0 < size) :
    ((List.range size).flatMap fun r => (rankSlice patches coords size r).globalIds) =
      List.range patches.length := by
  have hall := flatMap_ranks patches.length hpos id
  simp only [List.map_id] at hall
  exact hall

theorem flatMap_rankSlice_coords (hpos : 0 < size)
    (hshape : ∀ cs, coords = some cs → SameShape patches cs) :
    ((List.range size).flatMap fun r => (rankSlice patches coords size r).coords) =
      coords.getD [] := by
  cases coords with
  | none => simp [rankSlice, window]
  | some cs =>
    have hlen : cs.length = patches.length := by
      simpa using congrArg List.length (hshape cs rfl)
    have hall := flatMap_windows cs hpos
    rw [hlen] at hall
    exact hall

/-- The hashes and the coordinates of an entry are those of the patch with its global id. -/
theorem rankSlice_attached {rank p : ℕ}
    (hp : p < (rankSlice patches coords size rank).globalIds.length) :
    (rankSlice patches coords size rank).patches.getD p [] =
        patches.getD ((rankSlice patches coords size rank).globalIds.getD p 0) [] ∧
      (rankSlice patches coords size rank).coords.getD p [] =
        (coords.getD []).getD ((rankSlice patches coords size rank).globalIds.getD p 0) [] := by
  have hcount : p < rankBegin patches.length size (rank + 1) -
      rankBegin patches.length size rank := by simpa [rankSlice] using hp
  have hid : (rankSlice patches coords size rank).globalIds.getD p 0 =
      rankBegin patches.length size rank + p := by
    rw [List.getD_eq_getElem _ _ hp]
    exact (List.getElem_range' ..).trans (by rw [Nat.one_mul])
  rw [hid]
  exact ⟨getD_window patches [] hcount, getD_window (coords.getD []) [] hcount⟩

theorem length_rankSlice_patches (patches : List (List Hash))
    (coords : Option (List (List (Point Double)))) (hpos : 0 < size) {rank : ℕ}
    (hrank : rank < size) :
    patches.length / size ≤ (rankSlice patches coords size rank).patches.length ∧
      (rankSlice patches coords size rank).patches.length ≤ patches.length / size + 1 := by
  have hlen : (rankSlice patches coords size rank).patches.length = _ :=
    length_window patches (rankBegin_succ_le hpos hrank)
  have hbounds := rankBegin_succ_bounds patches.length hpos rank
  rw [hlen]
  generalize patches.length / size = average at hbounds ⊢
  omega

end Partition

section FromFile

/-- A driver that needs coordinates exits on a file without them. -/
theorem upsReadInputSlice_without_coords :
    ∃ file, writePatchFile "p" [[3]] = .ok file ∧
      slicePatchesByRank [[3]] 0 1 = .ok { patches := [[3]], globalIds := [0], coords := [] } ∧
      (exec (Ups.readInputSlice "p" 0 1 true) (Stream.opened file)).1 = .ok none :=
  ⟨layout [[3]] none, (writePatchFileImpl_eq_ok_iff [[3]] none _).mpr
    ⟨by simp, rfl, by decide⟩, rfl,
    Safely.outcome_eq (safely_upsReadInputSlice (show 0 < 1 by decide)
      (show [[(3 : Hash)]].length * 1 < 2 ^ 64 by decide) (show 0 < 1 by decide) (by simp)
      (show (layout [[3]] none).length < 2 ^ 63 by decide) true) rfl⟩

/-- From the list or from its file, every rank gets the same slice, and the slices of all ranks
are the input. Only a driver that needs coordinates gives up, on a file without them. -/
theorem input_slices_agree (path : String) (patches : List (List Hash))
    (coords : Option (List (List (Point Double)))) (file : List Byte)
    (hwrite : writePatchFileImpl path patches coords = .ok file) (size : ℕ) (hpos : 0 < size)
    (hfit : patches.length * size < 2 ^ 64) :
    ∃ slices : ℕ → PatchSlice,
      (∀ rank < size,
        slicePatchesByRank patches rank size = .ok { slices rank with coords := [] } ∧
        (∀ cs, coords = some cs →
          slicePatchesByRankCoords patches cs rank size = .ok (slices rank)) ∧
        (coords = none → (slices rank).coords = []) ∧
        ∀ s : Stream, s.bytes = file →
          (exec (Usc.readInputSlice path rank size) s).1 = .ok (slices rank) ∧
          ∀ needCoords, (exec (Ups.readInputSlice path rank size needCoords) s).1 =
            .ok (if needCoords ∧ coords = none then none else some (slices rank))) ∧
      ((List.range size).flatMap fun r => (slices r).patches) = patches ∧
      ((List.range size).flatMap fun r => (slices r).globalIds) = List.range patches.length ∧
      ((List.range size).flatMap fun r => (slices r).coords) = coords.getD [] ∧
      (∀ rank < size, ∀ p < (slices rank).globalIds.length,
        (slices rank).patches.getD p [] = patches.getD ((slices rank).globalIds.getD p 0) [] ∧
        (slices rank).coords.getD p [] =
          (coords.getD []).getD ((slices rank).globalIds.getD p 0) []) ∧
      ∀ r < size, ∀ r' < size,
        (slices r).patches.length ≤ (slices r').patches.length + 1 := by
  obtain ⟨hshape, rfl, hsmall⟩ := (writePatchFileImpl_eq_ok_iff patches coords file).mp hwrite
  refine ⟨rankSlice patches coords size, ?_, flatMap_rankSlice_patches hpos,
    flatMap_rankSlice_globalIds hpos, flatMap_rankSlice_coords hpos hshape,
    fun rank _ p hp => rankSlice_attached hp, ?_⟩
  · intro rank hrank
    refine ⟨slicePatchesByRank_eq_ok hpos hfit hrank coords, ?_, ?_, ?_⟩
    · intro cs hcs
      exact slicePatchesByRankCoords_eq_ok hpos hfit hrank hcs (hshape cs hcs)
    · intro hnone
      simp [rankSlice, hnone, window]
    · intro s hs
      exact ⟨(safely_uscReadInputSlice hpos hfit hrank hshape hsmall).outcome_eq hs,
        fun needCoords =>
          (safely_upsReadInputSlice hpos hfit hrank hshape hsmall needCoords).outcome_eq hs⟩
  · intro r hr r' hr'
    have hlong := length_rankSlice_patches patches coords hpos hr
    have hshort := length_rankSlice_patches patches coords hpos hr'
    omega

theorem input_slices_agree_two :
    ∃ slices : ℕ → PatchSlice,
      ((List.range 3).flatMap fun r => (slices r).patches) = [[3, 3], [5]] ∧
      ((List.range 3).flatMap fun r => (slices r).globalIds) = [0, 1] :=
  let ⟨slices, _, hpatches, hids, _⟩ := input_slices_agree "p" [[3, 3], [5]] none
    (layout [[3, 3], [5]] none)
    ((writePatchFileImpl_eq_ok_iff [[3, 3], [5]] none _).mpr ⟨by simp, rfl, by decide⟩) 3
    (by decide) (by decide)
  ⟨slices, hpatches, hids⟩

end FromFile

end PatternSearch.InputSlices
