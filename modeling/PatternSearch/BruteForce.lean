import PatternSearch.Csr
import PatternSearch.Loops
import PatternSearch.Selection
import PatternSearch.WordBits

/-!
The reference implementation of the greedy rule: every round rescans every patch. On any
CSR whose rows hold distinct ids below N it returns the greedy selection, and it returns
after at most N rounds.
-/

namespace PatternSearch.BruteForce

open Machine Csr WordBits Loops FirstMaximum GreedyCover Selection

structure DenseBitset where
  numBits : ℕ
  words : List Word

namespace DenseBitset

/-- What the constructor leaves: so many words, all of them zero. -/
def zeros (numBits words : ℕ) : DenseBitset :=
  { numBits, words := List.replicate words 0#64 }

def test (b : DenseBitset) (id : ElementId) : Except Fault Bool := readBit b.words id

def set (b : DenseBitset) (id : ElementId) : Except Fault DenseBitset := do
  let words ← writeBit b.words id
  return { b with words }

end DenseBitset

/-- The locals of one round's scan. -/
structure Best where
  score : ℤ
  patch : PatchId
  found : Bool

structure BruteState where
  result : PatchSelection
  covered : DenseBitset
  selectedFlag : List Bool

/-- How many of the ids are not covered. -/
def countUncovered (covered : DenseBitset) (ids : List ElementId) : Except Fault ℤ :=
  ids.foldlM (fun s e => do
    let hit ← covered.test e
    return if hit then s else s + 1) 0

/-- One patch of the scan; the strict comparison leaves ties to the smaller id. -/
def scanPatch (patches : PatchCsr) (st : BruteState) (best : Best) (p : PatchId) :
    Except Fault Best :=
  if st.selectedFlag.getD p false then .ok best
  else do
    let s ← countUncovered st.covered (patches.patch p)
    return if best.score < s then { score := s, patch := p, found := true } else best

/-- Cover one id and count it when it is new. -/
def coverId (acc : DenseBitset × ℕ) (e : ElementId) : Except Fault (DenseBitset × ℕ) := do
  let hit ← acc.1.test e
  if hit then return acc
  else
    let covered ← acc.1.set e
    return (covered, acc.2 + 1)

def bruteForceStep (patches : PatchCsr) (N : ℕ) (st : BruteState) :
    Except Fault (BruteState ⊕ PatchSelection) :=
  if st.result.coveredCount < N then do
    let best ← (List.range patches.M).foldlM (scanPatch patches st)
      { score := 0, patch := 0, found := false }
    if !best.found || decide (best.score ≤ 0) then return .inr st.result
    else
      let (covered, coveredCount) ← (patches.patch best.patch).foldlM coverId
        (st.covered, st.result.coveredCount)
      return .inl
        { result :=
            { selected := st.result.selected ++ [best.patch]
              coveredCount
              iterations := st.result.iterations + 1 }
          covered
          selectedFlag := st.selectedFlag.set best.patch true }
  else .ok (.inr st.result)

/-- The number of words does not wrap for any universe that can be held. -/
def bruteForceSelect (patches : PatchCsr) (N : ℕ) (fuel : ℕ) : Except Fault PatchSelection :=
  loop (bruteForceStep patches N) fuel
    { result := { selected := [], coveredCount := 0, iterations := 0 }
      covered := DenseBitset.zeros N (wordsFor N)
      selectedFlag := List.replicate patches.M false }

section Correct

variable {rows : List (List ElementId)} {N : ℕ} {t : Progress}

/-- The state of the reference stands for a progress. -/
structure Stands (rows : List (List ElementId)) (N : ℕ) (t : Progress) (st : BruteState) :
    Prop where
  valid : t.Valid (rowSet rows) N
  result_eq : st.result = t.result id
  covered : Represents st.covered.words N t.covered
  flags_length : st.selectedFlag.length = rows.length
  flags : ∀ p, st.selectedFlag.getD p false = decide (p ∈ t.selected)

theorem countUncovered_eq_ok {b : DenseBitset} {C : Finset ℕ} (hb : Represents b.words N C)
    (hrows : RowsFit rows N) (p : ℕ) :
    countUncovered b (rows.getD p []) = .ok (gain (rowSet rows) C p : ℤ) := by
  have hlt : ∀ e ∈ rows.getD p [], e < N := fun e he =>
    Finset.mem_range.mp (hrows.subset p (List.mem_toFinset.mpr he))
  have hfold : ∀ (ids : List ℕ) (s : ℤ), (∀ e ∈ ids, e < N) →
      ids.foldlM (fun s e => do
        let hit ← b.test e
        return if hit then s else s + 1) s =
      .ok (s + (ids.filter fun e => e ∉ C).length) := by
    intro ids
    induction ids with
    | nil => simp
    | cons e ids ih =>
      intro s hids
      have htest : b.test e = .ok (decide (e ∈ C)) :=
        hb.readBit_eq_ok (hids e (List.mem_cons_self ..))
      have htail := fun s => ih s fun x hx => hids x (List.mem_cons_of_mem _ hx)
      rw [List.foldlM_cons, htest, ok_bind, pure_eq_ok, ok_bind, htail]
      by_cases he : e ∈ C
      · simp [he]
      · simp only [he, decide_false, not_false_eq_true, decide_true, List.filter_cons_of_pos,
          List.length_cons, Bool.false_eq_true, if_false]
        push_cast
        rw [Int.add_assoc, Int.add_comm 1]
  rw [countUncovered, hfold _ 0 hlt, Int.zero_add,
    gain_eq_length_filter (S := rowSet rows) rfl (hrows.nodup p)]

/-- The scan's locals after the patches in `seen`. -/
structure ScanInv (S : ℕ → Finset ElementId) (C : Finset ElementId) (seen : List ℕ)
    (best : Best) : Prop where
  nothing : best.found = false → best.score = 0 ∧ ∀ p ∈ seen, gain S C p = 0
  something : best.found = true →
    IsFirstMax (gain S C) seen best.patch ∧ best.score = gain S C best.patch ∧ 0 < best.score

section Scan

variable {S : ℕ → Finset ElementId} {C : Finset ElementId} {seen : List ℕ} {best : Best}

theorem ScanInv.score_nonneg (h : ScanInv S C seen best) : 0 ≤ best.score := by
  cases hfound : best.found with
  | false => exact le_of_eq (h.nothing hfound).1.symm
  | true => exact le_of_lt (h.something hfound).2.2

/-- A patch that gains no more than the best one so far changes nothing. -/
theorem ScanInv.keep (h : ScanInv S C seen best) {p : ℕ} (hle : (gain S C p : ℤ) ≤ best.score) :
    ScanInv S C (seen ++ [p]) best := by
  constructor
  · intro hnot
    obtain ⟨hzero, hseen⟩ := h.nothing hnot
    refine ⟨hzero, fun q hq => ?_⟩
    rcases List.mem_append.mp hq with hq | hq
    · exact hseen q hq
    · obtain rfl := List.mem_singleton.mp hq
      omega
  · intro hfound
    obtain ⟨hmax, hscore, hpos⟩ := h.something hfound
    refine ⟨hmax.append_of_le fun q hq => ?_, hscore, hpos⟩
    obtain rfl := List.mem_singleton.mp hq
    omega

/-- A patch that gains more is the first best one. -/
theorem ScanInv.replace (h : ScanInv S C seen best) {p : ℕ} (hlt : best.score < gain S C p) :
    ScanInv S C (seen ++ [p]) { score := gain S C p, patch := p, found := true } := by
  have hpos : 0 < gain S C p := by
    have hnonneg := h.score_nonneg
    omega
  constructor
  · intro hnot
    cases hnot
  · intro _
    refine ⟨?_, rfl, Int.natCast_pos.mpr hpos⟩
    cases hfound : best.found with
    | false =>
      refine ⟨seen, [], rfl, fun q hq => ?_, by simp⟩
      rw [(h.nothing hfound).2 q hq]
      exact hpos
    | true =>
      obtain ⟨hmax, hscore, _⟩ := h.something hfound
      apply hmax.concat_of_lt
      omega

end Scan

theorem scanPatch_eq_ok {st : BruteState} (hst : Stands rows N t st) (hrows : RowsFit rows N)
    {seen : List ℕ} {best : Best} (hbest : ScanInv (rowSet rows) t.covered seen best) (p : ℕ) :
    ∃ next, scanPatch (buildPatchCsr rows) st best p = .ok next ∧
      ScanInv (rowSet rows) t.covered (seen ++ [p]) next := by
  unfold scanPatch
  rw [hst.flags p]
  by_cases hsel : p ∈ t.selected
  · rw [if_pos (by simpa using hsel)]
    refine ⟨best, rfl, hbest.keep ?_⟩
    rw [hst.valid.gain_eq_zero hsel]
    exact hbest.score_nonneg
  · rw [if_neg (by simpa using hsel), patch_eq_getD, countUncovered_eq_ok hst.covered hrows,
      ok_bind, pure_eq_ok]
    refine ⟨_, rfl, ?_⟩
    split_ifs with hlt
    · exact hbest.replace hlt
    · exact hbest.keep (not_lt.mp hlt)

/-- A round's scan finds the first patch with the most uncovered elements. -/
theorem scan_eq_ok {st : BruteState} (hst : Stands rows N t st) (hrows : RowsFit rows N)
    (l seen : List ℕ) {best : Best} (hbest : ScanInv (rowSet rows) t.covered seen best) :
    ∃ final, l.foldlM (scanPatch (buildPatchCsr rows) st) best = .ok final ∧
      ScanInv (rowSet rows) t.covered (seen ++ l) final := by
  induction l generalizing seen best with
  | nil => exact ⟨best, rfl, by simpa using hbest⟩
  | cons p l ih =>
    obtain ⟨next, hnext, hinv⟩ := scanPatch_eq_ok hst hrows hbest p
    obtain ⟨final, hfinal, hinv'⟩ := ih (seen ++ [p]) hinv
    refine ⟨final, ?_, by simpa using hinv'⟩
    rw [List.foldlM_cons, hnext, ok_bind, hfinal]

/-- Covering a row's ids one by one adds its set; the counter follows the cardinality. -/
theorem foldlM_coverId (ids : List ElementId) (hids : ∀ e ∈ ids, e < N) {b : DenseBitset}
    {C : Finset ℕ} (hb : Represents b.words N C) :
    ∃ b' : DenseBitset, ids.foldlM coverId (b, C.card) = .ok (b', (C ∪ ids.toFinset).card) ∧
      Represents b'.words N (C ∪ ids.toFinset) := by
  induction ids generalizing b C with
  | nil => exact ⟨b, by simp, by simpa using hb⟩
  | cons e ids ih =>
    have he : e < N := hids e (List.mem_cons_self ..)
    have htail : ∀ x ∈ ids, x < N := fun x hx => hids x (List.mem_cons_of_mem _ hx)
    have htest : b.test e = .ok (decide (e ∈ C)) := hb.readBit_eq_ok he
    have hunion : C ∪ (e :: ids).toFinset = insert e C ∪ ids.toFinset := by
      ext x
      simp only [List.toFinset_cons, Finset.mem_union, Finset.mem_insert]
      tauto
    rw [List.foldlM_cons, coverId, htest, ok_bind, hunion]
    by_cases hmem : e ∈ C
    · rw [if_pos (by simpa using hmem), pure_eq_ok, ok_bind, Finset.insert_eq_of_mem hmem]
      exact ih htail hb
    · have hset : b.set e = .ok { b with words := setBit b.words e } := by
        rw [DenseBitset.set, hb.writeBit_eq_ok he, ok_bind]
        rfl
      rw [if_neg (by simpa using hmem), hset, ok_bind, pure_eq_ok, ok_bind,
        ← Finset.card_insert_of_notMem hmem]
      exact ih htail (hb.setBit he)

/-- Covering the ids of a picked patch and flagging it leads to the next progress. -/
theorem Stands.pick (hrows : RowsFit rows N) {st : BruteState} (hst : Stands rows N t st) {p : ℕ}
    (hp : p < rows.length) {covered : DenseBitset}
    (hcovered : Represents covered.words N (t.covered ∪ (rows.getD p []).toFinset)) :
    Stands rows N (t.pick (rowSet rows) p)
      { result :=
          { selected := st.result.selected ++ [p]
            coveredCount := (t.covered ∪ (rows.getD p []).toFinset).card
            iterations := st.result.iterations + 1 }
        covered
        selectedFlag := st.selectedFlag.set p true } where
  valid := hst.valid.pick (hrows.subset _)
  result_eq := by
    rw [hst.result_eq]
    simp [Progress.result, Progress.pick, rowSet]
  covered := hcovered
  flags_length := by rw [List.length_set, hst.flags_length]
  flags q := by
    have hlt : p < st.selectedFlag.length := by
      rw [hst.flags_length]
      exact hp
    rw [List.getD_eq_getElem?_getD, List.getElem?_set]
    by_cases hq : p = q
    · subst q
      simp [hlt, Progress.pick]
    · rw [if_neg hq, ← List.getD_eq_getElem?_getD, hst.flags q]
      simp [Progress.pick, Ne.symm hq]

theorem bruteForceStep_correct (hrows : RowsFit rows N) :
    StepCorrect (bruteForceStep (buildPatchCsr rows) N) (Stands rows N) (remaining N)
      (Finishes (rowSet rows) (List.range rows.length) id) := by
  intro t st hst
  have hcount : st.result.coveredCount = t.covered.card := by rw [hst.result_eq]; rfl
  unfold bruteForceStep
  rw [M_buildPatchCsr, hcount]
  by_cases hmore : t.covered.card < N
  · rw [if_pos hmore]
    have hstart : ScanInv (rowSet rows) t.covered [] { score := 0, patch := 0, found := false } :=
      { nothing := fun _ => ⟨rfl, by simp⟩
        something := fun h => by cases h }
    obtain ⟨best, hscan, hbest⟩ := scan_eq_ok hst hrows (List.range rows.length) [] hstart
    rw [List.nil_append] at hbest
    rw [hscan, ok_bind]
    cases hfound : best.found with
    | false =>
      left
      refine ⟨st.result, by simp, ?_⟩
      rw [hst.result_eq]
      exact Finishes.of_done (hbest.nothing hfound).2
    | true =>
      right
      obtain ⟨hmax, hscore, hpos⟩ := hbest.something hfound
      have hgain : 0 < gain (rowSet rows) t.covered best.patch := by omega
      have hids : ∀ e ∈ rows.getD best.patch [], e < N := fun e he =>
        Finset.mem_range.mp (hrows.subset best.patch (List.mem_toFinset.mpr he))
      obtain ⟨covered, hcover, hrep⟩ := foldlM_coverId _ hids hst.covered
      rw [if_neg (by simpa using hpos), patch_eq_getD, hcover, ok_bind]
      refine ⟨t.pick (rowSet rows) best.patch, _, rfl, ?_, ?_, ?_⟩
      · exact hst.pick hrows (List.mem_range.mp hmax.mem) hrep
      · exact remaining_pick_lt hst.valid (hrows.subset _) hgain
      · exact fun sel hsel => hsel.of_pick hmax hgain
  · left
    rw [if_neg hmore]
    refine ⟨st.result, rfl, ?_⟩
    rw [hst.result_eq]
    exact Finishes.of_done fun i _ =>
      hst.valid.gain_eq_zero_of_card (not_lt.mp hmore) (hrows.subset i)

/-- The reference returns the greedy selection, with any fuel above N. -/
theorem bruteForceSelect_eq_ok (hrows : RowsFit rows N) :
    ∃ sel, Finishes (rowSet rows) (List.range rows.length) id Progress.start sel ∧
      ∀ fuel, N < fuel → bruteForceSelect (buildPatchCsr rows) N fuel = .ok sel := by
  have hstart : Stands rows N Progress.start
      { result := { selected := [], coveredCount := 0, iterations := 0 }
        covered := DenseBitset.zeros N (wordsFor N)
        selectedFlag := List.replicate (buildPatchCsr rows).M false } :=
    { valid := Progress.valid_start
      result_eq := rfl
      covered := Represents.empty N
      flags_length := by rw [List.length_replicate, M_buildPatchCsr]
      flags := fun p => by
        have hfalse : (List.replicate (buildPatchCsr rows).M false).getD p false = false := by
          rw [List.getD_eq_getElem?_getD, List.getElem?_replicate]
          split_ifs <;> rfl
        rw [hfalse]
        exact (decide_eq_false (List.not_mem_nil)).symm }
  obtain ⟨sel, hsel, hrun⟩ := loop_correct (bruteForceStep_correct hrows) hstart
  exact ⟨sel, hsel, hrun⟩

/-- The reference reads a CSR only through its number of rows and the rows. -/
theorem bruteForceSelect_congr {patches patches' : PatchCsr} (hM : patches.M = patches'.M)
    (hpatch : patches.patch = patches'.patch) (fuel : ℕ) :
    bruteForceSelect patches N fuel = bruteForceSelect patches' N fuel := by
  have hscan : scanPatch patches = scanPatch patches' := by
    funext st best p
    rw [scanPatch, scanPatch, hpatch]
  have hstep : bruteForceStep patches N = bruteForceStep patches' N := by
    funext st
    rw [bruteForceStep, bruteForceStep, hM, hscan, hpatch]
  rw [bruteForceSelect, bruteForceSelect, hstep, hM]

/-- So the result holds for every CSR, whatever lies outside its rows. -/
theorem bruteForceSelect_csr_eq_ok (patches : PatchCsr)
    (hrows : RowsFit ((List.range patches.M).map patches.patch) N) :
    ∃ sel, Finishes (rowSet ((List.range patches.M).map patches.patch))
        (List.range ((List.range patches.M).map patches.patch).length) id Progress.start sel ∧
      ∀ fuel, N < fuel → bruteForceSelect patches N fuel = .ok sel := by
  obtain ⟨sel, hsel, hrun⟩ := bruteForceSelect_eq_ok hrows
  refine ⟨sel, hsel, fun fuel hfuel => ?_⟩
  rw [← hrun fuel hfuel]
  apply bruteForceSelect_congr
  · rw [M_buildPatchCsr, List.length_map, List.length_range]
  · exact (patch_buildPatchCsr_rows patches).symm

end Correct

end PatternSearch.BruteForce
