import PatternSearch.Csr
import PatternSearch.GreedyCover

/-!
What a selector computes, independently of how. A run of greedy selection is described by its
progress: the covered set and the slots selected so far. A result finishes a progress when
some greedy trace from there leads to it; there is at most one such result.
-/

namespace PatternSearch.Selection

open Csr FirstMaximum GreedyCover

/-- The set of ids in one row of a list of rows. -/
def rowSet (rows : List (List ElementId)) (p : ℕ) : Finset ElementId := (rows.getD p []).toFinset

/-- Rows without repetitions, all ids below N. -/
structure RowsFit (rows : List (List ElementId)) (N : ℕ) : Prop where
  nodup : ∀ p, (rows.getD p []).Nodup
  subset : ∀ p, rowSet rows p ⊆ Finset.range N

structure Progress where
  covered : Finset ElementId
  selected : List ℕ

namespace Progress

def start : Progress := { covered := ∅, selected := [] }

variable (S : ℕ → Finset ElementId) (gid : ℕ → PatchId) (t : Progress)

def pick (i : ℕ) : Progress := { covered := t.covered ∪ S i, selected := t.selected ++ [i] }

/-- The progress after selecting a list of slots. -/
def after (run : List ℕ) : Progress :=
  { covered := coveredBy S t.covered run, selected := t.selected ++ run }

/-- The result reported for a progress, slots translated to patch ids. -/
def result : PatchSelection :=
  { selected := t.selected.map gid
    coveredCount := t.covered.card
    iterations := t.selected.length }

/-- Selected slots are covered, and only elements below N are. -/
structure Valid (N : ℕ) : Prop where
  covered_subset : t.covered ⊆ Finset.range N
  selected_subset : ∀ i ∈ t.selected, S i ⊆ t.covered

end Progress

open Progress

variable {S : ℕ → Finset ElementId} {slots : List ℕ} {gid : ℕ → PatchId} {t : Progress} {N : ℕ}

/-- Some greedy trace leads from the progress to the result. -/
def Finishes (S : ℕ → Finset ElementId) (slots : List ℕ) (gid : ℕ → PatchId) (t : Progress)
    (sel : PatchSelection) : Prop :=
  ∃ run, GreedyTrace S slots t.covered run ∧ sel = (t.after S run).result gid

theorem Finishes.of_done (h : ∀ i ∈ slots, gain S t.covered i = 0) :
    Finishes S slots gid t (t.result gid) := by
  refine ⟨[], GreedyTrace.done h, ?_⟩
  simp [after, result, coveredBy]

theorem Finishes.of_pick {i : ℕ} {sel : PatchSelection}
    (hmax : IsFirstMax (gain S t.covered) slots i) (hpos : 0 < gain S t.covered i)
    (h : Finishes S slots gid (t.pick S i) sel) : Finishes S slots gid t sel := by
  obtain ⟨run, htrace, rfl⟩ := h
  refine ⟨i :: run, GreedyTrace.pick hmax hpos htrace, ?_⟩
  simp [after, result, pick, coveredBy]

/-- The selected sequence is the same up to the translation of slots to ids, the counters
are the same. -/
theorem Finishes.relate {gid' : ℕ → PatchId} {sel sel' : PatchSelection}
    (h : Finishes S slots id start sel) (h' : Finishes S slots gid' start sel') :
    sel' = { sel with selected := sel.selected.map gid' } := by
  obtain ⟨run, htrace, rfl⟩ := h
  obtain ⟨run', htrace', rfl⟩ := h'
  obtain rfl := htrace.unique htrace'
  simp [after, result]

theorem Finishes.unique {sel sel' : PatchSelection} (h : Finishes S slots gid t sel)
    (h' : Finishes S slots gid t sel') : sel = sel' := by
  obtain ⟨run, htrace, rfl⟩ := h
  obtain ⟨run', htrace', rfl⟩ := h'
  rw [htrace.unique htrace']

theorem Progress.valid_start : Valid S start N where
  covered_subset := Finset.empty_subset _
  selected_subset _ hi := absurd hi List.not_mem_nil

theorem Progress.Valid.pick {i : ℕ} (h : Valid S t N) (hi : S i ⊆ Finset.range N) :
    Valid S (t.pick S i) N where
  covered_subset := Finset.union_subset h.covered_subset hi
  selected_subset j hj := by
    rcases List.mem_append.mp hj with hj | hj
    · exact (h.selected_subset j hj).trans Finset.subset_union_left
    · obtain rfl := List.mem_singleton.mp hj
      exact Finset.subset_union_right

theorem Progress.Valid.gain_eq_zero {i : ℕ} (h : Valid S t N) (hi : i ∈ t.selected) :
    gain S t.covered i = 0 := gain_eq_zero_iff.mpr (h.selected_subset i hi)

/-- Scores that hold the gains of the unselected slots and are negative on the selected ones. -/
def Scores (S : ℕ → Finset ElementId) (slots : List ℕ) (t : Progress) (f : ℕ → ℤ) : Prop :=
  ∀ i ∈ slots, (i ∈ t.selected → f i < 0) ∧ (i ∉ t.selected → f i = gain S t.covered i)

theorem Scores.of_pos {f : ℕ → ℤ} (hf : Scores S slots t f) {i : ℕ} (hi : i ∈ slots)
    (hpos : 0 < f i) : i ∉ t.selected ∧ f i = gain S t.covered i := by
  have hsel : i ∉ t.selected := fun h => by
    have hneg := (hf i hi).1 h
    omega
  exact ⟨hsel, (hf i hi).2 hsel⟩

/-- Disabled slots have nothing to gain, so a positive maximum of the scores is one of the gains. -/
theorem Scores.isFirstMax_gain {f : ℕ → ℤ} (hf : Scores S slots t f) (h : Valid S t N) {i : ℕ}
    (hmax : IsFirstMax f slots i) (hpos : 0 < f i) :
    IsFirstMax (gain S t.covered) slots i ∧ 0 < gain S t.covered i := by
  have hi := (hf.of_pos hmax.mem hpos).2
  have hgain : 0 < gain S t.covered i := by omega
  refine ⟨hmax.transfer (fun a ha hlt => ?_) (fun a ha hle => ?_), hgain⟩
  · by_cases hsel : a ∈ t.selected
    · rw [h.gain_eq_zero hsel]
      exact hgain
    · rw [hi, (hf a ha).2 hsel] at hlt
      exact_mod_cast hlt
  · by_cases hsel : a ∈ t.selected
    · rw [h.gain_eq_zero hsel]
      exact Nat.zero_le _
    · rw [hi, (hf a ha).2 hsel] at hle
      exact_mod_cast hle

theorem Scores.gain_eq_zero {f : ℕ → ℤ} (hf : Scores S slots t f) (h : Valid S t N) {i : ℕ}
    (hi : i ∈ slots) (hle : f i ≤ 0) : gain S t.covered i = 0 := by
  by_cases hsel : i ∈ t.selected
  · exact h.gain_eq_zero hsel
  · have heq := (hf i hi).2 hsel
    omega

/-- The score of a slot with the selected ones disabled. -/
def signedScore (S : ℕ → Finset ElementId) (t : Progress) (i : ℕ) : ℤ :=
  if i ∈ t.selected then kDisabledScore else gain S t.covered i

theorem scores_signedScore : Scores S slots t (signedScore S t) := by
  intro i _
  constructor
  · intro hsel
    rw [signedScore, if_pos hsel]
    decide
  · intro hsel
    exact if_neg hsel

/-- A score is the gain of its slot, or one less on the selected slots. -/
theorem signedScore_bounds (h : Valid S t N) (i : ℕ) :
    (gain S t.covered i : ℤ) - 1 ≤ signedScore S t i ∧ signedScore S t i ≤ gain S t.covered i := by
  by_cases hsel : i ∈ t.selected
  · have hzero := h.gain_eq_zero hsel
    rw [signedScore, if_pos hsel]
    unfold kDisabledScore
    omega
  · rw [signedScore, if_neg hsel]
    omega

theorem mem_selected_pick {i j : ℕ} : j ∈ (t.pick S i).selected ↔ j ∈ t.selected ∨ j = i := by
  simp [Progress.pick]

theorem signedScore_pick_self (S : ℕ → Finset ElementId) (t : Progress) (i : ℕ) :
    signedScore S (t.pick S i) i = kDisabledScore :=
  if_pos (mem_selected_pick.mpr (Or.inr rfl))

/-- The score of another slot follows its gain. -/
theorem signedScore_pick_of_ne (h : Valid S t N) {i j : ℕ} (hne : j ≠ i) :
    signedScore S (t.pick S i) j + gain S t.covered j =
      signedScore S t j + gain S (t.covered ∪ S i) j := by
  by_cases hsel : j ∈ t.selected
  · have hzero := h.gain_eq_zero hsel
    have hsub : t.covered ⊆ t.covered ∪ S i := Finset.subset_union_left
    have hanti : gain S (t.covered ∪ S i) j ≤ gain S t.covered j := gain_anti hsub
    rw [signedScore, if_pos (mem_selected_pick.mpr (Or.inl hsel)), signedScore, if_pos hsel]
    omega
  · have hnot : j ∉ (t.pick S i).selected := fun hmem =>
      (mem_selected_pick.mp hmem).elim hsel hne
    have hcovered : (t.pick S i).covered = t.covered ∪ S i := rfl
    rw [signedScore, if_neg hnot, signedScore, if_neg hsel, hcovered]
    omega

theorem Progress.Valid.card_le (h : Valid S t N) : t.covered.card ≤ N := by
  have hle := Finset.card_le_card h.covered_subset
  rwa [Finset.card_range] at hle

/-- Once N elements are covered nothing is left to gain. -/
theorem Progress.Valid.gain_eq_zero_of_card {i : ℕ} (h : Valid S t N) (hN : N ≤ t.covered.card)
    (hi : S i ⊆ Finset.range N) : gain S t.covered i = 0 := by
  have hall : t.covered = Finset.range N :=
    Finset.eq_of_subset_of_card_le h.covered_subset (by rwa [Finset.card_range])
  exact gain_eq_zero_iff.mpr (hall ▸ hi)

/-- The number of elements still to cover, the measure of the selection loops. -/
def remaining (N : ℕ) (t : Progress) : ℕ := N - t.covered.card

theorem remaining_pick_lt {i : ℕ} (h : Valid S t N) (hi : S i ⊆ Finset.range N)
    (hpos : 0 < gain S t.covered i) : remaining N (t.pick S i) < remaining N t := by
  have hcard : (t.pick S i).covered.card = t.covered.card + gain S t.covered i :=
    card_union_eq_add_gain i
  have hle := (h.pick hi).card_le
  unfold remaining
  omega

end PatternSearch.Selection
