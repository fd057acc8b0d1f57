import Mathlib.Data.Finset.Card
import Mathlib.Data.List.Destutter
import Mathlib.Data.List.Sort

/-!
Sorted duplicate-free lists and the searches made over them.
`sortUnique` is std::sort followed by std::unique and erase. Over any linear order its
result is fixed by its members alone. `lowerBound` and `upperBound` are the partition points of
std::lower_bound and std::upper_bound; over a sorted list they are counts, which makes
them additive over concatenations.
-/

namespace PatternSearch.SortedLists

variable {α : Type*} [LinearOrder α]

def sortUnique (l : List α) : List α :=
  (l.insertionSort (· ≤ ·)).destutter (· ≠ ·)

/-- The first position whose entry is not below the key. -/
def lowerBound (l : List α) (a : α) : ℕ := (l.takeWhile (· < a)).length

/-- The first position whose entry is above the key. -/
def upperBound (l : List α) (a : α) : ℕ := (l.takeWhile (· ≤ a)).length

private theorem pairwise_lt_of_isChain_ne (l : List α)
    (hle : l.Pairwise (· ≤ ·)) (hne : l.IsChain (· ≠ ·)) : l.Pairwise (· < ·) := by
  rw [← List.isChain_iff_pairwise]
  induction hne with
  | nil => exact .nil
  | singleton a => exact .singleton a
  | @cons_cons a b l hab _ ih =>
    rw [List.pairwise_cons] at hle
    exact .cons_cons (lt_of_le_of_ne (hle.1 b (List.mem_cons_self ..)) hab) (ih hle.2)

theorem sortUnique_pairwise (l : List α) : (sortUnique l).Pairwise (· < ·) := by
  apply pairwise_lt_of_isChain_ne
  · exact (List.pairwise_insertionSort (· ≤ ·) l).sublist (List.destutter_sublist _ _)
  · exact List.isChain_destutter _ _

private theorem mem_destutter'_ne (l : List α) (a b : α) :
    b ∈ l.destutter' (· ≠ ·) a ↔ b = a ∨ b ∈ l := by
  induction l generalizing a with
  | nil => simp
  | cons c l ih =>
    by_cases hac : a = c
    · subst c
      rw [List.destutter'_cons_neg _ (by simp), ih, List.mem_cons]
      tauto
    · rw [List.destutter'_cons_pos _ hac, List.mem_cons, ih, List.mem_cons]

@[simp] theorem mem_sortUnique (l : List α) (a : α) : a ∈ sortUnique l ↔ a ∈ l := by
  rw [← (List.perm_insertionSort (· ≤ ·) l).mem_iff, sortUnique]
  cases l.insertionSort (· ≤ ·) with
  | nil => simp
  | cons b l => rw [List.destutter_cons', mem_destutter'_ne, List.mem_cons]

theorem sortUnique_nodup (l : List α) : (sortUnique l).Nodup :=
  (sortUnique_pairwise l).imp fun h => ne_of_lt h

/-- Only the members matter: order and repetitions of the input are forgotten. -/
theorem eq_of_pairwise_lt_of_mem_iff {l l' : List α} (hl : l.Pairwise (· < ·))
    (hl' : l'.Pairwise (· < ·)) (h : ∀ a, a ∈ l ↔ a ∈ l') : l = l' :=
  hl.eq_of_mem_iff hl' h

theorem sortUnique_congr {l l' : List α} (h : ∀ a, a ∈ l ↔ a ∈ l') :
    sortUnique l = sortUnique l' :=
  eq_of_pairwise_lt_of_mem_iff (sortUnique_pairwise l) (sortUnique_pairwise l')
    (fun a => by rw [mem_sortUnique, mem_sortUnique, h a])

theorem length_sortUnique (l : List α) : (sortUnique l).length = l.toFinset.card := by
  rw [← List.toFinset_card_of_nodup (sortUnique_nodup l)]
  congr 1
  ext a
  simp

theorem length_sortUnique_le (l : List α) : (sortUnique l).length ≤ l.length := by
  rw [length_sortUnique]
  exact List.toFinset_card_le l

omit [LinearOrder α] in
private theorem takeWhile_length_of_downward (p : α → Bool) (l : List α)
    (h : l.Pairwise fun a b => p b = true → p a = true) :
    (l.takeWhile p).length = l.countP p := by
  induction l with
  | nil => rfl
  | cons a l ih =>
    rw [List.pairwise_cons] at h
    cases ha : p a with
    | true => rw [List.takeWhile_cons_of_pos ha, List.length_cons, ih h.2,
        List.countP_cons_of_pos ha]
    | false =>
      have hl : l.countP p = 0 := by
        rw [List.countP_eq_zero]
        intro b hb hpb
        rw [h.1 b hb hpb] at ha
        cases ha
      rw [List.takeWhile_cons_of_neg (by simp [ha]), List.countP_cons_of_neg (by simp [ha]), hl]
      rfl

theorem upperBound_eq_countP {l : List α} (hl : l.Pairwise (· ≤ ·)) (a : α) :
    upperBound l a = l.countP (· ≤ a) := by
  apply takeWhile_length_of_downward
  refine hl.imp fun hbc hc => ?_
  simp only [decide_eq_true_eq] at hc ⊢
  exact le_trans hbc hc

theorem upperBound_le_length (l : List α) (a : α) : upperBound l a ≤ l.length :=
  (List.takeWhile_prefix _).length_le

/-- Entries before the partition point are not above the key. -/
theorem getElem_le_of_lt_upperBound {l : List α} {a : α} {i : ℕ} (hi : i < upperBound l a)
    (hlen : i < l.length) : l[i] ≤ a := by
  induction l generalizing i with
  | nil => exact absurd hi (Nat.not_lt_zero i)
  | cons b l ih =>
    by_cases hb : b ≤ a
    · cases i with
      | zero => exact hb
      | succ i =>
        rw [upperBound, List.takeWhile_cons_of_pos (by simpa using hb), List.length_cons] at hi
        exact ih (Nat.lt_of_succ_lt_succ hi) (Nat.lt_of_succ_lt_succ hlen)
    · rw [upperBound, List.takeWhile_cons_of_neg (by simpa using hb)] at hi
      exact absurd hi (Nat.not_lt_zero i)

/-- The entry at the partition point is above the key. -/
theorem lt_getElem_upperBound {l : List α} {a : α} (h : upperBound l a < l.length) :
    a < l[upperBound l a] := by
  induction l with
  | nil => exact absurd h (Nat.not_lt_zero _)
  | cons b l ih =>
    by_cases hb : b ≤ a
    · have hstep : upperBound (b :: l) a = upperBound l a + 1 := by
        rw [upperBound, List.takeWhile_cons_of_pos (by simpa using hb), List.length_cons]
        rfl
      simp only [hstep, List.length_cons] at h ⊢
      exact ih (Nat.lt_of_succ_lt_succ h)
    · have hzero : upperBound (b :: l) a = 0 := by
        rw [upperBound, List.takeWhile_cons_of_neg (by simpa using hb)]
        rfl
      simp only [hzero]
      exact not_le.mp hb

theorem upperBound_mono {l : List α} (hl : l.Pairwise (· ≤ ·)) {a b : α} (hab : a ≤ b) :
    upperBound l a ≤ upperBound l b := by
  rw [upperBound_eq_countP hl, upperBound_eq_countP hl]
  apply List.countP_mono_left
  intro c _ hc
  simp only [decide_eq_true_eq] at hc ⊢
  exact le_trans hc hab

/-- In a strictly ascending list the partition point of a member is its position. -/
theorem getElem?_lowerBound {l : List α} (hl : l.Pairwise (· < ·)) {a : α} (ha : a ∈ l) :
    l[lowerBound l a]? = some a := by
  induction l with
  | nil => simp at ha
  | cons b l ih =>
    rw [List.pairwise_cons] at hl
    rcases List.mem_cons.mp ha with rfl | ha
    · simp [lowerBound]
    · have hba : b < a := hl.1 a ha
      have hstep : lowerBound (b :: l) a = lowerBound l a + 1 := by
        simp [lowerBound, List.takeWhile_cons_of_pos, hba]
      rw [hstep, List.getElem?_cons_succ]
      exact ih hl.2 ha

/-- A position with smaller entries before it and none at it is the partition point. -/
theorem lowerBound_unique {l : List α} {a : α} {k : ℕ} (hk : k ≤ l.length)
    (hbefore : ∀ (i : ℕ) (hi : i < l.length), i < k → l[i] < a)
    (hat : ∀ hk : k < l.length, a ≤ l[k]) : lowerBound l a = k := by
  induction l generalizing k with
  | nil =>
    obtain rfl : k = 0 := by simpa using hk
    rfl
  | cons b l ih =>
    cases k with
    | zero =>
      have hb : a ≤ b := hat (by simp)
      simp [lowerBound, not_lt.mpr hb]
    | succ k =>
      have hb : b < a := hbefore 0 (by simp) (by omega)
      have htail : lowerBound l a = k := by
        apply ih
        · simpa using hk
        · intro i hi hik
          exact hbefore (i + 1) (by simpa using hi) (by omega)
        · intro hk
          exact hat (by simpa using hk)
      rw [← htail]
      simp [lowerBound, List.takeWhile_cons_of_pos, hb]

theorem lowerBound_lt_length {l : List α} (hl : l.Pairwise (· < ·)) {a : α} (ha : a ∈ l) :
    lowerBound l a < l.length := by
  have h := getElem?_lowerBound hl ha
  exact (List.getElem?_eq_some_iff.mp h).1

theorem lowerBound_getElem {l : List α} (hl : l.Pairwise (· < ·)) (i : ℕ) (hi : i < l.length) :
    lowerBound l l[i] = i := by
  have hget := getElem?_lowerBound hl (List.getElem_mem hi)
  have hnodup : l.Nodup := hl.imp fun h => ne_of_lt h
  obtain ⟨hlt, heq⟩ := List.getElem?_eq_some_iff.mp hget
  exact (hnodup.getElem_inj_iff).mp heq

theorem lowerBound_lt_iff {l : List α} (hl : l.Pairwise (· < ·)) {a b : α}
    (ha : a ∈ l) (hb : b ∈ l) : lowerBound l a < lowerBound l b ↔ a < b := by
  have hga := List.getElem?_eq_some_iff.mp (getElem?_lowerBound hl ha)
  have hgb := List.getElem?_eq_some_iff.mp (getElem?_lowerBound hl hb)
  obtain ⟨hia, hea⟩ := hga
  obtain ⟨hib, heb⟩ := hgb
  constructor
  · intro h
    rw [← hea, ← heb]
    exact List.pairwise_iff_getElem.mp hl _ _ hia hib h
  · intro h
    by_contra hle
    rcases Nat.lt_or_eq_of_le (not_lt.mp hle) with hlt | heq
    · have hba := List.pairwise_iff_getElem.mp hl _ _ hib hia hlt
      rw [hea, heb] at hba
      exact lt_asymm h hba
    · have hab : a = b := by
        rw [← hea, ← heb]
        simp only [heq]
      exact absurd hab (ne_of_lt h)

theorem lowerBound_injOn {l : List α} (hl : l.Pairwise (· < ·)) {a b : α}
    (ha : a ∈ l) (hb : b ∈ l) (h : lowerBound l a = lowerBound l b) : a = b := by
  have hga := getElem?_lowerBound hl ha
  rw [h, getElem?_lowerBound hl hb] at hga
  exact (Option.some.inj hga).symm

end PatternSearch.SortedLists
