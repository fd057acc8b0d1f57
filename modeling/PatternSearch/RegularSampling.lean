import Mathlib.Algebra.Order.BigOperators.Group.Finset
import Mathlib.Data.Finset.Card
import Mathlib.Data.List.GetD
import PatternSearch.SortedLists

/-!
Regular sampling. Positions are marked densely when every window of a fixed width holds a
marked one. In an ascending list cut into classes by a monotone function a class is an interval,
so its size is bounded by the number of marked entries in it; and in the sorted list of all
samples a class is cut out by two positions, apart from copies of its smallest value.
-/

namespace PatternSearch.RegularSampling

open SortedLists

/-- Every window of the given width below n holds a marked position. -/
def Dense (marked : Finset ℕ) (n width : ℕ) : Prop :=
  ∀ q, q + width ≤ n → ∃ p ∈ marked, q ≤ p ∧ p < q + width

section Windows

variable {marked : Finset ℕ} {n width x : ℕ}

/-- Windows laid side by side hold a marked position each. -/
theorem Dense.le_card (h : Dense marked n width) (k : ℕ) (hx : x + k * width ≤ n) :
    k ≤ (marked.filter fun p => x ≤ p ∧ p < x + k * width).card := by
  induction k with
  | zero => exact Nat.zero_le _
  | succ k ih =>
    rw [Nat.succ_mul] at hx ⊢
    obtain ⟨p, hp, hlow, hhigh⟩ := h (x + k * width) (by omega)
    have hnew : p ∉ marked.filter fun p => x ≤ p ∧ p < x + k * width := by
      rw [Finset.mem_filter]
      omega
    have hsub : insert p (marked.filter fun p => x ≤ p ∧ p < x + k * width) ⊆
        marked.filter fun p => x ≤ p ∧ p < x + (k * width + width) := by
      intro q hq
      rw [Finset.mem_filter]
      rcases Finset.mem_insert.mp hq with rfl | hq
      · exact ⟨hp, by omega, by omega⟩
      · obtain ⟨hmem, hfrom, hto⟩ := Finset.mem_filter.mp hq
        exact ⟨hmem, hfrom, by omega⟩
    have hcard := Finset.card_le_card hsub
    rw [Finset.card_insert_of_notMem hnew] at hcard
    exact le_trans (Nat.succ_le_succ (ih (by omega))) hcard

/-- So an interval is shorter than one window more than it holds marked positions. -/
theorem Dense.length_lt (h : Dense marked n width) (hwidth : 0 < width) {len : ℕ}
    (hx : x + len ≤ n) :
    len < ((marked.filter fun p => x ≤ p ∧ p < x + len).card + 1) * width := by
  have hle := Nat.div_mul_le_self len width
  have hcount := h.le_card (len / width) (show x + len / width * width ≤ n by omega)
  have hmono : (marked.filter fun p => x ≤ p ∧ p < x + len / width * width).card ≤
      (marked.filter fun p => x ≤ p ∧ p < x + len).card := by
    apply Finset.card_le_card
    intro p hp
    rw [Finset.mem_filter] at hp ⊢
    exact ⟨hp.1, hp.2.1, by omega⟩
  exact (Nat.div_lt_iff_lt_mul hwidth).mp (Nat.lt_succ_of_le (le_trans hcount hmono))

end Windows

section Classes

variable {α : Type*} [LinearOrder α] {target : α → ℕ} {l : List α}

/-- An ascending list is its lower classes, then a class, then the higher ones. -/
theorem eq_append_class (hl : l.Pairwise (· < ·)) (hmono : ∀ a b, a ≤ b → target a ≤ target b)
    (t : ℕ) :
    l = (l.filter fun a => target a < t) ++ (l.filter fun a => target a = t) ++
      l.filter fun a => t < target a := by
  have hlt : ∀ {a b}, target a < target b → a < b := fun {a b} h =>
    not_le.mp fun hle => absurd (hmono b a hle) (not_le.mpr h)
  apply eq_of_pairwise_lt_of_mem_iff hl
  · rw [List.pairwise_append, List.pairwise_append]
    refine ⟨⟨hl.filter _, hl.filter _, ?_⟩, hl.filter _, ?_⟩
    · intro a ha b hb
      simp only [List.mem_filter, decide_eq_true_eq] at ha hb
      exact hlt (by omega)
    · intro a ha b hb
      simp only [List.mem_append, List.mem_filter, decide_eq_true_eq] at ha hb
      exact hlt (by omega)
  · intro a
    simp only [List.mem_append, List.mem_filter, decide_eq_true_eq]
    constructor
    · intro ha
      rcases lt_trichotomy (target a) t with h | h | h
      · exact Or.inl (Or.inl ⟨ha, h⟩)
      · exact Or.inl (Or.inr ⟨ha, h⟩)
      · exact Or.inr ⟨ha, h⟩
    · rintro ((h | h) | h) <;> exact h.1

/-- A class is an interval of positions. -/
theorem exists_class_interval (hl : l.Pairwise (· < ·))
    (hmono : ∀ a b, a ≤ b → target a ≤ target b) (t : ℕ) :
    ∃ x, x + (l.filter fun a => target a = t).length ≤ l.length ∧
      ∀ p (hp : p < l.length), x ≤ p → p < x + (l.filter fun a => target a = t).length →
        target l[p] = t := by
  have hsplit := eq_append_class hl hmono t
  refine ⟨(l.filter fun a => target a < t).length, ?_, ?_⟩
  · have hlen := congrArg List.length hsplit
    rw [List.length_append, List.length_append] at hlen
    omega
  · intro p hp hlow hhigh
    have hget : l[p]? = (l.filter fun a => target a = t)[
        p - (l.filter fun a => target a < t).length]? := by
      conv_lhs => rw [hsplit]
      rw [List.append_assoc, List.getElem?_append_right hlow,
        List.getElem?_append_left (by omega)]
    rw [List.getElem?_eq_getElem hp] at hget
    have hmem := List.mem_of_getElem? hget.symm
    simpa using (List.mem_filter.mp hmem).2

/-- A class is bounded by the samples in it, one value of which may have been drawn before. -/
theorem length_class_le (hl : l.Pairwise (· < ·)) (hmono : ∀ a b, a ≤ b → target a ≤ target b)
    {marked : Finset ℕ} {width : ℕ} (hdense : Dense marked l.length width) (hwidth : 0 < width)
    {samples : List α} (hsamples : ∀ p ∈ marked, ∀ hp : p < l.length, l[p] ∈ samples) (t : ℕ)
    (v : α) :
    (l.filter fun a => target a = t).length ≤
      (samples.countP (fun a => target a = t ∧ a ≠ v) + 2) * width := by
  obtain ⟨x, hx, hclass⟩ := exists_class_interval hl hmono t
  have hlt := hdense.length_lt hwidth hx
  -- The marked positions of the class carry distinct values, all but one of them not v.
  have hcard : (marked.filter fun p =>
        x ≤ p ∧ p < x + (l.filter fun a => target a = t).length).card ≤
      (insert v (samples.filter fun a => target a = t ∧ a ≠ v).toFinset).card := by
    apply Finset.card_le_card_of_injOn fun p => l.getD p v
    · intro p hp
      obtain ⟨hmarked, hlow, hhigh⟩ := Finset.mem_filter.mp hp
      have hlen : p < l.length := by omega
      have hmem := hsamples p hmarked hlen
      simp only [List.getD_eq_getElem _ _ hlen, Finset.coe_insert, Set.mem_insert_iff,
        Finset.mem_coe, List.mem_toFinset, List.mem_filter, decide_eq_true_eq]
      by_cases hv : l[p] = v
      · exact Or.inl hv
      · exact Or.inr ⟨hmem, hclass p hlen hlow hhigh, hv⟩
    · intro p hp q hq heq
      obtain ⟨-, -, hp⟩ := Finset.mem_filter.mp hp
      obtain ⟨-, -, hq⟩ := Finset.mem_filter.mp hq
      have hplen : p < l.length := by omega
      have hqlen : q < l.length := by omega
      simp only [List.getD_eq_getElem _ _ hplen, List.getD_eq_getElem _ _ hqlen] at heq
      have hnodup : l.Nodup := hl.imp fun h => ne_of_lt h
      exact hnodup.getElem_inj_iff.mp heq
  have hinsert := Finset.card_insert_le v
    (samples.filter fun a => target a = t ∧ a ≠ v).toFinset
  have hcount : (samples.filter fun a => target a = t ∧ a ≠ v).toFinset.card ≤
      samples.countP (fun a => target a = t ∧ a ≠ v) := by
    rw [List.countP_eq_length_filter]
    exact List.toFinset_card_le _
  refine le_trans (le_of_lt hlt) (Nat.mul_le_mul_right width ?_)
  omega

/-- Entries of a kind that only occur between two positions are no more than lie there. -/
theorem countP_le_of_between {β : Type*} {p : β → Bool} {l : List β} (first count : ℕ)
    (h : ∀ i (hi : i < l.length), p l[i] = true → first ≤ i ∧ i < first + count) :
    l.countP p ≤ count := by
  have hfront : (l.take first).countP p = 0 := by
    rw [List.countP_eq_zero]
    intro a ha hpa
    obtain ⟨i, hi, rfl⟩ := List.mem_iff_getElem.mp ha
    rw [List.length_take] at hi
    rw [List.getElem_take] at hpa
    have hbounds := h i (by omega) hpa
    omega
  have hback : ((l.drop first).drop count).countP p = 0 := by
    rw [List.countP_eq_zero]
    intro a ha hpa
    obtain ⟨i, hi, rfl⟩ := List.mem_iff_getElem.mp ha
    rw [List.drop_drop, List.length_drop] at hi
    rw [List.getElem_drop, List.getElem_drop] at hpa
    have hbounds := h (first + (count + i)) (by omega) hpa
    omega
  have hmiddle : ((l.drop first).take count).countP p ≤ count :=
    le_trans List.countP_le_length (List.length_take_le _ _)
  have hsplit : l.countP p = (l.take first).countP p + (((l.drop first).take count).countP p +
      ((l.drop first).drop count).countP p) := by
    rw [← List.countP_append, List.take_append_drop, ← List.countP_append, List.take_append_drop]
  omega

end Classes

end PatternSearch.RegularSampling
