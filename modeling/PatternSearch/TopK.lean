import Mathlib.Data.Finset.Card
import Mathlib.Data.List.Sort

/-!
The k smallest items of a list by a key, in order, as std::partial_sort leaves them. Where
the keys of the items differ, an item is among them just when fewer than k items are
smaller. So the k smallest items of several lists together can be found among the k smallest
of each.
-/

namespace PatternSearch.TopK

variable {α κ : Type} [LinearOrder κ]

def sortBy (key : α → κ) (l : List α) : List α := l.insertionSort fun a b => key a ≤ key b

def smallest (key : α → κ) (k : ℕ) (l : List α) : List α := (sortBy key l).take k

variable {key : α → κ} {l : List α}

theorem perm_sortBy (key : α → κ) (l : List α) : (sortBy key l).Perm l :=
  List.perm_insertionSort _ l

theorem length_sortBy (key : α → κ) (l : List α) : (sortBy key l).length = l.length :=
  (perm_sortBy key l).length_eq

theorem length_smallest (key : α → κ) (k : ℕ) (l : List α) :
    (smallest key k l).length = min k l.length := by
  rw [smallest, List.length_take, length_sortBy]

theorem pairwise_le_sortBy (key : α → κ) (l : List α) :
    (sortBy key l).Pairwise fun a b => key a ≤ key b := by
  have htrans : IsTrans α fun a b => key a ≤ key b := ⟨fun _ _ _ hab hbc => le_trans hab hbc⟩
  have htotal : Std.Total (α := α) fun a b => key a ≤ key b := ⟨fun a b => le_total _ _⟩
  exact List.pairwise_insertionSort _ l

/-- Items with different keys are sorted strictly. -/
theorem pairwise_lt_sortBy (hnodup : (l.map key).Nodup) :
    (sortBy key l).Pairwise fun a b => key a < key b := by
  have hsorted : ((sortBy key l).map key).Nodup :=
    ((perm_sortBy key l).map key).nodup_iff.mpr hnodup
  rw [List.nodup_map_iff_inj_on (hsorted.of_map _)] at hsorted
  have hdistinct : (sortBy key l).Nodup := (perm_sortBy key l).nodup_iff.mpr (hnodup.of_map _)
  refine ((pairwise_le_sortBy key l).and hdistinct).imp_of_mem ?_
  intro a b ha hb hab
  exact lt_of_le_of_ne hab.1 fun heq => hab.2 (hsorted a ha b hb heq)

theorem eq_of_pairwise_of_mem_iff {l l' : List α} (hl : l.Pairwise fun a b => key a < key b)
    (hl' : l'.Pairwise fun a b => key a < key b) (h : ∀ a, a ∈ l ↔ a ∈ l') : l = l' := by
  have hirrefl : Std.Irrefl (α := α) fun a b => key a < key b := ⟨fun _ => lt_irrefl _⟩
  exact hl.eq_of_mem_iff hl' h

theorem sortBy_eq {l l' : List α} (hl' : l'.Pairwise fun a b => key a < key b)
    (hperm : l'.Perm l) : sortBy key l = l' := by
  have hkeys : (l.map key).Nodup := by
    rw [← (hperm.map key).nodup_iff, List.Nodup, List.pairwise_map]
    exact hl'.imp fun h => ne_of_lt h
  refine eq_of_pairwise_of_mem_iff (pairwise_lt_sortBy hkeys) hl' fun a => ?_
  rw [(perm_sortBy key l).mem_iff, hperm.mem_iff]

theorem sortBy_congr {l l' : List α} (hnodup : (l.map key).Nodup) (hperm : l'.Perm l) :
    sortBy key l' = sortBy key l :=
  sortBy_eq (pairwise_lt_sortBy hnodup) ((perm_sortBy key l).trans hperm.symm)

/-- The first k entries of a sorted list are those with fewer than k smaller ones. -/
private theorem mem_take_iff (hl : l.Pairwise fun a b => key a < key b) (k : ℕ) (a : α) :
    a ∈ l.take k ↔ a ∈ l ∧ (l.filter fun b => key b < key a).length < k := by
  induction l generalizing k with
  | nil => simp
  | cons b l ih =>
    rw [List.pairwise_cons] at hl
    cases k with
    | zero => simp
    | succ k =>
      rw [List.take_succ_cons, List.mem_cons, List.mem_cons, ih hl.2]
      by_cases ha : a ∈ l
      · have hlt : key b < key a := hl.1 a ha
        have hne : a ≠ b := fun heq => lt_irrefl _ (heq ▸ hlt)
        rw [List.filter_cons_of_pos (by simpa using hlt), List.length_cons]
        simp only [ha, hne, true_and, false_or, or_true]
        omega
      · have hnone : a = b → ((b :: l).filter fun c => key c < key a) = [] := by
          rintro rfl
          rw [List.filter_eq_nil_iff]
          intro c hc
          rcases List.mem_cons.mp hc with rfl | hc
          · simp
          · simpa using le_of_lt (hl.1 c hc)
        constructor
        · rintro (heq | h)
          · rw [hnone heq]
            exact ⟨Or.inl heq, Nat.succ_pos k⟩
          · exact absurd h.1 ha
        · rintro ⟨heq | h, _⟩
          · exact Or.inl heq
          · exact absurd h ha

theorem mem_smallest_iff (hnodup : (l.map key).Nodup) (k : ℕ) (a : α) :
    a ∈ smallest key k l ↔ a ∈ l ∧ (l.filter fun b => key b < key a).length < k := by
  have hcount := ((perm_sortBy key l).filter fun b => key b < key a).length_eq
  rw [smallest, mem_take_iff (pairwise_lt_sortBy hnodup), (perm_sortBy key l).mem_iff, hcount]

theorem smallest_subset (key : α → κ) (k : ℕ) (l : List α) : smallest key k l ⊆ l :=
  fun _ ha => (perm_sortBy key l).subset (List.take_subset _ _ ha)

theorem nodup_map_smallest (hnodup : (l.map key).Nodup) (k : ℕ) :
    ((smallest key k l).map key).Nodup :=
  ((((perm_sortBy key l).map key).nodup_iff.mpr hnodup).sublist
    ((List.take_sublist k _).map key))

theorem smallest_congr {l l' : List α} (hnodup : (l.map key).Nodup) (hperm : l'.Perm l) (k : ℕ) :
    smallest key k l' = smallest key k l := by
  rw [smallest, smallest, sortBy_congr hnodup hperm]

/-- What is smaller than an item stands at the front of a sorted list. -/
private theorem length_filter_take (hl : l.Pairwise fun a b => key a ≤ key b) (k : ℕ) (a : α) :
    ((l.take k).filter fun b => key b < key a).length =
      min k (l.filter fun b => key b < key a).length := by
  induction l generalizing k with
  | nil => simp
  | cons b l ih =>
    rw [List.pairwise_cons] at hl
    cases k with
    | zero => simp
    | succ k =>
      by_cases hb : key b < key a
      · have htail := ih hl.2 k
        rw [List.take_succ_cons, List.filter_cons_of_pos (by simpa using hb),
          List.filter_cons_of_pos (by simpa using hb), List.length_cons, List.length_cons, htail]
        omega
      · have hnone : (b :: l).filter (fun c => key c < key a) = [] := by
          rw [List.filter_eq_nil_iff]
          intro c hc
          have hle : key a ≤ key c := by
            rcases List.mem_cons.mp hc with rfl | hc
            · exact not_lt.mp hb
            · exact le_trans (not_lt.mp hb) (hl.1 c hc)
          simpa using hle
        have hsub := (List.take_sublist (k + 1) (b :: l)).filter fun c => key c < key a
        rw [hnone, List.sublist_nil] at hsub
        rw [hsub, hnone]
        rfl

theorem nodup_map_smallest_append {l l' : List α} (hnodup : ((l ++ l').map key).Nodup) (k : ℕ) :
    ((smallest key k l ++ l').map key).Nodup := by
  rw [List.map_append, List.nodup_append'] at hnodup ⊢
  obtain ⟨hl, hl', hdisjoint⟩ := hnodup
  refine ⟨nodup_map_smallest hl k, hl', fun c hc => hdisjoint ?_⟩
  exact List.map_subset key (smallest_subset key k l) hc

/-- One part of the list may be cut to its k smallest items first. -/
theorem smallest_append {l l' : List α} (hnodup : ((l ++ l').map key).Nodup) (k : ℕ) :
    smallest key k (smallest key k l ++ l') = smallest key k (l ++ l') := by
  have hl : (l.map key).Nodup := by
    rw [List.map_append] at hnodup
    exact hnodup.of_append_left
  have hcut := nodup_map_smallest_append hnodup k
  refine eq_of_pairwise_of_mem_iff ((pairwise_lt_sortBy hcut).sublist (List.take_sublist _ _))
    ((pairwise_lt_sortBy hnodup).sublist (List.take_sublist _ _)) fun a => ?_
  have hcount : ((smallest key k l).filter fun b => key b < key a).length =
      min k (l.filter fun b => key b < key a).length := by
    have hwhole := ((perm_sortBy key l).filter fun b => key b < key a).length_eq
    rw [smallest, length_filter_take (pairwise_le_sortBy key l), hwhole]
  change a ∈ smallest key k _ ↔ a ∈ smallest key k _
  rw [mem_smallest_iff hcut, mem_smallest_iff hnodup, List.mem_append, List.mem_append,
    mem_smallest_iff hl, List.filter_append, List.filter_append, List.length_append,
    List.length_append, hcount]
  constructor
  · intro h
    obtain ⟨ha, hlt⟩ := h
    exact ⟨ha.imp_left And.left, by omega⟩
  · intro h
    obtain ⟨ha, hlt⟩ := h
    exact ⟨ha.imp_left fun hmem => ⟨hmem, by omega⟩, by omega⟩

/-- Every part may be cut to its k smallest items first. -/
theorem smallest_flatten (parts : List (List α)) (hnodup : (parts.flatten.map key).Nodup) (k : ℕ) :
    smallest key k (parts.map (smallest key k)).flatten = smallest key k parts.flatten := by
  -- The parts already cut are kept in front.
  have aux : ∀ front, ((front ++ parts.flatten).map key).Nodup →
      smallest key k (front ++ (parts.map (smallest key k)).flatten) =
        smallest key k (front ++ parts.flatten) := by
    clear hnodup
    induction parts with
    | nil => exact fun front _ => rfl
    | cons l parts ih =>
      intro front hfront
      have hmove : ∀ m : List α, (front ++ (m ++ parts.flatten)).Perm
          (m ++ (front ++ parts.flatten)) := by
        intro m
        rw [← List.append_assoc, ← List.append_assoc]
        exact List.perm_append_comm.append_right _
      rw [List.flatten_cons] at hfront ⊢
      have hwhole := ((hmove l).map key).nodup_iff.mp hfront
      have hcut := nodup_map_smallest_append hwhole k
      have hback := ((hmove (smallest key k l)).map key).nodup_iff.mpr hcut
      have hstep := ih (front ++ smallest key k l) (by rw [List.append_assoc]; exact hback)
      rw [List.append_assoc, List.append_assoc] at hstep
      rw [List.map_cons, List.flatten_cons, hstep, smallest_congr hcut (hmove _),
        smallest_append hwhole, ← smallest_congr hwhole (hmove l)]
  exact aux [] hnodup

end PatternSearch.TopK
