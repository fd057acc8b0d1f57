import Mathlib.Algebra.BigOperators.Group.Finset.Basic
import Mathlib.Algebra.GroupWithZero.Nat
import Mathlib.Algebra.Order.BigOperators.Group.Finset
import Mathlib.Data.Finset.Card
import Mathlib.Data.Finset.Union
import PatternSearch.FirstMaximum

/-!
Greedy set cover over an arbitrary family of finite sets. A trace picks, at every step,
the first slot of a fixed order whose set has the most uncovered elements, and ends when
no slot has any. The trace is unique, so two implementations of the rule agree as soon as
each is shown to produce a trace. The family enters through its gains alone: relabelling
slots or elements carries traces to traces.
-/

namespace PatternSearch.GreedyCover

open FirstMaximum

variable {ι β : Type*} [DecidableEq β]

/-- The number of elements of a set that are still uncovered. -/
def gain (S : ι → Finset β) (C : Finset β) (i : ι) : ℕ := (S i \ C).card

inductive GreedyTrace (S : ι → Finset β) (slots : List ι) : Finset β → List ι → Prop
  | done {C : Finset β} (h : ∀ i ∈ slots, gain S C i = 0) : GreedyTrace S slots C []
  | pick {C : Finset β} {i : ι} {rest : List ι} (hmax : IsFirstMax (gain S C) slots i)
      (hpos : 0 < gain S C i) (hrest : GreedyTrace S slots (C ∪ S i) rest) :
      GreedyTrace S slots C (i :: rest)

/-- What is covered once the slots of a list have been added. -/
def coveredBy (S : ι → Finset β) (C : Finset β) (run : List ι) : Finset β :=
  run.foldl (fun D i => D ∪ S i) C

/-- How much each slot of a list adds to what the earlier ones cover. -/
def gains (S : ι → Finset β) : Finset β → List ι → List ℕ
  | _, [] => []
  | C, i :: rest => gain S C i :: gains S (C ∪ S i) rest

variable {S : ι → Finset β} {slots run run' : List ι} {C D : Finset β}

theorem gain_eq_zero_iff {i : ι} : gain S C i = 0 ↔ S i ⊆ C := by
  rw [gain, Finset.card_eq_zero, Finset.sdiff_eq_empty_iff_subset]

theorem gain_anti {i : ι} (h : C ⊆ D) : gain S D i ≤ gain S C i :=
  Finset.card_le_card (Finset.sdiff_subset_sdiff (Finset.Subset.refl _) h)

/-- A gain drops by the overlap with what is newly covered. -/
theorem gain_union_add (C T : Finset β) (i : ι) :
    gain S (C ∪ T) i + (S i ∩ (T \ C)).card = gain S C i := by
  have hsplit : S i \ C = (S i \ (C ∪ T)) ∪ (S i ∩ (T \ C)) := by
    ext x
    simp only [Finset.mem_sdiff, Finset.mem_union, Finset.mem_inter]
    tauto
  have hdisj : Disjoint (S i \ (C ∪ T)) (S i ∩ (T \ C)) := by
    rw [Finset.disjoint_left]
    intro x hx hy
    simp only [Finset.mem_sdiff, Finset.mem_union, Finset.mem_inter] at hx hy
    tauto
  rw [gain, gain, hsplit, Finset.card_union_of_disjoint hdisj]

theorem card_union_eq_add_gain (i : ι) : (C ∪ S i).card = C.card + gain S C i := by
  rw [gain, ← Finset.union_sdiff_self_eq_union, Finset.card_union_of_disjoint Finset.disjoint_sdiff]

theorem gains_length (C : Finset β) (run : List ι) : (gains S C run).length = run.length := by
  induction run generalizing C with
  | nil => rfl
  | cons i rest ih => simp only [gains, List.length_cons, ih]

theorem coveredBy_cons (i : ι) : coveredBy S C (i :: run) = coveredBy S (C ∪ S i) run := rfl

theorem mem_coveredBy {x : β} : x ∈ coveredBy S C run ↔ x ∈ C ∨ ∃ i ∈ run, x ∈ S i := by
  induction run generalizing C with
  | nil => simp [coveredBy]
  | cons i rest ih =>
    rw [coveredBy_cons, ih, Finset.mem_union]
    simp only [List.mem_cons, exists_eq_or_imp, or_assoc]

theorem subset_coveredBy : C ⊆ coveredBy S C run := fun _ hx => mem_coveredBy.mpr (Or.inl hx)

/-- The gains add up to everything newly covered, whatever the list. -/
theorem card_coveredBy : (coveredBy S C run).card = C.card + (gains S C run).sum := by
  induction run generalizing C with
  | nil => rfl
  | cons i rest ih =>
    rw [coveredBy_cons, ih, card_union_eq_add_gain, gains, List.sum_cons, Nat.add_assoc]

section Lists

/-- For a set listed without repetitions the gain counts the uncovered entries. -/
theorem gain_eq_length_filter {i : ι} {l : List β} (hS : S i = l.toFinset) (hl : l.Nodup) :
    gain S C i = (l.filter fun x => x ∉ C).length := by
  have hset : S i \ C = (l.filter fun x => x ∉ C).toFinset := by
    ext x
    simp [hS]
  rw [gain, hset, List.toFinset_card_of_nodup (hl.filter _)]

end Lists

namespace GreedyTrace

/-- The rule leaves no choice: a family has one trace from each covered set. -/
theorem unique (h : GreedyTrace S slots C run) (h' : GreedyTrace S slots C run') :
    run = run' := by
  induction h generalizing run' with
  | done hdone =>
    cases h' with
    | done => rfl
    | pick hmax hpos => exact absurd (hdone _ hmax.mem) (Nat.pos_iff_ne_zero.mp hpos)
  | pick hmax hpos _ ih =>
    cases h' with
    | done hdone => exact absurd (hdone _ hmax.mem) (Nat.pos_iff_ne_zero.mp hpos)
    | pick hmax' _ hrest' =>
      obtain rfl := hmax.unique hmax'
      rw [ih hrest']

theorem exists_trace (S : ι → Finset β) (slots : List ι) (C : Finset β) :
    ∃ run, GreedyTrace S slots C run := by
  -- Each pick shrinks the uncovered part of the union of the slots' sets.
  have aux : ∀ n : ℕ, ∀ C : Finset β,
      (coveredBy S ∅ slots \ C).card = n → ∃ run, GreedyTrace S slots C run := by
    intro n
    induction n using Nat.strong_induction_on with
    | h n ih =>
      intro C hn
      by_cases hdone : ∀ i ∈ slots, gain S C i = 0
      · exact ⟨[], done hdone⟩
      · push Not at hdone
        obtain ⟨j, hj, hjpos⟩ := hdone
        obtain ⟨i, hi⟩ := exists_isFirstMax (gain S C) (List.ne_nil_of_mem hj)
        have hpos : 0 < gain S C i := lt_of_lt_of_le (Nat.pos_of_ne_zero hjpos) (hi.le hj)
        have hsub : S i \ C ⊆ coveredBy S ∅ slots \ C :=
          Finset.sdiff_subset_sdiff
            (fun x hx => mem_coveredBy.mpr (Or.inr ⟨i, hi.mem, hx⟩)) (Finset.Subset.refl _)
        have hsplit : coveredBy S ∅ slots \ (C ∪ S i) =
            (coveredBy S ∅ slots \ C) \ (S i \ C) := by
          ext x
          simp only [Finset.mem_sdiff, Finset.mem_union]
          tauto
        have hcard : (coveredBy S ∅ slots \ (C ∪ S i)).card < n := by
          have hgain : (S i \ C).card ≤ n := hn ▸ Finset.card_le_card hsub
          rw [hsplit, Finset.card_sdiff_of_subset hsub, hn]
          unfold gain at hpos
          omega
        obtain ⟨rest, hrest⟩ := ih _ hcard (C ∪ S i) rfl
        exact ⟨i :: rest, pick hi hpos hrest⟩
  exact aux _ C rfl

theorem subset (h : GreedyTrace S slots C run) : ∀ i ∈ run, i ∈ slots := by
  induction h with
  | done => simp
  | pick hmax _ _ ih =>
    intro j hj
    rcases List.mem_cons.mp hj with rfl | hj
    · exact hmax.mem
    · exact ih j hj

/-- A covered slot has no gain left, so it never comes up again. -/
theorem not_mem_of_subset {i : ι} (h : GreedyTrace S slots C run) (hi : S i ⊆ C) :
    i ∉ run := by
  induction h with
  | done => simp
  | @pick C j rest hmax hpos _ ih =>
    intro hmem
    rcases List.mem_cons.mp hmem with rfl | hmem
    · exact absurd (gain_eq_zero_iff.mpr hi) (Nat.pos_iff_ne_zero.mp hpos)
    · exact ih (hi.trans Finset.subset_union_left) hmem

theorem nodup (h : GreedyTrace S slots C run) : run.Nodup := by
  induction h with
  | done => exact List.nodup_nil
  | pick _ _ hrest ih =>
    exact List.nodup_cons.mpr ⟨hrest.not_mem_of_subset Finset.subset_union_right, ih⟩

theorem length_le_slots (h : GreedyTrace S slots C run) : run.length ≤ slots.length :=
  (h.nodup.subperm fun i hi => h.subset i hi).length_le

theorem gains_pos (h : GreedyTrace S slots C run) : ∀ g ∈ gains S C run, 0 < g := by
  induction h with
  | done => simp [gains]
  | pick _ hpos _ ih =>
    intro g hg
    rcases List.mem_cons.mp hg with rfl | hg
    · exact hpos
    · exact ih g hg

/-- No later gain exceeds the largest gain available now. -/
theorem gains_le {b : ℕ} (h : GreedyTrace S slots C run)
    (hb : ∀ i ∈ slots, gain S C i ≤ b) : ∀ g ∈ gains S C run, g ≤ b := by
  induction h with
  | done => simp [gains]
  | pick hmax _ _ ih =>
    intro g hg
    rcases List.mem_cons.mp hg with rfl | hg
    · exact hb _ hmax.mem
    · exact ih (fun i hi => le_trans (gain_anti Finset.subset_union_left) (hb i hi)) g hg

theorem gains_pairwise (h : GreedyTrace S slots C run) :
    (gains S C run).Pairwise (· ≥ ·) := by
  induction h with
  | done => exact List.Pairwise.nil
  | pick hmax _ hrest ih =>
    refine List.pairwise_cons.mpr ⟨?_, ih⟩
    exact hrest.gains_le fun i hi => le_trans (gain_anti Finset.subset_union_left) (hmax.le hi)

/-- At the end the picked slots cover everything that any slot covers. -/
theorem coveredBy_eq (h : GreedyTrace S slots C run) :
    coveredBy S C run = coveredBy S C slots := by
  apply Finset.Subset.antisymm
  · intro x hx
    rcases mem_coveredBy.mp hx with hx | ⟨i, hi, hx⟩
    · exact mem_coveredBy.mpr (Or.inl hx)
    · exact mem_coveredBy.mpr (Or.inr ⟨i, h.subset i hi, hx⟩)
  · have hall : ∀ i ∈ slots, S i ⊆ coveredBy S C run := by
      induction h with
      | done hdone => exact fun i hi => gain_eq_zero_iff.mp (hdone i hi)
      | pick _ _ _ ih => exact ih
    intro x hx
    rcases mem_coveredBy.mp hx with hx | ⟨i, hi, hx⟩
    · exact subset_coveredBy hx
    · exact hall i hi hx

theorem sum_gains (h : GreedyTrace S slots ∅ run) :
    (gains S ∅ run).sum = (coveredBy S ∅ slots).card := by
  have hcard : (coveredBy S ∅ run).card = (∅ : Finset β).card + (gains S ∅ run).sum :=
    card_coveredBy
  rw [h.coveredBy_eq, Finset.card_empty, Nat.zero_add] at hcard
  exact hcard.symm

theorem length_le_card (h : GreedyTrace S slots ∅ run) :
    run.length ≤ (coveredBy S ∅ slots).card := by
  have hlen : ∀ l : List ℕ, (∀ g ∈ l, 0 < g) → l.length ≤ l.sum := by
    intro l hl
    induction l with
    | nil => simp
    | cons g l ih =>
      have hg := hl g (List.mem_cons_self ..)
      have htail := ih fun a ha => hl a (List.mem_cons_of_mem _ ha)
      simp only [List.length_cons, List.sum_cons]
      omega
  rw [← h.sum_gains, ← @gains_length _ _ _ S ∅ run]
  exact hlen _ h.gains_pos

end GreedyTrace

section Relabel

variable {ι' β' : Type*} [DecidableEq β'] {S' : ι' → Finset β'} {g : ι → ι'} {e : β → β'}

/-- An element relabelling that is injective on the sets in play keeps every gain. -/
theorem gain_relabel {U : Set β} (he : Set.InjOn e U) {i : ι} (hSi : ↑(S i) ⊆ U)
    (hC : ↑C ⊆ U) (hS : S' (g i) = (S i).image e) :
    gain S' (C.image e) (g i) = gain S C i := by
  have hsdiff : (S i).image e \ C.image e = (S i \ C).image e := by
    ext y
    simp only [Finset.mem_sdiff, Finset.mem_image]
    constructor
    · rintro ⟨⟨x, hx, rfl⟩, hnot⟩
      exact ⟨x, ⟨hx, fun hxC => hnot ⟨x, hxC, rfl⟩⟩, rfl⟩
    · rintro ⟨x, ⟨hx, hxC⟩, rfl⟩
      refine ⟨⟨x, hx, rfl⟩, ?_⟩
      rintro ⟨z, hz, hzx⟩
      exact hxC (he (hC hz) (hSi hx) hzx ▸ hz)
  rw [gain, hS, hsdiff]
  exact Finset.card_image_of_injOn (he.mono fun x hx => hSi (Finset.mem_sdiff.mp hx).1)

/-- Traces survive renaming the slots in order and relabelling the elements injectively. -/
theorem GreedyTrace.relabel {U : Set β} (he : Set.InjOn e U)
    (h : GreedyTrace S slots C run) (hSU : ∀ i ∈ slots, ↑(S i) ⊆ U) (hC : ↑C ⊆ U)
    (hS : ∀ i ∈ slots, S' (g i) = (S i).image e) :
    GreedyTrace S' (slots.map g) (C.image e) (run.map g) := by
  induction h with
  | done hdone =>
    apply GreedyTrace.done
    intro j hj
    obtain ⟨i, hi, rfl⟩ := List.mem_map.mp hj
    rw [gain_relabel he (hSU i hi) hC (hS i hi), hdone i hi]
  | @pick C i rest hmax hpos _ ih =>
    have hgain : ∀ j ∈ slots, gain S' (C.image e) (g j) = gain S C j :=
      fun j hj => gain_relabel he (hSU j hj) hC (hS j hj)
    have hi := hmax.mem
    apply GreedyTrace.pick
    · apply IsFirstMax.map
      exact hmax.congr fun j hj => (hgain j hj).symm
    · rw [hgain i hi]
      exact hpos
    · rw [hS i hi, ← Finset.image_union]
      apply ih
      rw [Finset.coe_union]
      exact Set.union_subset hC (hSU i hi)

theorem gains_relabel {U : Set β} (he : Set.InjOn e U) (hSU : ∀ i, ↑(S i) ⊆ U) (hC : ↑C ⊆ U)
    (hS : ∀ i, S' (g i) = (S i).image e) (run : List ι) :
    gains S' (C.image e) (run.map g) = gains S C run := by
  induction run generalizing C with
  | nil => rfl
  | cons i rest ih =>
    have hrest := ih (C := C ∪ S i) (by
      rw [Finset.coe_union]
      exact Set.union_subset hC (hSU i))
    rw [List.map_cons, gains, gains, gain_relabel he (hSU i) hC (hS i), hS i,
      ← Finset.image_union, hrest]

end Relabel

section Omit

variable {slots' : List ι}

/-- Slots that are not picked can be left out. -/
theorem GreedyTrace.of_sublist (h : GreedyTrace S slots C run) (hsub : slots'.Sublist slots)
    (hslots : slots.Nodup) (hkept : ∀ i ∈ run, i ∈ slots') : GreedyTrace S slots' C run := by
  induction h with
  | done hdone => exact GreedyTrace.done fun i hi => hdone i (hsub.subset hi)
  | pick hmax hpos _ ih =>
    refine GreedyTrace.pick (hmax.of_sublist hsub hslots (hkept _ (List.mem_cons_self ..))) hpos ?_
    exact ih fun j hj => hkept j (List.mem_cons_of_mem _ hj)

/-- A slot is not picked when an earlier slot has all its elements. -/
theorem GreedyTrace.not_mem_of_dominated (h : GreedyTrace S slots C run) (hslots : slots.Nodup)
    {i j : ι} (hbefore : [j, i].Sublist slots) (hsub : S i ⊆ S j) : i ∉ run := by
  induction h with
  | done => exact List.not_mem_nil
  | @pick C m rest hmax _ _ ih =>
    intro hmem
    rcases List.mem_cons.mp hmem with rfl | hmem
    · have hlt := hmax.lt_of_before hslots hbefore
      have hle : gain S C i ≤ gain S C j :=
        Finset.card_le_card (Finset.sdiff_subset_sdiff hsub (Finset.Subset.refl _))
      omega
    · exact ih hmem

/-- A covered slot in front changes nothing. -/
theorem GreedyTrace.cons_covered (h : GreedyTrace S slots C run) {i : ι} (hi : S i ⊆ C) :
    GreedyTrace S (i :: slots) C run := by
  induction h with
  | done hdone =>
    apply GreedyTrace.done
    intro j hj
    rcases List.mem_cons.mp hj with rfl | hj
    · exact gain_eq_zero_iff.mpr hi
    · exact hdone j hj
  | @pick C m rest hmax hpos _ ih =>
    refine GreedyTrace.pick (hmax.cons_of_lt ?_) hpos (ih (hi.trans Finset.subset_union_left))
    rw [gain_eq_zero_iff.mpr hi]
    exact hpos

/-- The picked slots, in the order in which they were picked, are picked again. -/
theorem GreedyTrace.of_picked (h : GreedyTrace S slots C run) : GreedyTrace S run C run := by
  induction h with
  | done => exact GreedyTrace.done fun i hi => absurd hi List.not_mem_nil
  | @pick C i rest hmax hpos hrest ih =>
    refine GreedyTrace.pick ⟨[], rest, rfl, fun a ha => absurd ha List.not_mem_nil, ?_⟩ hpos
      (ih.cons_covered Finset.subset_union_right)
    exact fun a ha => hmax.le (hrest.subset a ha)

end Omit

end PatternSearch.GreedyCover
