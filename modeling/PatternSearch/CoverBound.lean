import Mathlib.Algebra.BigOperators.Field
import Mathlib.Algebra.Order.BigOperators.Ring.Finset
import Mathlib.NumberTheory.Harmonic.Defs
import Mathlib.Tactic.Linarith
import Mathlib.Tactic.Positivity
import PatternSearch.GreedyCover

/-!
The classical approximation bound of the greedy rule. Each pick costs one, and the
charging argument spreads that cost evenly over the elements it newly covers. A set of
a competing cover that still has a uncovered elements is charged at most 1/a for each
element it loses, so over the whole trace it pays at most the harmonic number of its size.
-/

namespace PatternSearch.CoverBound

open GreedyCover

variable {ι β : Type*} [DecidableEq β] {S : ι → Finset β} {slots run : List ι} {C : Finset β}

theorem harmonic_mono {a b : ℕ} (h : a ≤ b) : harmonic a ≤ harmonic b := by
  induction b, h using Nat.le_induction with
  | base => exact le_rfl
  | succ b _ ih =>
    rw [harmonic_succ]
    have hpos : (0 : ℚ) ≤ (↑(b + 1))⁻¹ := by positivity
    linarith

/-- Losing elements of a set of size at most n costs at least 1/n each. -/
theorem div_le_harmonic_sub {a b n : ℕ} (hba : b ≤ a) (han : a ≤ n) :
    ((a - b : ℕ) : ℚ) / n ≤ harmonic a - harmonic b := by
  induction a, hba using Nat.le_induction with
  | base => simp
  | succ a hba ih =>
    have hstep := ih (by omega)
    have hsub : ((a + 1 - b : ℕ) : ℚ) = ((a - b : ℕ) : ℚ) + 1 := by
      rw [Nat.succ_sub hba]
      push_cast
      rfl
    have hinv : (1 : ℚ) / n ≤ (↑(a + 1))⁻¹ := by
      rw [one_div]
      apply inv_anti₀
      · positivity
      · exact_mod_cast han
    rw [hsub, add_div, harmonic_succ]
    linarith

/-- What one set of the competing cover pays for one pick. -/
theorem charge_le (C : Finset β) {i j : ι} (hmax : gain S C j ≤ gain S C i) :
    ((S j ∩ (S i \ C)).card : ℚ) / gain S C i ≤
      harmonic (gain S C j) - harmonic (gain S (C ∪ S i) j) := by
  have hdrop := gain_union_add (S := S) C (S i) j
  have hcard : (S j ∩ (S i \ C)).card = gain S C j - gain S (C ∪ S i) j := by omega
  rw [hcard]
  exact div_le_harmonic_sub (gain_anti Finset.subset_union_left) hmax

/-- A trace is no longer than the total its competing cover pays. -/
theorem length_le_sum_harmonic {F : Finset ι} (h : GreedyTrace S slots C run)
    (hF : ∀ i ∈ F, i ∈ slots) (hcover : ∀ i ∈ slots, S i ⊆ C ∪ F.biUnion S) :
    (run.length : ℚ) ≤ ∑ j ∈ F, harmonic (gain S C j) := by
  induction h with
  | done =>
    have hnonneg : ∀ n : ℕ, (0 : ℚ) ≤ harmonic n := fun n =>
      harmonic_zero ▸ harmonic_mono (Nat.zero_le n)
    simpa using Finset.sum_nonneg fun j _ => hnonneg (gain S _ j)
  | @pick C i rest hmax hpos _ ih =>
    have hrest := ih fun k hk => (hcover k hk).trans
      (Finset.union_subset_union Finset.subset_union_left (Finset.Subset.refl _))
    have hnew : S i \ C ⊆ F.biUnion fun j => S j ∩ (S i \ C) := by
      intro x hx
      have hxi := (Finset.mem_sdiff.mp hx).1
      have hxC := (Finset.mem_sdiff.mp hx).2
      rcases Finset.mem_union.mp (hcover i hmax.mem hxi) with hmem | hmem
      · exact absurd hmem hxC
      · obtain ⟨j, hj, hxj⟩ := Finset.mem_biUnion.mp hmem
        exact Finset.mem_biUnion.mpr ⟨j, hj, Finset.mem_inter.mpr ⟨hxj, hx⟩⟩
    have hcount : gain S C i ≤ ∑ j ∈ F, (S j ∩ (S i \ C)).card :=
      le_trans (Finset.card_le_card hnew) Finset.card_biUnion_le
    have hgain : (0 : ℚ) < gain S C i := by exact_mod_cast hpos
    have hone : (1 : ℚ) ≤ ∑ j ∈ F, ((S j ∩ (S i \ C)).card : ℚ) / gain S C i := by
      rw [← Finset.sum_div, le_div_iff₀ hgain, one_mul]
      exact_mod_cast hcount
    have hpaid : ∑ j ∈ F, ((S j ∩ (S i \ C)).card : ℚ) / gain S C i ≤
        ∑ j ∈ F, (harmonic (gain S C j) - harmonic (gain S (C ∪ S i) j)) :=
      Finset.sum_le_sum fun j hj => charge_le C (hmax.le (hF j hj))
    rw [Finset.sum_sub_distrib] at hpaid
    rw [List.length_cons]
    push_cast
    linarith

/-- The greedy trace is at most H(d) times longer than any cover, d bounding the sets. -/
theorem length_le_harmonic_mul {F : Finset ι} {d : ℕ} (h : GreedyTrace S slots ∅ run)
    (hF : ∀ i ∈ F, i ∈ slots) (hcover : ∀ i ∈ slots, S i ⊆ F.biUnion S)
    (hd : ∀ i ∈ F, (S i).card ≤ d) : (run.length : ℚ) ≤ harmonic d * F.card := by
  have hsum := length_le_sum_harmonic h hF fun i hi =>
    (hcover i hi).trans Finset.subset_union_right
  have hterm : ∀ j ∈ F, harmonic (gain S ∅ j) ≤ harmonic d := by
    intro j hj
    apply harmonic_mono
    rw [gain, Finset.sdiff_empty]
    exact hd j hj
  calc
    (run.length : ℚ) ≤ ∑ j ∈ F, harmonic (gain S ∅ j) := hsum
    _ ≤ ∑ _j ∈ F, harmonic d := Finset.sum_le_sum hterm
    _ = harmonic d * F.card := by rw [Finset.sum_const, nsmul_eq_mul, mul_comm]

end PatternSearch.CoverBound
