import Mathlib.Algebra.Order.BigOperators.Group.Finset
import Mathlib.Algebra.BigOperators.Fin
import Mathlib.Data.Finset.Range
import Mathlib.Tactic.Ring

/-!
Contiguous sharding of the numbers below N over P owners: shards of equal size, cut at N, some
of them possibly empty. Every number has one owner, and a set splits into its local parts,
each counted from the base of its shard.
-/

namespace PatternSearch.Shards

variable {N P : ℕ}

/-- `(N + P - 1) / P` in uint64. -/
def shardSize (N P : ℕ) : ℕ := (N + P - 1) % 2 ^ 64 / P

def shardBase (N P r : ℕ) : ℕ := min (r * shardSize N P % 2 ^ 64) N

def shardEnd (N P r : ℕ) : ℕ := min ((r + 1) * shardSize N P % 2 ^ 64) N

def shardExtent (N P r : ℕ) : ℕ := shardEnd N P r - shardBase N P r

def shardOwner (N P e : ℕ) : ℕ := if shardSize N P = 0 then 0 else e / shardSize N P

/-- The members of a set that lie in one shard, counted from the shard's base. -/
def localPart (N P r : ℕ) (A : Finset ℕ) : Finset ℕ :=
  (Finset.range (shardExtent N P r)).filter fun e => shardBase N P r + e ∈ A

/-- A sum that wraps around leaves no room for a shard. -/
theorem shardSize_of_wrap (hN : N ≤ 2 ^ 64) (h : 2 ^ 64 < N + P) : shardSize N P = 0 := by
  apply Nat.div_eq_of_lt
  by_cases hP : 2 ^ 64 ≤ P
  · exact lt_of_lt_of_le (Nat.mod_lt _ (by decide)) hP
  · rw [Nat.mod_eq_sub_mod (by omega), Nat.mod_eq_of_lt (by omega)]
    omega

section NoWrap

variable (hP : 0 < P) (hfit : N + P ≤ 2 ^ 64)
include hP hfit

omit hP in
theorem shardSize_eq : shardSize N P = (N + P - 1) / P := by
  rw [shardSize, Nat.mod_eq_of_lt (by omega)]

theorem le_mul_shardSize : N ≤ P * shardSize N P := by
  have h := Nat.div_add_mod (N + P - 1) P
  have hmod := Nat.mod_lt (N + P - 1) hP
  rw [shardSize_eq hfit]
  omega

theorem mul_shardSize_lt : P * shardSize N P < 2 ^ 64 := by
  have h := Nat.div_add_mod (N + P - 1) P
  rw [shardSize_eq hfit]
  omega

theorem shardSize_pos (hN : 0 < N) : 0 < shardSize N P := by
  rcases Nat.eq_zero_or_pos (shardSize N P) with h | h
  · have hle := le_mul_shardSize hP hfit
    rw [h, Nat.mul_zero] at hle
    omega
  · exact h

/-- Up to the end of the last shard no product wraps around. -/
theorem shardBase_eq {r : ℕ} (hr : r ≤ P) : shardBase N P r = min (r * shardSize N P) N := by
  have hle := Nat.mul_le_mul_right (shardSize N P) hr
  have hlt := mul_shardSize_lt hP hfit
  rw [shardBase, Nat.mod_eq_of_lt (by omega)]

theorem shardEnd_eq {r : ℕ} (hr : r < P) : shardEnd N P r = min ((r + 1) * shardSize N P) N :=
  shardBase_eq hP hfit hr

/-- An owner's shard is the range of numbers it owns. -/
theorem shardOwner_eq_iff {e : ℕ} (he : e < N) {r : ℕ} (hr : r < P) :
    shardOwner N P e = r ↔ shardBase N P r ≤ e ∧ e < shardEnd N P r := by
  have hpos := shardSize_pos hP hfit (Nat.zero_lt_of_lt he)
  rw [shardOwner, if_neg (by omega), Nat.div_eq_iff hpos, shardBase_eq hP hfit hr.le,
    shardEnd_eq hP hfit hr, Nat.succ_mul]
  omega

end NoWrap

/-- An owner is a rank, also when the size of the shards has wrapped around. -/
theorem shardOwner_lt (hP : 0 < P) (hN : N ≤ 2 ^ 64) {e : ℕ} (he : e < N) :
    shardOwner N P e < P := by
  by_cases hzero : shardSize N P = 0
  · rw [shardOwner, if_pos hzero]
    exact hP
  rw [shardOwner, if_neg hzero, Nat.div_lt_iff_lt_mul (Nat.pos_of_ne_zero hzero)]
  by_cases hfit : N + P ≤ 2 ^ 64
  · exact lt_of_lt_of_le he (le_mul_shardSize hP hfit)
  · exact absurd (shardSize_of_wrap hN (not_le.mp hfit)) hzero

variable {r : ℕ} {A B : Finset ℕ}

theorem mem_localPart {e : ℕ} :
    e ∈ localPart N P r A ↔ e < shardExtent N P r ∧ shardBase N P r + e ∈ A := by
  simp [localPart]

theorem localPart_subset_range : localPart N P r A ⊆ Finset.range (shardExtent N P r) :=
  Finset.filter_subset _ _

theorem localPart_mono (h : A ⊆ B) : localPart N P r A ⊆ localPart N P r B := by
  intro e he
  rw [mem_localPart] at he ⊢
  exact ⟨he.1, h he.2⟩

theorem localPart_union : localPart N P r (A ∪ B) = localPart N P r A ∪ localPart N P r B := by
  ext e
  simp only [mem_localPart, Finset.mem_union]
  tauto

theorem localPart_sdiff : localPart N P r (A \ B) = localPart N P r A \ localPart N P r B := by
  ext e
  simp only [mem_localPart, Finset.mem_sdiff]
  tauto

theorem localPart_empty : localPart N P r ∅ = ∅ := by
  ext e
  simp [mem_localPart]

variable (hP : 0 < P) (hfit : N + P ≤ 2 ^ 64) (hA : A ⊆ Finset.range N)
include hP hfit hA

theorem card_localPart (hr : r < P) :
    (localPart N P r A).card = (A.filter fun e => shardOwner N P e = r).card := by
  have himage : (localPart N P r A).image (shardBase N P r + ·) =
      A.filter fun e => shardOwner N P e = r := by
    ext e
    simp only [Finset.mem_image, mem_localPart, Finset.mem_filter]
    constructor
    · intro h
      obtain ⟨x, ⟨hx, hxA⟩, rfl⟩ := h
      refine ⟨hxA, (shardOwner_eq_iff hP hfit (Finset.mem_range.mp (hA hxA)) hr).mpr ?_⟩
      unfold shardExtent at hx
      omega
    · intro h
      obtain ⟨heA, howner⟩ := h
      have hrange := (shardOwner_eq_iff hP hfit (Finset.mem_range.mp (hA heA)) hr).mp howner
      refine ⟨e - shardBase N P r, ⟨?_, ?_⟩, ?_⟩
      · unfold shardExtent
        omega
      · rw [Nat.add_sub_cancel' hrange.1]
        exact heA
      · omega
  rw [← himage, Finset.card_image_of_injective _ (add_right_injective _)]

/-- The local parts of a set add up to it. -/
theorem sum_card_localPart : ∑ r : Fin P, (localPart N P r A).card = A.card := by
  have hparts : ∀ r : Fin P, (localPart N P r A).card =
      (A.filter fun e => shardOwner N P e = r).card := fun r => card_localPart hP hfit hA r.isLt
  simp only [hparts]
  have hfiber := Finset.card_eq_sum_card_fiberwise (f := fun e => shardOwner N P e) (s := A)
    (t := Finset.range P) fun e he => Finset.mem_coe.mpr
      (Finset.mem_range.mpr (shardOwner_lt hP (by omega) (Finset.mem_range.mp (hA he))))
  rw [hfiber, Finset.sum_range]

end PatternSearch.Shards
