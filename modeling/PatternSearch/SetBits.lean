import Mathlib.Algebra.GroupWithZero.Nat
import Mathlib.Data.List.Sort

/-!
The set bits of a bit vector as an ascending list of positions. Their number is the population
count, and clearing the lowest one takes the head off the list, so a loop that does so visits
them all and ends.
-/

namespace PatternSearch.SetBits

variable {n : ℕ}

def setBits (x : BitVec n) : List ℕ := (List.range n).filter x.getLsbD

/-- The word without its lowest set bit. -/
def clearLowest (x : BitVec n) : BitVec n := x &&& (x - 1#n)

theorem mem_setBits {x : BitVec n} {i : ℕ} : i ∈ setBits x ↔ x.getLsbD i = true := by
  rw [setBits, List.mem_filter, List.mem_range, and_iff_right_iff_imp]
  exact BitVec.lt_of_getLsbD

theorem pairwise_setBits (x : BitVec n) : (setBits x).Pairwise (· < ·) :=
  List.pairwise_lt_range.filter _

theorem setBits_zero : setBits 0#n = [] := by
  rw [setBits, List.filter_eq_nil_iff]
  intro i _
  rw [BitVec.getLsbD_zero]
  exact Bool.false_ne_true

/-- The population count counts the set bits. -/
theorem length_setBits (x : BitVec n) : (setBits x).length = x.cpop.toNat := by
  have hcount : ∀ k, x.cpopNatRec k 0 = ((List.range k).filter x.getLsbD).length := by
    intro k
    induction k with
    | zero => rfl
    | succ k ih =>
      rw [BitVec.cpopNatRec_succ, BitVec.cpopNatRec_add, ih, List.range_succ, List.filter_append,
        List.length_append]
      cases hk : x.getLsbD k <;> simp [hk]
  rw [BitVec.toNat_cpop, hcount, setBits]

section Lowest

variable {x : BitVec n}

theorem ctz_lt (hx : x ≠ 0#n) : x.ctz.toNat < n :=
  BitVec.lt_of_getLsbD (BitVec.getLsbD_true_ctz_of_ne_zero hx)

/-- Below and at the lowest set bit nothing but that bit is set. -/
theorem toNat_mod_two_pow (hx : x ≠ 0#n) :
    x.toNat % 2 ^ (x.ctz.toNat + 1) = 2 ^ x.ctz.toNat := by
  apply Nat.eq_of_testBit_eq
  intro i
  rw [Nat.testBit_mod_two_pow, Nat.testBit_two_pow]
  rcases lt_trichotomy i x.ctz.toNat with hlt | rfl | hgt
  · have hbit : x.toNat.testBit i = false := BitVec.getLsbD_false_of_lt_ctz hlt
    rw [hbit, decide_eq_false (by omega : ¬ x.ctz.toNat = i), Bool.and_false]
  · have hbit : x.toNat.testBit x.ctz.toNat = true := BitVec.getLsbD_true_ctz_of_ne_zero hx
    rw [hbit]
    simp
  · rw [decide_eq_false (by omega : ¬ i < x.ctz.toNat + 1),
      decide_eq_false (by omega : ¬ x.ctz.toNat = i), Bool.false_and]

theorem toNat_sub_one (hx : x ≠ 0#n) : (x - 1#n).toNat = x.toNat - 1 := by
  have hpos : 0 < x.toNat := by
    rw [Nat.pos_iff_ne_zero]
    exact fun hzero => hx (BitVec.eq_of_toNat_eq (by simpa using hzero))
  have hone : (1#n).toNat = 1 := by
    have hn := ctz_lt hx
    rw [BitVec.toNat_ofNat, Nat.mod_eq_of_lt (Nat.one_lt_two_pow (by omega))]
  rw [BitVec.toNat_sub_of_le]
  · rw [hone]
  · rw [BitVec.le_def, hone]
    exact hpos

/-- The subtraction borrows up to the lowest set bit and leaves the bits above alone. -/
theorem getLsbD_clearLowest (hx : x ≠ 0#n) (i : ℕ) :
    (clearLowest x).getLsbD i = (x.getLsbD i && decide (i ≠ x.ctz.toNat)) := by
  generalize hq : x.toNat / 2 ^ (x.ctz.toNat + 1) = q
  have hwhole : x.toNat = 2 ^ (x.ctz.toNat + 1) * q + 2 ^ x.ctz.toNat := by
    rw [← hq, ← toNat_mod_two_pow hx, Nat.div_add_mod]
  have hlt : 2 ^ x.ctz.toNat < 2 ^ (x.ctz.toNat + 1) := Nat.pow_lt_pow_right (by decide) (by omega)
  have hpred : (x - 1#n).toNat = 2 ^ (x.ctz.toNat + 1) * q + (2 ^ x.ctz.toNat - 1) := by
    have hone := Nat.one_le_two_pow (n := x.ctz.toNat)
    rw [toNat_sub_one hx]
    omega
  have hbit : x.getLsbD i = if i < x.ctz.toNat + 1 then (2 ^ x.ctz.toNat).testBit i
      else q.testBit (i - (x.ctz.toNat + 1)) :=
    (congrArg (·.testBit i) hwhole).trans (Nat.testBit_two_pow_mul_add _ hlt i)
  have hpredBit : (x - 1#n).getLsbD i =
      if i < x.ctz.toNat + 1 then (2 ^ x.ctz.toNat - 1).testBit i
      else q.testBit (i - (x.ctz.toNat + 1)) :=
    (congrArg (·.testBit i) hpred).trans (Nat.testBit_two_pow_mul_add _ (by omega) i)
  rw [clearLowest, BitVec.getLsbD_and, hpredBit, hbit]
  by_cases hi : i < x.ctz.toNat + 1
  · rw [if_pos hi, if_pos hi, Nat.testBit_two_pow, Nat.testBit_two_pow_sub_one]
    by_cases heq : x.ctz.toNat = i
    · simp [heq]
    · simp [heq]
  · rw [if_neg hi, if_neg hi, decide_eq_true (by omega : i ≠ x.ctz.toNat)]
    simp

/-- The head of the list is the number of trailing zeros. -/
theorem setBits_eq_cons (hx : x ≠ 0#n) : setBits x = x.ctz.toNat :: setBits (clearLowest x) := by
  have hrest : ∀ i, i ∈ setBits (clearLowest x) ↔ i ∈ setBits x ∧ i ≠ x.ctz.toNat := by
    intro i
    rw [mem_setBits, mem_setBits, getLsbD_clearLowest hx, Bool.and_eq_true, decide_eq_true_eq]
  have hlowest : x.ctz.toNat ∈ setBits x := mem_setBits.mpr (BitVec.getLsbD_true_ctz_of_ne_zero hx)
  have hsorted : (x.ctz.toNat :: setBits (clearLowest x)).Pairwise (· < ·) := by
    refine List.pairwise_cons.mpr ⟨fun i hi => ?_, pairwise_setBits _⟩
    obtain ⟨hmem, hne⟩ := (hrest i).mp hi
    by_contra hle
    have hfalse := BitVec.getLsbD_false_of_lt_ctz (lt_of_le_of_ne (not_lt.mp hle) hne)
    rw [mem_setBits.mp hmem] at hfalse
    exact Bool.noConfusion hfalse
  refine (pairwise_setBits x).eq_of_mem_iff hsorted fun i => ?_
  rw [List.mem_cons, hrest]
  constructor
  · intro hi
    exact (em (i = x.ctz.toNat)).imp_right fun hne => ⟨hi, hne⟩
  · rintro (rfl | ⟨hi, _⟩)
    · exact hlowest
    · exact hi

end Lowest

end PatternSearch.SetBits
