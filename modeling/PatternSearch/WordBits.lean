import Mathlib.Data.Finset.Lattice.Lemmas
import Mathlib.Data.Finset.Card
import Mathlib.Data.Finset.Range
import Mathlib.Data.List.GetD
import Mathlib.Tactic.ByCases
import PatternSearch.Machine

/-!
Dense bitsets stored as 64-bit words, with the index arithmetic of the C++ code: the word
of an id is its value shifted right by 6, the bit inside the word its low 6 bits.
`Represents` ties the words to the set they stand for.
-/

namespace PatternSearch.WordBits

open Machine

abbrev Word := BitVec 64

/-- How many words hold the given number of bits. -/
def wordsFor (numBits : ℕ) : ℕ := (numBits + 63) / 64

/-- `words[id >> 6] |= 1 << (id & 63)`. -/
def setBit (words : List Word) (id : ℕ) : List Word :=
  words.modify (id >>> 6) fun w => w ||| (1#64 <<< (id &&& 63))

/-- `(words[id >> 6] >> (id & 63)) & 1`. -/
def testBit (words : List Word) (id : ℕ) : Bool :=
  ((words.getD (id >>> 6) 0#64) >>> (id &&& 63)) &&& 1#64 != 0#64

def readBit (words : List Word) (id : ℕ) : Except Fault Bool :=
  if id >>> 6 < words.length then .ok (testBit words id) else .error .outOfBounds

def writeBit (words : List Word) (id : ℕ) : Except Fault (List Word) :=
  if id >>> 6 < words.length then .ok (setBit words id) else .error .outOfBounds

/-- The number of set bits. -/
def countBits (words : List Word) : ℕ :=
  ((List.range (64 * words.length)).filter (testBit words)).length

/-- Words that hold exactly the bits of a set of ids below n. -/
structure Represents (words : List Word) (n : ℕ) (C : Finset ℕ) : Prop where
  length_eq : words.length = wordsFor n
  subset_range : C ⊆ Finset.range n
  test_eq : ∀ id, testBit words id = decide (id ∈ C)

theorem shiftRight_and_one_ne_zero (w : Word) (i : ℕ) :
    (w >>> i &&& 1#64 != 0#64) = w.getLsbD i := by
  have hbit : (w >>> i &&& 1#64).getLsbD 0 = w.getLsbD i := by
    simp
  cases hw : w.getLsbD i with
  | true =>
    rw [bne_iff_ne]
    intro hzero
    rw [hzero, hw] at hbit
    simp at hbit
  | false =>
    rw [bne_eq_false_iff_eq]
    apply BitVec.eq_of_getLsbD_eq
    intro j hj
    rw [BitVec.getLsbD_and, BitVec.getLsbD_one, BitVec.getLsbD_ushiftRight]
    by_cases h0 : j = 0
    · subst j
      simp [hw]
    · simp [h0]

theorem testBit_eq_getLsbD (words : List Word) (id : ℕ) :
    testBit words id = (words.getD (id >>> 6) 0#64).getLsbD (id &&& 63) :=
  shiftRight_and_one_ne_zero _ _

theorem and_63_eq_mod (id : ℕ) : id &&& 63 = id % 64 := Nat.and_two_pow_sub_one_eq_mod id 6

theorem shiftRight_6_eq_div (id : ℕ) : id >>> 6 = id / 64 := Nat.shiftRight_eq_div_pow id 6

/-- An id below the number of bits has its word in range. -/
theorem shiftRight_lt_wordsFor {id n : ℕ} (h : id < n) : id >>> 6 < wordsFor n := by
  rw [shiftRight_6_eq_div]
  unfold wordsFor
  omega

@[simp] theorem length_setBit (words : List Word) (id : ℕ) :
    (setBit words id).length = words.length := by
  simp [setBit]

theorem testBit_replicate_zero (n id : ℕ) : testBit (List.replicate n 0#64) id = false := by
  have hword : (List.replicate n 0#64).getD (id >>> 6) 0#64 = 0#64 := by
    rw [List.getD_eq_getElem?_getD, List.getElem?_replicate]
    by_cases h : id >>> 6 < n
    · simp [h]
    · simp [h]
  rw [testBit_eq_getLsbD, hword, BitVec.getLsbD_zero]

theorem testBit_setBit (words : List Word) {id : ℕ} (hid : id >>> 6 < words.length) (e : ℕ) :
    testBit (setBit words id) e = (testBit words e || decide (e = id)) := by
  have hget : words[id >>> 6]? = some words[id >>> 6] := List.getElem?_eq_getElem hid
  rw [testBit_eq_getLsbD, testBit_eq_getLsbD, setBit, List.getD_eq_getElem?_getD,
    List.getElem?_modify, List.getD_eq_getElem?_getD]
  by_cases hword : id >>> 6 = e >>> 6
  · simp only [if_pos hword]
    rw [← hword, hget]
    simp only [Option.map_eq_map, Option.map_some, Option.getD_some, BitVec.getLsbD_or,
      BitVec.getLsbD_shiftLeft, BitVec.getLsbD_one]
    congr 1
    rw [shiftRight_6_eq_div, shiftRight_6_eq_div] at hword
    simp only [and_63_eq_mod]
    by_cases heq : e = id
    · subst e
      simp
      omega
    · have hne : e % 64 - id % 64 ≠ 0 ∨ e % 64 < id % 64 := by omega
      rw [decide_eq_false heq]
      rcases hne with hne | hlt
      · simp [hne]
      · simp [hlt]
  · have heq : e ≠ id := fun h => hword (by rw [h])
    simp only [if_neg hword, Option.map_eq_map, Option.map_id', decide_eq_false heq, Bool.or_false]

namespace Represents

variable {words : List Word} {n : ℕ} {C : Finset ℕ}

theorem empty (n : ℕ) : Represents (List.replicate (wordsFor n) 0#64) n ∅ where
  length_eq := List.length_replicate
  subset_range := Finset.empty_subset _
  test_eq id := by
    rw [testBit_replicate_zero]
    exact (decide_eq_false (Finset.notMem_empty id)).symm

theorem setBit (h : Represents words n C) {id : ℕ} (hid : id < n) :
    Represents (setBit words id) n (insert id C) where
  length_eq := by rw [length_setBit, h.length_eq]
  subset_range := Finset.insert_subset (Finset.mem_range.mpr hid) h.subset_range
  test_eq e := by
    rw [testBit_setBit words (h.length_eq ▸ shiftRight_lt_wordsFor hid), h.test_eq]
    simp only [Finset.mem_insert, Bool.decide_or]
    exact Bool.or_comm _ _

/-- Setting a list of bits adds its members, whatever the order and the repetitions. -/
theorem foldl_setBit (h : Represents words n C) (ids : List ℕ) (hids : ∀ id ∈ ids, id < n) :
    Represents (ids.foldl WordBits.setBit words) n (C ∪ ids.toFinset) := by
  induction ids generalizing words C with
  | nil =>
    rw [List.toFinset_nil, Finset.union_empty]
    exact h
  | cons id ids ih =>
    have hhead := h.setBit (hids id (List.mem_cons_self ..))
    have htail := ih hhead fun e he => hids e (List.mem_cons_of_mem _ he)
    have hunion : C ∪ (id :: ids).toFinset = insert id C ∪ ids.toFinset := by
      ext e
      simp only [List.toFinset_cons, Finset.mem_union, Finset.mem_insert]
      tauto
    rw [List.foldl_cons, hunion]
    exact htail

/-- The words of a set are determined. -/
theorem unique {words' : List Word} (h : Represents words n C) (h' : Represents words' n C) :
    words = words' := by
  apply List.ext_getElem (h.length_eq.trans h'.length_eq.symm)
  intro k hk hk'
  apply BitVec.eq_of_getLsbD_eq
  intro i hi
  have hbit := (h.test_eq (64 * k + i)).trans (h'.test_eq (64 * k + i)).symm
  have hword : (64 * k + i) >>> 6 = k := by
    rw [shiftRight_6_eq_div]
    omega
  have hpos : (64 * k + i) &&& 63 = i := by
    rw [and_63_eq_mod]
    omega
  rw [testBit_eq_getLsbD, testBit_eq_getLsbD, hword, hpos, List.getD_eq_getElem _ _ hk,
    List.getD_eq_getElem _ _ hk'] at hbit
  exact hbit

theorem countBits_eq (h : Represents words n C) : countBits words = C.card := by
  have hbits : (List.range (64 * words.length)).filter (testBit words) =
      (List.range (64 * words.length)).filter fun id => id ∈ C := by
    apply List.filter_congr
    intro id _
    exact h.test_eq id
  rw [countBits, hbits, ← List.toFinset_card_of_nodup (List.nodup_range.filter _)]
  congr 1
  ext id
  simp only [List.mem_toFinset, List.mem_filter, List.mem_range, decide_eq_true_eq,
    and_iff_right_iff_imp]
  intro hid
  have hlt := Finset.mem_range.mp (h.subset_range hid)
  rw [h.length_eq]
  unfold wordsFor
  omega

theorem word_lt_length (h : Represents words n C) {id : ℕ} (hid : id < n) :
    id >>> 6 < words.length := h.length_eq ▸ shiftRight_lt_wordsFor hid

theorem readBit_eq_ok (h : Represents words n C) {id : ℕ} (hid : id < n) :
    readBit words id = .ok (decide (id ∈ C)) := by
  rw [readBit, if_pos (h.word_lt_length hid), h.test_eq]

theorem writeBit_eq_ok (h : Represents words n C) {id : ℕ} (hid : id < n) :
    writeBit words id = .ok (WordBits.setBit words id) := if_pos (h.word_lt_length hid)

end Represents

end PatternSearch.WordBits
