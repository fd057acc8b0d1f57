import PatternSearch.BruteForce
import PatternSearch.SetBits
import PatternSearch.SortedLists

/-!
`DenseBitset` as a finite set of ids. Whatever sequence of operations built a bitset, its tests,
counts and list of ids are those of the set that the operations describe, and the loop over the
set bits of a word ends. The number of words is computed in 64 bits: rounding up wraps around
for the last 63 sizes, which get no words at all.
-/

namespace PatternSearch.Bitset

open Machine Csr Loops WordBits SetBits BruteForce
open SortedLists (eq_of_pairwise_lt_of_mem_iff)

/-- `(num_bits + 63) / 64` on uint64. -/
def wordsFor (numBits : ℕ) : ℕ := (numBits + 63) % 2 ^ 64 / 64

def construct (numBits : ℕ) : DenseBitset := .zeros numBits (wordsFor numBits)

/-- Nothing is kept of the old words. -/
def resize (_b : DenseBitset) (numBits : ℕ) : DenseBitset := .zeros numBits (wordsFor numBits)

def clear (b : DenseBitset) : DenseBitset := { b with words := b.words.map fun _ => 0#64 }

/-- `f` on the words of two bitsets that have to have one size. -/
def zipWords (f : Word → Word → Word) (b other : DenseBitset) : Except Fault (List Word) :=
  if b.numBits ≠ other.numBits then .error .contract
  else if other.words.length < b.words.length then .error .outOfBounds
  else .ok (List.zipWith f b.words other.words)

def orInplace (b other : DenseBitset) : Except Fault DenseBitset := do
  let words ← zipWords (· ||| ·) b other
  return { b with words }

/-- The sum of the population counts of the words, on uint64. -/
def countWords (words : List Word) : ℕ :=
  words.foldl (fun total w => (total + w.cpop.toNat) % 2 ^ 64) 0

def popcount (b : DenseBitset) : ℕ := countWords b.words

def popcountIntersect (b other : DenseBitset) : Except Fault ℕ := do
  let words ← zipWords (· &&& ·) b other
  return countWords words

def popcountIntersectWithIds (b : DenseBitset) (ids : List ElementId) : Except Fault ℕ :=
  ids.foldlM (fun total id => do
    let bit ← b.test id
    return (total + bit.toNat) % 2 ^ 64) 0

/-- One turn of the loop over the set bits of a word. -/
def emitLowest (base : ℕ) (s : Word × List ElementId) :
    Except Fault ((Word × List ElementId) ⊕ List ElementId) :=
  if s.1 ≠ 0#64 then
    .ok (.inl (clearLowest s.1, s.2 ++ [(base + s.1.ctz.toNat) % 2 ^ 64]))
  else .ok (.inr s.2)

/-- The old entries of out are dropped. -/
def collectSetIds (fuel : ℕ) (b : DenseBitset) (out : List ElementId) :
    Except Fault (List ElementId) :=
  (List.range b.words.length).foldlM (fun out wi =>
    loop (emitLowest (wi * 64 % 2 ^ 64)) fuel (b.words.getD wi 0#64, out)) (out.take 0)

section Words

variable {words words' : List Word} {n : ℕ} {C C' : Finset ℕ}

/-- The ids of the set bits, word by word. -/
def bitIds (words : List Word) : List ℕ :=
  (List.range words.length).flatMap fun wi =>
    (setBits (words.getD wi 0#64)).map fun i => wi * 64 + i

theorem mem_bitIds {id : ℕ} : id ∈ bitIds words ↔ testBit words id = true := by
  rw [testBit_eq_getLsbD, shiftRight_6_eq_div, and_63_eq_mod]
  simp only [bitIds, List.mem_flatMap, List.mem_range, List.mem_map, mem_setBits]
  constructor
  · rintro ⟨wi, _, i, hi, rfl⟩
    have hlt : i < 64 := BitVec.lt_of_getLsbD hi
    have hword : (wi * 64 + i) / 64 = wi := by omega
    have hbit : (wi * 64 + i) % 64 = i := by omega
    rw [hword, hbit]
    exact hi
  · intro hbit
    refine ⟨id / 64, ?_, id % 64, hbit, by omega⟩
    by_contra hge
    rw [List.getD_eq_default _ _ (not_lt.mp hge), BitVec.getLsbD_zero] at hbit
    exact Bool.noConfusion hbit

theorem pairwise_bitIds (words : List Word) : (bitIds words).Pairwise (· < ·) := by
  rw [bitIds, List.pairwise_flatMap]
  constructor
  · intro wi _
    rw [List.pairwise_map]
    exact (pairwise_setBits _).imp fun hij => Nat.add_lt_add_left hij _
  · refine List.pairwise_lt_range.imp fun hlt => ?_
    intro a ha b hb
    obtain ⟨i, hi, rfl⟩ := List.mem_map.mp ha
    obtain ⟨j, _, rfl⟩ := List.mem_map.mp hb
    have hi64 : i < 64 := BitVec.lt_of_getLsbD (mem_setBits.mp hi)
    omega

theorem length_bitIds (words : List Word) :
    (bitIds words).length = (words.map fun w => w.cpop.toNat).sum := by
  have hwords := map_getD_range words 0#64
  conv_rhs => rw [← hwords]
  rw [bitIds, List.length_flatMap, List.map_map]
  simp only [List.length_map, length_setBits]
  rfl

/-- The sum of the counts, as long as it fits. -/
theorem countWords_eq (h : (bitIds words).length < 2 ^ 64) :
    countWords words = (bitIds words).length := by
  have hfold : ∀ (ws : List Word) (total : ℕ),
      total + (ws.map fun w => w.cpop.toNat).sum < 2 ^ 64 →
      ws.foldl (fun total w => (total + w.cpop.toNat) % 2 ^ 64) total =
        total + (ws.map fun w => w.cpop.toNat).sum := by
    intro ws
    induction ws with
    | nil => intro total _; rfl
    | cons w ws ih =>
      intro total htotal
      rw [List.map_cons, List.sum_cons] at htotal ⊢
      rw [List.foldl_cons, Nat.mod_eq_of_lt (by omega), ih _ (by omega), Nat.add_assoc]
  rw [length_bitIds] at h ⊢
  rw [countWords, hfold words 0 (by omega), Nat.zero_add]

/-- The set bits of words that represent a set are its members. -/
theorem mem_bitIds_iff (h : Represents words n C) {id : ℕ} : id ∈ bitIds words ↔ id ∈ C := by
  rw [mem_bitIds, h.test_eq, decide_eq_true_eq]

theorem length_bitIds_eq_card (h : Represents words n C) : (bitIds words).length = C.card := by
  have hnodup : (bitIds words).Nodup := (pairwise_bitIds words).imp fun hlt => ne_of_lt hlt
  rw [← List.toFinset_card_of_nodup hnodup]
  congr 1
  ext id
  rw [List.mem_toFinset, mem_bitIds_iff h]

theorem getLsbD_zipWith {f : Word → Word → Word} {g : Bool → Bool → Bool}
    (hbit : ∀ a b i, (f a b).getLsbD i = g (a.getLsbD i) (b.getLsbD i))
    (hg : g false false = false) (hlen : words.length = words'.length) (k i : ℕ) :
    ((List.zipWith f words words').getD k 0#64).getLsbD i =
      g ((words.getD k 0#64).getLsbD i) ((words'.getD k 0#64).getLsbD i) := by
  rcases lt_or_ge k words.length with hk | hk
  · have hk' : k < words'.length := hlen ▸ hk
    have hzip : k < (List.zipWith f words words').length := by
      rw [List.length_zipWith]
      exact lt_min hk hk'
    rw [List.getD_eq_getElem _ _ hzip, List.getElem_zipWith, List.getD_eq_getElem _ _ hk,
      List.getD_eq_getElem _ _ hk', hbit]
  · have hzip : (List.zipWith f words words').length ≤ k := by
      rw [List.length_zipWith]
      exact le_trans (min_le_left _ _) hk
    rw [List.getD_eq_default _ _ hzip, List.getD_eq_default _ _ hk,
      List.getD_eq_default _ _ (hlen ▸ hk), BitVec.getLsbD_zero, hg]

theorem represents_or (h : Represents words n C) (h' : Represents words' n C') :
    Represents (List.zipWith (· ||| ·) words words') n (C ∪ C') where
  length_eq := by
    rw [List.length_zipWith, h.length_eq, h'.length_eq, min_self]
  subset_range := Finset.union_subset h.subset_range h'.subset_range
  test_eq id := by
    have hlen := h.length_eq.trans h'.length_eq.symm
    rw [testBit_eq_getLsbD, getLsbD_zipWith (fun a b i => BitVec.getLsbD_or) rfl hlen,
      ← testBit_eq_getLsbD, ← testBit_eq_getLsbD, h.test_eq, h'.test_eq]
    simp only [Finset.mem_union, Bool.decide_or]

theorem represents_and (h : Represents words n C) (h' : Represents words' n C') :
    Represents (List.zipWith (· &&& ·) words words') n (C ∩ C') where
  length_eq := by
    rw [List.length_zipWith, h.length_eq, h'.length_eq, min_self]
  subset_range := Finset.inter_subset_left.trans h.subset_range
  test_eq id := by
    have hlen := h.length_eq.trans h'.length_eq.symm
    rw [testBit_eq_getLsbD, getLsbD_zipWith (fun a b i => BitVec.getLsbD_and) rfl hlen,
      ← testBit_eq_getLsbD, ← testBit_eq_getLsbD, h.test_eq, h'.test_eq]
    simp only [Finset.mem_inter, Bool.decide_and]

theorem map_const_zero (words : List Word) :
    words.map (fun _ => 0#64) = List.replicate words.length 0#64 := by
  rw [List.map_const']

end Words

section Loop

/-- The loop over the set bits of a word ends after as many turns as there are set bits. -/
theorem loop_emitLowest {base : ℕ} (hbase : base + 64 ≤ 2 ^ 64) {w : Word} {fuel : ℕ}
    (hfuel : (setBits w).length < fuel) (out : List ElementId) :
    loop (emitLowest base) fuel (w, out) = .ok (out ++ (setBits w).map fun i => base + i) := by
  induction fuel generalizing w out with
  | zero => exact absurd hfuel (Nat.not_lt_zero _)
  | succ fuel ih =>
    rcases eq_or_ne w 0#64 with rfl | hw
    · have hstep : emitLowest base (0#64, out) = .ok (.inr out) := if_neg (not_not.mpr rfl)
      rw [loop_of_leave fuel hstep, setBits_zero]
      simp
    · have hcons := setBits_eq_cons hw
      have hctz := ctz_lt hw
      have hfit : (base + w.ctz.toNat) % 2 ^ 64 = base + w.ctz.toNat :=
        Nat.mod_eq_of_lt (by omega)
      have hshorter : (setBits (clearLowest w)).length < fuel := by
        rw [hcons, List.length_cons] at hfuel
        omega
      have hstep : emitLowest base (w, out) =
          .ok (.inl (clearLowest w, out ++ [(base + w.ctz.toNat) % 2 ^ 64])) := if_pos hw
      rw [loop_of_continue fuel hstep, ih hshorter, hfit, hcons]
      simp

theorem length_setBits_le (w : Word) : (setBits w).length ≤ 64 :=
  le_trans (List.length_filter_le _ _) (le_of_eq List.length_range)

/-- The old entries are dropped and the ids of the set bits are listed. -/
theorem collectSetIds_eq_ok {b : DenseBitset} (hwords : b.words.length * 64 ≤ 2 ^ 64) {fuel : ℕ}
    (hfuel : 64 < fuel) (out : List ElementId) :
    collectSetIds fuel b out = .ok (bitIds b.words) := by
  have hfold : ∀ (range : List ℕ), (∀ wi ∈ range, wi < b.words.length) → ∀ out,
      range.foldlM (fun out wi =>
        loop (emitLowest (wi * 64 % 2 ^ 64)) fuel (b.words.getD wi 0#64, out)) out =
      .ok (out ++ range.flatMap fun wi =>
        (setBits (b.words.getD wi 0#64)).map fun i => wi * 64 + i) := by
    intro range
    induction range with
    | nil => intro _ out; simp
    | cons wi range ih =>
      intro hrange out
      have hwi := hrange wi (List.mem_cons_self ..)
      have hbase : wi * 64 % 2 ^ 64 = wi * 64 := Nat.mod_eq_of_lt (by omega)
      have hbits := length_setBits_le (b.words.getD wi 0#64)
      have hword := loop_emitLowest (by omega : wi * 64 + 64 ≤ 2 ^ 64)
        (lt_of_le_of_lt hbits hfuel) out
      rw [List.foldlM_cons, hbase, hword, ok_bind,
        ih fun j hj => hrange j (List.mem_cons_of_mem _ hj), List.flatMap_cons, List.append_assoc]
  rw [collectSetIds, hfold _ (fun wi hwi => List.mem_range.mp hwi), List.take_zero, List.nil_append,
    bitIds]

end Loop

section Probe

variable {b : DenseBitset} {C : Finset ℕ}

/-- Every position of the list is counted, also when an id comes twice. -/
theorem popcountIntersectWithIds_eq_ok (hb : Represents b.words b.numBits C) {ids : List ElementId}
    (hids : ∀ id ∈ ids, id < b.numBits) (hlen : ids.length < 2 ^ 64) :
    popcountIntersectWithIds b ids = .ok (ids.countP fun id => id ∈ C) := by
  have hfold : ∀ (ids : List ElementId) (total : ℕ), (∀ id ∈ ids, id < b.numBits) →
      total + ids.length < 2 ^ 64 →
      ids.foldlM (fun total id => do
        let bit ← b.test id
        return (total + bit.toNat) % 2 ^ 64) total = .ok (total + ids.countP fun id => id ∈ C) := by
    intro ids
    induction ids with
    | nil => intro total _ _; rfl
    | cons id ids ih =>
      intro total hids htotal
      have htest : b.test id = .ok (decide (id ∈ C)) :=
        hb.readBit_eq_ok (hids id (List.mem_cons_self ..))
      have hone := Bool.toNat_le (decide (id ∈ C))
      rw [List.length_cons] at htotal
      rw [List.foldlM_cons, htest, ok_bind, pure_eq_ok, ok_bind, Nat.mod_eq_of_lt (by omega),
        ih _ (fun e he => hids e (List.mem_cons_of_mem _ he)) (by omega), List.countP_cons]
      by_cases hid : id ∈ C
      · simp only [hid, decide_true, Bool.toNat_true, if_true]
        rw [Nat.add_assoc, Nat.add_comm 1]
      · simp only [hid, decide_false, Bool.toNat_false, Bool.false_eq_true, if_false,
          Nat.add_zero]
  rw [popcountIntersectWithIds, hfold ids 0 hids (by omega), Nat.zero_add]

end Probe

section Fits

variable {n : ℕ}

/-- The size can be rounded up without wrapping around. -/
def SizeFits (n : ℕ) : Prop := n + 63 < 2 ^ 64

theorem wordsFor_eq (h : SizeFits n) : wordsFor n = WordBits.wordsFor n := by
  unfold SizeFits at h
  rw [wordsFor, WordBits.wordsFor, Nat.mod_eq_of_lt h]

/-- The other sizes of 64 bits get no words. -/
theorem wordsFor_eq_zero (hn : n < 2 ^ 64) (h : ¬ SizeFits n) : wordsFor n = 0 := by
  unfold SizeFits at h
  unfold wordsFor
  omega

/-- What the operations of a bitset say about the set that it stands for. -/
structure Implements (b : DenseBitset) (n : ℕ) (C : Finset ℕ) : Prop where
  numBits_eq : b.numBits = n
  test_eq : ∀ id < n, b.test id = .ok (decide (id ∈ C))
  popcount_eq : popcount b = C.card
  withIds_eq : ∀ ids : List ElementId, ids.length < 2 ^ 64 → (∀ id ∈ ids, id < n) →
    popcountIntersectWithIds b ids = .ok (ids.countP fun id => id ∈ C)
  collect_eq : ∃ ids : List ElementId, ids.Pairwise (· < ·) ∧ (∀ id, id ∈ ids ↔ id ∈ C) ∧
    ∀ fuel out, 64 < fuel → collectSetIds fuel b out = .ok ids

theorem card_lt (hn : SizeFits n) {C : Finset ℕ} (hC : C ⊆ Finset.range n) : C.card < 2 ^ 64 := by
  have hcard := Finset.card_le_card hC
  rw [Finset.card_range] at hcard
  unfold SizeFits at hn
  omega

theorem countWords_eq_card (hn : SizeFits n) {words : List Word} {C : Finset ℕ}
    (h : Represents words n C) : countWords words = C.card := by
  have hlen := length_bitIds_eq_card h
  rw [← hlen]
  exact countWords_eq (hlen ▸ card_lt hn h.subset_range)

theorem implements_of_represents {b : DenseBitset} {C : Finset ℕ} (hn : SizeFits n)
    (hsize : b.numBits = n) (h : Represents b.words n C) : Implements b n C := by
  subst hsize
  have hroom : b.words.length * 64 ≤ 2 ^ 64 := by
    rw [h.length_eq, WordBits.wordsFor]
    unfold SizeFits at hn
    omega
  refine ⟨rfl, fun id hid => h.readBit_eq_ok hid, countWords_eq_card hn h,
    fun ids hlen hids => popcountIntersectWithIds_eq_ok h hids hlen, bitIds b.words,
    pairwise_bitIds _, fun id => mem_bitIds_iff h, fun fuel out hfuel => ?_⟩
  exact collectSetIds_eq_ok hroom hfuel out

theorem zipWords_eq_ok {b other : DenseBitset} {C C' : Finset ℕ} (f : Word → Word → Word)
    (hsize : b.numBits = other.numBits) (h : Represents b.words n C)
    (h' : Represents other.words n C') :
    zipWords f b other = .ok (List.zipWith f b.words other.words) := by
  have hlen := h.length_eq.trans h'.length_eq.symm
  unfold zipWords
  rw [if_neg (not_not.mpr hsize), if_neg (by omega)]

end Fits

/-- How a bitset came about; what is or-ed into it has a history of its own. -/
inductive Script
  | construct (numBits : ℕ)
  | resize (s : Script) (numBits : ℕ)
  | clear (s : Script)
  | set (s : Script) (id : ElementId)
  | orInplace (s other : Script)

namespace Script

def run : Script → Except Fault DenseBitset
  | construct numBits => .ok (Bitset.construct numBits)
  | resize s numBits => do
    let b ← run s
    return Bitset.resize b numBits
  | clear s => do
    let b ← run s
    return Bitset.clear b
  | set s id => do
    let b ← run s
    b.set id
  | orInplace s other => do
    let b ← run s
    let o ← run other
    Bitset.orInplace b o

def size : Script → ℕ
  | construct numBits => numBits
  | resize _ numBits => numBits
  | clear s => s.size
  | set s _ => s.size
  | orInplace s _ => s.size

/-- The set that the operations describe. -/
def members : Script → Finset ℕ
  | construct _ => ∅
  | resize _ _ => ∅
  | clear _ => ∅
  | set s id => insert id s.members
  | orInplace s other => s.members ∪ other.members

/-- Sizes are 64-bit numbers, ids lie below the size, and or-ed bitsets have one size. -/
def Legal : Script → Prop
  | construct numBits => numBits < 2 ^ 64
  | resize s numBits => s.Legal ∧ numBits < 2 ^ 64
  | clear s => s.Legal
  | set s id => s.Legal ∧ id < s.size
  | orInplace s other => s.Legal ∧ other.Legal ∧ s.size = other.size

/-- The bitset after every operation so far. -/
def states : Script → List Script
  | construct numBits => [construct numBits]
  | resize s numBits => resize s numBits :: s.states
  | clear s => clear s :: s.states
  | set s id => set s id :: s.states
  | orInplace s other => orInplace s other :: (s.states ++ other.states)

/-- Every size that was asked for. -/
def sizes : Script → List ℕ
  | construct numBits => [numBits]
  | resize s numBits => numBits :: s.sizes
  | clear s => s.sizes
  | set s _ => s.sizes
  | orInplace s other => s.sizes ++ other.sizes

/-- The bitset implements the described set, also against any other bitset of its size. -/
def Sound (s : Script) : Prop :=
  ∃ b, s.run = .ok b ∧ Implements b s.size s.members ∧
    ∀ (t : Script) (b' : DenseBitset), t.Legal → t.run = .ok b' → t.size = s.size →
      popcountIntersect b b' = .ok (s.members ∩ t.members).card

theorem size_mem_sizes (s : Script) : s.size ∈ s.sizes := by
  induction s with
  | construct numBits => exact List.mem_singleton_self _
  | resize s numBits _ => exact List.mem_cons_self ..
  | clear s ih => exact ih
  | set s id ih => exact ih
  | orInplace s other ih _ => exact List.mem_append_left _ ih

theorem represents_zeros {n : ℕ} (hn : SizeFits n) :
    Represents (List.replicate (wordsFor n) 0#64) n ∅ := by
  rw [wordsFor_eq hn]
  exact Represents.empty n

/-- A bitset of a size that fits represents the set, whatever sizes it had before. -/
theorem represents_of_run {s : Script} (hs : s.Legal) {b : DenseBitset} (hrun : s.run = .ok b) :
    b.numBits = s.size ∧ (SizeFits s.size → Represents b.words s.size s.members) := by
  induction s generalizing b with
  | construct numBits =>
    cases hrun
    exact ⟨rfl, represents_zeros⟩
  | resize s numBits ih =>
    obtain ⟨b₀, _, h⟩ := bind_eq_ok.mp hrun
    cases h
    exact ⟨rfl, represents_zeros⟩
  | clear s ih =>
    obtain ⟨b₀, hrun₀, h⟩ := bind_eq_ok.mp hrun
    cases h
    obtain ⟨hsize, hrep⟩ := ih hs hrun₀
    refine ⟨hsize, fun (hn : SizeFits s.size) => ?_⟩
    have hwords : (Bitset.clear b₀).words = List.replicate (wordsFor s.size) 0#64 := by
      rw [wordsFor_eq hn, ← (hrep hn).length_eq]
      exact map_const_zero b₀.words
    rw [hwords]
    exact represents_zeros hn
  | set s id ih =>
    obtain ⟨b₀, hrun₀, h⟩ := bind_eq_ok.mp hrun
    obtain ⟨words, hwords, h⟩ := bind_eq_ok.mp h
    cases h
    obtain ⟨hsize, hrep⟩ := ih hs.1 hrun₀
    refine ⟨hsize, fun hn => ?_⟩
    rw [(hrep hn).writeBit_eq_ok hs.2] at hwords
    cases hwords
    exact (hrep hn).setBit hs.2
  | orInplace s other ih ihOther =>
    obtain ⟨b₀, hrun₀, h⟩ := bind_eq_ok.mp hrun
    obtain ⟨b₁, hrun₁, h⟩ := bind_eq_ok.mp h
    obtain ⟨words, hwords, h⟩ := bind_eq_ok.mp h
    cases h
    obtain ⟨hlegal, hother, hsizes⟩ := hs
    obtain ⟨hsize, hrep⟩ := ih hlegal hrun₀
    obtain ⟨hsize', hrep'⟩ := ihOther hother hrun₁
    refine ⟨hsize, fun hn => ?_⟩
    have hright : Represents b₁.words s.size other.members := hsizes ▸ hrep' (hsizes ▸ hn)
    rw [zipWords_eq_ok _ (by rw [hsize, hsize', hsizes]) (hrep hn) hright] at hwords
    cases hwords
    exact represents_or (hrep hn) hright

/-- With sizes that fit no operation stops. -/
theorem exists_run {s : Script} (hs : s.Legal) (hfit : ∀ n ∈ s.sizes, SizeFits n) :
    ∃ b, s.run = .ok b := by
  induction s with
  | construct numBits => exact ⟨_, rfl⟩
  | resize s numBits ih =>
    obtain ⟨b, hb⟩ := ih hs.1 fun n hn => hfit n (List.mem_cons_of_mem _ hn)
    exact ⟨_, by rw [run, hb, ok_bind]; rfl⟩
  | clear s ih =>
    obtain ⟨b, hb⟩ := ih hs hfit
    exact ⟨_, by rw [run, hb, ok_bind]; rfl⟩
  | set s id ih =>
    obtain ⟨b, hb⟩ := ih hs.1 hfit
    have hrep := (represents_of_run hs.1 hb).2 (hfit _ (size_mem_sizes s))
    exact ⟨_, by rw [run, hb, ok_bind, DenseBitset.set, hrep.writeBit_eq_ok hs.2, ok_bind]; rfl⟩
  | orInplace s other ih ihOther =>
    obtain ⟨hlegal, hother, hsizes⟩ := hs
    obtain ⟨b, hb⟩ := ih hlegal fun n hn => hfit n (List.mem_append_left _ hn)
    obtain ⟨o, ho⟩ := ihOther hother fun n hn => hfit n (List.mem_append_right _ hn)
    have hn : SizeFits s.size := hfit _ (List.mem_append_left _ (size_mem_sizes s))
    obtain ⟨hsize, hrep⟩ := represents_of_run hlegal hb
    obtain ⟨hsize', hrep'⟩ := represents_of_run hother ho
    have hright : Represents o.words s.size other.members := hsizes ▸ hrep' (hsizes ▸ hn)
    have hzip := zipWords_eq_ok (· ||| ·) (by rw [hsize, hsize', hsizes]) (hrep hn) hright
    exact ⟨_, by rw [run, hb, ok_bind, ho, ok_bind, Bitset.orInplace, hzip, ok_bind]; rfl⟩

theorem sound_of_sizesFit {s : Script} (hs : s.Legal) (hfit : ∀ n ∈ s.sizes, SizeFits n) :
    s.Sound := by
  obtain ⟨b, hb⟩ := exists_run hs hfit
  have hn : SizeFits s.size := hfit _ (size_mem_sizes s)
  obtain ⟨hsize, hrep⟩ := represents_of_run hs hb
  refine ⟨b, hb, implements_of_represents hn hsize (hrep hn), ?_⟩
  intro t b' ht hb' hsizes
  obtain ⟨hsize', hrep'⟩ := represents_of_run ht hb'
  have hright : Represents b'.words s.size t.members := hsizes ▸ hrep' (hsizes ▸ hn)
  rw [popcountIntersect, zipWords_eq_ok _ (by rw [hsize, hsize', hsizes]) (hrep hn) hright, ok_bind,
    countWords_eq_card hn (represents_and (hrep hn) hright)]
  rfl

/-- The states before an operation have lawful histories and ask for some of its sizes. -/
theorem legal_of_mem_states {s t : Script} (hs : s.Legal) (ht : t ∈ s.states) :
    t.Legal ∧ t.sizes ⊆ s.sizes := by
  induction s with
  | construct numBits =>
    obtain rfl := List.mem_singleton.mp ht
    exact ⟨hs, List.Subset.refl _⟩
  | resize s numBits ih =>
    rcases List.mem_cons.mp ht with rfl | ht
    · exact ⟨hs, List.Subset.refl _⟩
    · exact (ih hs.1 ht).imp_right fun hsub => List.subset_cons_of_subset _ hsub
  | clear s ih =>
    rcases List.mem_cons.mp ht with rfl | ht
    · exact ⟨hs, List.Subset.refl _⟩
    · exact ih hs ht
  | set s id ih =>
    rcases List.mem_cons.mp ht with rfl | ht
    · exact ⟨hs, List.Subset.refl _⟩
    · exact ih hs.1 ht
  | orInplace s other ih ihOther =>
    rcases List.mem_cons.mp ht with rfl | ht
    · exact ⟨hs, List.Subset.refl _⟩
    · rcases List.mem_append.mp ht with ht | ht
      · exact (ih hs.1 ht).imp_right fun hsub => List.subset_append_of_subset_left _ hsub
      · exact (ihOther hs.2.1 ht).imp_right fun hsub => List.subset_append_of_subset_right _ hsub

/-- Right after a size was asked for there are as many zero words as it rounds up to. -/
theorem exists_fresh {s : Script} {n : ℕ} (hn : n ∈ s.sizes) :
    ∃ t ∈ s.states, t.size = n ∧
      ∀ b, t.run = .ok b → b.words = List.replicate (wordsFor n) 0#64 := by
  induction s with
  | construct numBits =>
    obtain rfl := List.mem_singleton.mp hn
    refine ⟨_, List.mem_singleton_self _, rfl, fun b hb => ?_⟩
    cases hb
    rfl
  | resize s numBits ih =>
    rcases List.mem_cons.mp hn with rfl | hn
    · refine ⟨_, List.mem_cons_self .., rfl, fun b hb => ?_⟩
      obtain ⟨_, _, h⟩ := bind_eq_ok.mp hb
      cases h
      rfl
    · obtain ⟨t, ht, hfresh⟩ := ih hn
      exact ⟨t, List.mem_cons_of_mem _ ht, hfresh⟩
  | clear s ih =>
    obtain ⟨t, ht, hfresh⟩ := ih hn
    exact ⟨t, List.mem_cons_of_mem _ ht, hfresh⟩
  | set s id ih =>
    obtain ⟨t, ht, hfresh⟩ := ih hn
    exact ⟨t, List.mem_cons_of_mem _ ht, hfresh⟩
  | orInplace s other ih ihOther =>
    rcases List.mem_append.mp hn with hn | hn
    · obtain ⟨t, ht, hfresh⟩ := ih hn
      exact ⟨t, List.mem_cons_of_mem _ (List.mem_append_left _ ht), hfresh⟩
    · obtain ⟨t, ht, hfresh⟩ := ihOther hn
      exact ⟨t, List.mem_cons_of_mem _ (List.mem_append_right _ ht), hfresh⟩

theorem size_lt {s : Script} (hs : s.Legal) : s.size < 2 ^ 64 := by
  induction s with
  | construct numBits => exact hs
  | resize s numBits _ => exact hs.2
  | clear s ih => exact ih hs
  | set s id ih => exact ih hs.1
  | orInplace s other ih _ => exact ih hs.1

/-- A bitset implements the described set after every operation just when rounding up wraps
around for none of the sizes asked for. -/
theorem sound_states_iff (s : Script) (hs : s.Legal) :
    (∀ t ∈ s.states, t.Sound) ↔ ∀ n ∈ s.sizes, n + 63 < 2 ^ 64 := by
  constructor
  · intro hsound n hn
    obtain ⟨t, ht, rfl, hfresh⟩ := exists_fresh hn
    obtain ⟨b, hb, himpl, _⟩ := hsound t ht
    by_contra hwrap
    have hwords : b.words = [] := by
      rw [hfresh b hb, wordsFor_eq_zero (size_lt (legal_of_mem_states hs ht).1) hwrap]
      rfl
    have htest := himpl.test_eq 0 (by omega)
    have hread : b.test 0 = .error .outOfBounds := by
      rw [DenseBitset.test, hwords]
      rfl
    rw [hread] at htest
    cases htest
  · intro hfit t ht
    obtain ⟨hlegal, hsub⟩ := legal_of_mem_states hs ht
    exact sound_of_sizesFit hlegal fun n hn => hfit n (hsub hn)

theorem sound_states_iff_two_words :
    (orInplace (set (construct 100) 70) (set (construct 100) 5)).Sound := by
  have hlegal : (orInplace (set (construct 100) 70) (set (construct 100) 5)).Legal :=
    ⟨⟨(by decide : 100 < 2 ^ 64), (by decide : 70 < 100)⟩,
      ⟨(by decide : 100 < 2 ^ 64), (by decide : 5 < 100)⟩, rfl⟩
  exact (sound_states_iff _ hlegal).mpr (by decide) _ (List.mem_cons_self ..)

/-- The largest size has room for no id. -/
theorem not_sound_largest :
    (construct (2 ^ 64 - 1)).Legal ∧ (Bitset.construct (2 ^ 64 - 1)).words = [] ∧
      (Bitset.construct (2 ^ 64 - 1)).test 0 = .error .outOfBounds ∧
      ¬ (construct (2 ^ 64 - 1)).Sound := by
  have hwords : (Bitset.construct (2 ^ 64 - 1)).words = [] := by decide
  have htest : (Bitset.construct (2 ^ 64 - 1)).test 0 = .error .outOfBounds := by decide
  refine ⟨(by decide : 2 ^ 64 - 1 < 2 ^ 64), hwords, htest, ?_⟩
  rintro ⟨b, hb, himpl, _⟩
  cases hb
  have hzero := himpl.test_eq 0 (by decide)
  rw [htest] at hzero
  cases hzero

end Script

end PatternSearch.Bitset
