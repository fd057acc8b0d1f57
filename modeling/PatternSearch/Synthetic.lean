import Mathlib.Data.Finset.Card
import Mathlib.Data.Finset.Range
import Mathlib.Data.Int.ModEq
import Mathlib.Data.List.GetD
import Mathlib.Data.Nat.Prime.Basic
import PatternSearch.Csr
import PatternSearch.Loops

/-!
The synthetic generator. The pool of hashes runs a counter with an odd increment through an
injective mix, so its entries differ for every seed and every length. The bounds of both
distributions are in order whatever the overlap formula gives for the region, and the loop that
samples a patch always has an index left to pick.
-/

namespace PatternSearch.Synthetic

open Machine Loops Csr

/-! Steps of bit mixing that lose nothing: over words of any width an exclusive or with the
word shifted right and a product with an odd constant are injective. -/

section Mixing

variable {w : ℕ}

/-- `x ^ (x >> s)`. -/
def xorShift (s : ℕ) (x : BitVec w) : BitVec w := x ^^^ (x >>> s)

/-- From the top down every bit can be read off the result and the bits above it. -/
theorem xorShift_injective {s : ℕ} (hs : 0 < s) :
    Function.Injective (xorShift s : BitVec w → BitVec w) := by
  intro x y hxy
  have hbits : ∀ k i, w ≤ i + k → x.getLsbD i = y.getLsbD i := by
    intro k
    induction k with
    | zero =>
      intro i hi
      rw [BitVec.getLsbD_of_ge x i hi, BitVec.getLsbD_of_ge y i hi]
    | succ k ih =>
      intro i hi
      have hbit := congrArg (·.getLsbD i) hxy
      have habove := ih (s + i) (by omega)
      simp only [xorShift, BitVec.getLsbD_xor, BitVec.getLsbD_ushiftRight, habove] at hbit
      exact Bool.xor_left_inj.mp hbit
  exact BitVec.eq_of_getLsbD_eq fun i _ => hbits w i (by omega)

/-- Odd numbers can be cancelled. -/
theorem cancel_odd {c : ℕ} (hc : c % 2 = 1) {a b : ℕ} (h : a * c % 2 ^ w = b * c % 2 ^ w) :
    a % 2 ^ w = b % 2 ^ w := by
  have hcoprime : Nat.Coprime (2 ^ w) c :=
    Nat.Coprime.pow_left w (Nat.coprime_two_left.mpr (Nat.odd_iff.mpr hc))
  exact Nat.ModEq.cancel_right_of_coprime hcoprime h

theorem mul_odd_injective {c : BitVec w} (hc : c.toNat % 2 = 1) :
    Function.Injective fun x : BitVec w => x * c := by
  intro x y hxy
  have hnat := congrArg BitVec.toNat hxy
  simp only [BitVec.toNat_mul] at hnat
  have hmod := cancel_odd hc hnat
  rw [Nat.mod_eq_of_lt x.isLt, Nat.mod_eq_of_lt y.isLt] at hmod
  exact BitVec.eq_of_toNat_eq hmod

end Mixing

/-- The parameters but the overlap, of which only the rounded size of the region is used. -/
structure SyntheticParams where
  N : Fin (2 ^ 64)
  M : Fin (2 ^ 64)
  kMean : Fin (2 ^ 32)
  seed : BitVec 64

section Pool

def increment : BitVec 64 := 0x9E3779B97F4A7C15#64

/-- The output step of SplitMix64. -/
def mix (z : BitVec 64) : BitVec 64 :=
  let x := xorShift 30 z * 0xBF58476D1CE4E5B9#64
  let x := xorShift 27 x * 0x94D049BB133111EB#64
  xorShift 31 x

/-- One entry of the pool. -/
def nextHash (s : BitVec 64 × List Hash) : BitVec 64 × List Hash :=
  let z := s.1 + increment
  (z, s.2 ++ [(mix z).toFin])

def buildHashPool (N : ℕ) (seed : BitVec 64) : List Hash :=
  ((List.range N).foldl (fun s _ => nextHash s)
    (seed * increment + 0xDEADBEEFCAFEBABE#64, [])).2

theorem mix_injective : Function.Injective mix := by
  have hfirst : Function.Injective fun x : BitVec 64 => x * 0xBF58476D1CE4E5B9#64 :=
    mul_odd_injective (by decide)
  have hsecond : Function.Injective fun x : BitVec 64 => x * 0x94D049BB133111EB#64 :=
    mul_odd_injective (by decide)
  exact (xorShift_injective (by decide)).comp (hsecond.comp ((xorShift_injective (by decide)).comp
    (hfirst.comp (xorShift_injective (by decide)))))

theorem buildHashPool_eq (N : ℕ) (seed : BitVec 64) :
    buildHashPool N seed = (List.range N).map fun i =>
      (mix (seed * increment + 0xDEADBEEFCAFEBABE#64 +
        BitVec.ofNat 64 (i + 1) * increment)).toFin := by
  have hfold : ∀ (n : ℕ) (z : BitVec 64),
      (List.range n).foldl (fun s _ => nextHash s) (z, []) =
        (z + BitVec.ofNat 64 n * increment,
          (List.range n).map fun i =>
            (mix (z + BitVec.ofNat 64 (i + 1) * increment)).toFin) := by
    intro n z
    induction n with
    | zero => simp
    | succ n ih =>
      have hnext : z + BitVec.ofNat 64 n * increment + increment =
          z + BitVec.ofNat 64 (n + 1) * increment := by
        rw [BitVec.ofNat_add, BitVec.add_mul, BitVec.one_mul, BitVec.add_assoc]
      rw [List.range_succ, List.foldl_append, ih, List.map_append]
      simp only [List.foldl_cons, List.foldl_nil, nextHash, hnext, List.map_cons, List.map_nil]
  rw [buildHashPool, hfold]

theorem length_buildHashPool (N : ℕ) (seed : BitVec 64) : (buildHashPool N seed).length = N := by
  rw [buildHashPool_eq, List.length_map, List.length_range]

/-- The entries of the pool differ, for every seed and every length of 64 bits. -/
theorem nodup_buildHashPool {N : ℕ} (hN : N ≤ 2 ^ 64) (seed : BitVec 64) :
    (buildHashPool N seed).Nodup := by
  rw [buildHashPool_eq]
  refine List.Nodup.map_on ?_ List.nodup_range
  intro i hi j hj heq
  have hi' := List.mem_range.mp hi
  have hj' := List.mem_range.mp hj
  have hz := mix_injective (BitVec.toFin_inj.mp heq)
  have hmul := (BitVec.add_right_inj _).mp hz
  have hcounter := mul_odd_injective (by decide) hmul
  have hnat := congrArg BitVec.toNat hcounter
  rw [BitVec.toNat_ofNat, BitVec.toNat_ofNat] at hnat
  omega

end Pool

section Generate

/-- A random engine and the two uniform distributions drawn from it. -/
structure Source (G : Type) where
  init : BitVec 64 → G
  drawIndex : (last : ℕ) → G → ℕ × G
  drawIndex_le : ∀ last g, (drawIndex last g).1 ≤ last
  drawCount : (lo hi : ℤ) → G → ℤ × G
  drawCount_mem : ∀ lo hi g, lo ≤ hi → lo ≤ (drawCount lo hi g).1 ∧ (drawCount lo hi g).1 ≤ hi

/-- The order in which the unordered set of each patch is traversed. -/
structure Traversal where
  order : ℕ → List ℕ → List ℕ
  order_perm : ∀ patch picked, (order patch picked).Perm picked

def kFloor (p : SyntheticParams) : ℕ := max 1 p.kMean

/-- `region`: the overlap formula after its conversion to uint64. -/
def regionSize (p : SyntheticParams) (region : Fin (2 ^ 64)) : ℕ :=
  min p.N (max (kFloor p) region)

/-- `region_size - 1` on uint64. -/
def lastIndex (p : SyntheticParams) (region : Fin (2 ^ 64)) : ℕ :=
  (regionSize p region + (2 ^ 64 - 1)) % 2 ^ 64

def kMin (p : SyntheticParams) : ℤ := max 1 ((p.kMean : ℕ) - (p.kMean : ℕ) / 4 : ℕ)

def kMaxPre (p : SyntheticParams) : ℤ := (p.kMean : ℕ) + ((p.kMean : ℕ) / 4 : ℕ)

def kCap (p : SyntheticParams) (region : Fin (2 ^ 64)) : ℤ := toInt64 (regionSize p region)

def kMax (p : SyntheticParams) (region : Fin (2 ^ 64)) : ℤ :=
  max (kMin p) (min (kMaxPre p) (kCap p region))

/-- The comparison converts k_min to uint64. -/
def checkRegion (p : SyntheticParams) (region : Fin (2 ^ 64)) : Except Fault Unit :=
  if regionSize p region < (kMin p % 2 ^ 64).toNat then
    .error (.throws (.invalidArgument
      ("generate_synthetic: N=" ++ toString (p.N : ℕ) ++ " is too small for K=" ++
        toString (p.kMean : ℕ) ++ " (each patch needs at least " ++ toString (kMin p) ++
        " distinct elements)")))
  else .ok ()

/-- A distribution needs bounds in order. -/
def checkBounds (lo hi : ℤ) : Except Fault Unit :=
  if lo ≤ hi then .ok () else .error .contract

variable {G : Type}

/-- One turn of the sampling loop; the set keeps its elements in the order of their insertion. -/
def pickStep (src : Source G) (last : ℕ) (k : ℤ) (s : List ℕ × G) :
    Except Fault ((List ℕ × G) ⊕ (List ℕ × G)) :=
  if toInt64 s.1.length < k then
    let draw := src.drawIndex last s.2
    .ok (.inl (if draw.1 ∈ s.1 then s.1 else s.1 ++ [draw.1], draw.2))
  else .ok (.inr s)

def readPool (pool : List Hash) (idx : ℕ) : Except Fault Hash :=
  if h : idx < pool.length then .ok (pool.get ⟨idx, h⟩) else .error .outOfBounds

def generatePatch (src : Source G) (order : List ℕ → List ℕ) (pool : List Hash) (last : ℕ)
    (lo hi : ℤ) (fuel : ℕ) (g : G) : Except Fault (List Hash × G) := do
  let draw := src.drawCount lo hi g
  let s ← loop (pickStep src last draw.1) fuel ([], draw.2)
  let out ← (order s.1).mapM (readPool pool)
  return (out, s.2)

/-- One turn of the loop over the patches. -/
def addPatch (src : Source G) (walk : Traversal) (p : SyntheticParams) (region : Fin (2 ^ 64))
    (fuel : ℕ) (acc : List (List Hash) × G) (patch : ℕ) : Except Fault (List (List Hash) × G) := do
  let (out, g) ← generatePatch src (walk.order patch) (buildHashPool p.N p.seed)
    (lastIndex p region) (kMin p) (kMax p region) fuel acc.2
  return (acc.1 ++ [out], g)

def generateSynthetic (src : Source G) (walk : Traversal) (p : SyntheticParams)
    (region : Fin (2 ^ 64)) (fuel : ℕ) : Except Fault (List (List Hash)) :=
  if (p.N : ℕ) = 0 ∨ (p.M : ℕ) = 0 then .ok (List.replicate p.M [])
  else do
    let _ ← checkBounds 0 (lastIndex p region)
    let _ ← checkRegion p region
    let _ ← checkBounds (kMin p) (kMax p region)
    let (patches, _) ← (List.range p.M).foldlM (addPatch src walk p region fuel)
      ([], src.init p.seed)
    return patches

section Bounds

variable {p : SyntheticParams} {region : Fin (2 ^ 64)}

theorem regionSize_le (region : Fin (2 ^ 64)) : regionSize p region ≤ p.N := min_le_left _ _

theorem one_le_regionSize (region : Fin (2 ^ 64)) (hN : 1 ≤ (p.N : ℕ)) :
    1 ≤ regionSize p region :=
  le_min hN (le_trans (le_max_left _ _) (le_max_left _ _))

theorem lastIndex_eq (region : Fin (2 ^ 64)) (hN : 1 ≤ (p.N : ℕ)) :
    lastIndex p region = regionSize p region - 1 := by
  have hlow := one_le_regionSize region hN
  have hhigh := lt_of_le_of_lt (regionSize_le region) p.N.isLt
  unfold lastIndex
  omega

theorem one_le_kMin : 1 ≤ kMin p := le_max_left _ _

theorem kMin_lt : kMin p < 2 ^ 32 := by
  have hmean := p.kMean.isLt
  unfold kMin
  omega

theorem kMin_le_kMax : kMin p ≤ kMax p region := le_max_left _ _

/-- The conversion to a signed number never makes a size larger. -/
theorem toInt64_le {n : ℕ} (hn : n < 2 ^ 64) : toInt64 n ≤ n := by
  unfold toInt64
  rw [Int.bmod_def]
  split_ifs
  · omega
  · omega

/-- Also a region of more than 2 ^ 63 entries, whose size turns negative, keeps the order. -/
theorem kMax_le (h : kMin p ≤ regionSize p region) : kMax p region ≤ regionSize p region :=
  max_le h (le_trans (min_le_right _ _)
    (toInt64_le (lt_of_le_of_lt (regionSize_le region) p.N.isLt)))

theorem kMax_lt : kMax p region < 2 ^ 63 := by
  have hmin := kMin_lt (p := p)
  have hmean := p.kMean.isLt
  have hpre : kMaxPre p < 2 ^ 63 := by
    unfold kMaxPre
    omega
  exact max_lt (by omega) (lt_of_le_of_lt (min_le_left _ _) hpre)

theorem kMin_toNat : (kMin p % 2 ^ 64).toNat = (kMin p).toNat := by
  have hlow := one_le_kMin (p := p)
  have hhigh := kMin_lt (p := p)
  rw [Int.emod_eq_of_lt (by omega) (by omega)]

theorem checkRegion_eq_ok (h : kMin p ≤ regionSize p region) : checkRegion p region = .ok () := by
  have hlow := one_le_kMin (p := p)
  unfold checkRegion
  rw [kMin_toNat]
  exact if_neg (by omega)

theorem checkRegion_eq_error (h : regionSize p region < kMin p) :
    ∃ msg, checkRegion p region = .error (.throws (.invalidArgument msg)) := by
  unfold checkRegion
  rw [kMin_toNat]
  exact ⟨_, if_pos (by omega)⟩

/-- Fewer indices than the region has leave one that is not picked. -/
theorem exists_unpicked {picked : List ℕ} {n : ℕ} (hlen : picked.length < n) :
    ∃ i < n, i ∉ picked := by
  have hcard : picked.toFinset.card < (Finset.range n).card := by
    rw [Finset.card_range]
    exact lt_of_le_of_lt (List.toFinset_card_le _) hlen
  obtain ⟨i, hi, hnot⟩ := Finset.exists_mem_notMem_of_card_lt_card hcard
  exact ⟨i, Finset.mem_range.mp hi, fun hmem => hnot (List.mem_toFinset.mpr hmem)⟩

end Bounds

section Sampling

variable {src : Source G} {last : ℕ} {k : ℤ}

/-- Different indices of the region, at most k of them. -/
structure Picked (last : ℕ) (k : ℤ) (picked : List ℕ) : Prop where
  nodup : picked.Nodup
  le_last : ∀ i ∈ picked, i ≤ last
  length_le : (picked.length : ℤ) ≤ k

theorem picked_nil (last : ℕ) (hk : 0 ≤ k) : Picked last k [] :=
  ⟨List.nodup_nil, by simp, by simpa using hk⟩

theorem toInt64_length {picked : List ℕ} (hk : k < 2 ^ 63) (h : Picked last k picked) :
    toInt64 picked.length = picked.length := by
  have hle := h.length_le
  exact toInt64_eq_self (by omega) (by omega)

/-- A turn keeps the picked indices and adds the drawn one if it is new. -/
theorem picked_insert {picked : List ℕ} (h : Picked last k picked)
    (hlt : (picked.length : ℤ) < k) {i : ℕ} (hi : i ≤ last) :
    Picked last k (if i ∈ picked then picked else picked ++ [i]) := by
  split_ifs with hmem
  · exact h
  · refine ⟨?_, ?_, ?_⟩
    · exact h.nodup.append (List.nodup_singleton i) (by simpa using hmem)
    · intro j hj
      rcases List.mem_append.mp hj with hj | hj
      · exact h.le_last j hj
      · exact (List.mem_singleton.mp hj).trans_le hi
    · rw [List.length_append, List.length_singleton]
      push_cast
      omega

theorem pickStep_continue (src : Source G) (hk : k < 2 ^ 63) {s : List ℕ × G}
    (h : Picked last k s.1) (hlt : (s.1.length : ℤ) < k) :
    pickStep src last k s = .ok (.inl (if (src.drawIndex last s.2).1 ∈ s.1 then s.1
      else s.1 ++ [(src.drawIndex last s.2).1], (src.drawIndex last s.2).2)) :=
  if_pos ((toInt64_length hk h).trans_lt hlt)

theorem pickStep_leave (hk : k < 2 ^ 63) {s : List ℕ × G} (h : Picked last k s.1)
    (hge : k ≤ s.1.length) : pickStep src last k s = .ok (.inr s) :=
  if_neg (not_lt.mpr (hge.trans_eq (toInt64_length hk h).symm))

/-- The loop stops with k different indices of the region, or is still drawing. -/
theorem loop_pickStep (src : Source G) (hk : k < 2 ^ 63) (fuel : ℕ) {s : List ℕ × G}
    (h : Picked last k s.1) :
    loop (pickStep src last k) fuel s = .error .outOfFuel ∨
      ∃ t, loop (pickStep src last k) fuel s = .ok t ∧ Picked last k t.1 ∧
        (t.1.length : ℤ) = k := by
  induction fuel generalizing s with
  | zero => exact .inl rfl
  | succ fuel ih =>
    rcases lt_or_ge (s.1.length : ℤ) k with hlt | hge
    · rw [loop_of_continue fuel (pickStep_continue src hk h hlt)]
      exact ih (picked_insert h hlt (src.drawIndex_le last s.2))
    · rw [loop_of_leave fuel (pickStep_leave hk h hge)]
      exact .inr ⟨s, rfl, h, le_antisymm h.length_le hge⟩

end Sampling

section Patches

variable {p : SyntheticParams} {region : Fin (2 ^ 64)}

/-- As many different hashes as the bounds allow, from the region of the pool. -/
structure ValidPatch (p : SyntheticParams) (region : Fin (2 ^ 64)) (patch : List Hash) : Prop where
  kMin_le : kMin p ≤ patch.length
  le_kMax : patch.length ≤ kMax p region
  nodup : patch.Nodup
  mem_region : ∀ h ∈ patch, h ∈ (buildHashPool p.N p.seed).take (regionSize p region)

theorem readPool_eq_ok {pool : List Hash} {i : ℕ} (hi : i < pool.length) :
    readPool pool i = .ok (pool.getD i 0) := by
  rw [List.getD_eq_getElem _ _ hi]
  exact dif_pos hi

theorem validPatch_of_picked (hN : 1 ≤ (p.N : ℕ)) {k : ℤ} (hlow : kMin p ≤ k)
    (hhigh : k ≤ kMax p region) {picked l : List ℕ} (h : Picked (lastIndex p region) k picked)
    (hlen : (picked.length : ℤ) = k) (hperm : l.Perm picked) :
    ValidPatch p region (l.map fun i => (buildHashPool p.N p.seed).getD i 0) := by
  have hsize := one_le_regionSize region hN
  have hlast := lastIndex_eq region hN
  have hregion : ∀ i ∈ l, i < regionSize p region := by
    intro i hi
    have hle := h.le_last i (hperm.mem_iff.mp hi)
    omega
  have hpool : ∀ i ∈ l, i < (buildHashPool p.N p.seed).length := by
    intro i hi
    rw [length_buildHashPool]
    exact lt_of_lt_of_le (hregion i hi) (regionSize_le region)
  have hentries := nodup_buildHashPool p.N.isLt.le p.seed
  constructor
  · rw [List.length_map, hperm.length_eq, hlen]
    exact hlow
  · rw [List.length_map, hperm.length_eq, hlen]
    exact hhigh
  · refine List.Nodup.map_on ?_ (hperm.nodup_iff.mpr h.nodup)
    intro i hi j hj heq
    rw [List.getD_eq_getElem _ _ (hpool i hi), List.getD_eq_getElem _ _ (hpool j hj)] at heq
    exact (hentries.getElem_inj_iff).mp heq
  · intro x hx
    obtain ⟨i, hi, rfl⟩ := List.mem_map.mp hx
    rw [List.getD_eq_getElem _ _ (hpool i hi), List.mem_take_iff_getElem]
    exact ⟨i, lt_min (hregion i hi) (hpool i hi), rfl⟩

theorem mapM_readPool (hN : 1 ≤ (p.N : ℕ)) {k : ℤ} {picked l : List ℕ}
    (h : Picked (lastIndex p region) k picked) (hperm : l.Perm picked) :
    l.mapM (readPool (buildHashPool p.N p.seed)) =
      .ok (l.map fun i => (buildHashPool p.N p.seed).getD i 0) := by
  apply mapM_eq_ok
  intro i hi
  have hle := h.le_last i (hperm.mem_iff.mp hi)
  have hlast := lastIndex_eq region hN
  have hsize := one_le_regionSize region hN
  have hregion := regionSize_le (p := p) region
  apply readPool_eq_ok
  rw [length_buildHashPool]
  omega

/-- A patch is valid, or its indices are still being drawn. -/
theorem generatePatch_spec (region : Fin (2 ^ 64)) (src : Source G) {order : List ℕ → List ℕ}
    (horder : ∀ picked, (order picked).Perm picked) (hN : 1 ≤ (p.N : ℕ)) (fuel : ℕ) (g : G) :
    generatePatch src order (buildHashPool p.N p.seed) (lastIndex p region) (kMin p)
        (kMax p region) fuel g = .error .outOfFuel ∨
      ∃ out, generatePatch src order (buildHashPool p.N p.seed) (lastIndex p region) (kMin p)
        (kMax p region) fuel g = .ok out ∧ ValidPatch p region out.1 := by
  obtain ⟨hlow, hhigh⟩ := src.drawCount_mem (kMin p) (kMax p region) g kMin_le_kMax
  have hk := lt_of_le_of_lt hhigh kMax_lt
  have hpos := one_le_kMin (p := p)
  have hstart := picked_nil (lastIndex p region) (le_trans (by omega) hlow)
  unfold generatePatch
  rcases loop_pickStep src hk fuel
      (s := ([], (src.drawCount (kMin p) (kMax p region) g).2)) hstart with
    hrun | ⟨t, hrun, hpicked, hlen⟩
  · left
    simp only [hrun, error_bind]
  · right
    refine ⟨((order t.1).map fun i => (buildHashPool p.N p.seed).getD i 0, t.2), ?_,
      validPatch_of_picked hN hlow hhigh hpicked hlen (horder t.1)⟩
    simp only [hrun, ok_bind, mapM_readPool hN hpicked (horder t.1), pure_eq_ok]

/-- The patches so far stay, and every new one is valid. -/
theorem foldlM_addPatch (region : Fin (2 ^ 64)) (src : Source G) (walk : Traversal)
    (hN : 1 ≤ (p.N : ℕ)) (fuel : ℕ) (todo : List ℕ) (acc : List (List Hash) × G)
    (hacc : ∀ patch ∈ acc.1, ValidPatch p region patch) :
    todo.foldlM (addPatch src walk p region fuel) acc = .error .outOfFuel ∨
      ∃ out, todo.foldlM (addPatch src walk p region fuel) acc = .ok out ∧
        out.1.length = acc.1.length + todo.length ∧
        ∀ patch ∈ out.1, ValidPatch p region patch := by
  induction todo generalizing acc with
  | nil => exact .inr ⟨acc, rfl, rfl, hacc⟩
  | cons patch todo ih =>
    rw [List.foldlM_cons]
    rcases generatePatch_spec region src (walk.order_perm patch) hN fuel acc.2 with
      hrun | ⟨out, hrun, hvalid⟩
    · left
      rw [addPatch, hrun, error_bind, error_bind]
    · have hstep : addPatch src walk p region fuel acc patch = .ok (acc.1 ++ [out.1], out.2) := by
        rw [addPatch, hrun, ok_bind]
        rfl
      have hnext : ∀ x ∈ acc.1 ++ [out.1], ValidPatch p region x := by
        intro x hx
        rcases List.mem_append.mp hx with hx | hx
        · exact hacc x hx
        · exact (List.mem_singleton.mp hx) ▸ hvalid
      rw [hstep, ok_bind]
      refine (ih (acc.1 ++ [out.1], out.2) hnext).imp_right ?_
      rintro ⟨result, hresult, hlen, hall⟩
      refine ⟨result, hresult, ?_, hall⟩
      rw [hlen, List.length_append, List.length_singleton, List.length_cons]
      omega

end Patches

section Returns

/-- The engine after the given number of draws. -/
def Source.after (src : Source G) (last : ℕ) (g : G) : ℕ → G
  | 0 => g
  | draws + 1 => src.after last (src.drawIndex last g).2 draws

/-- Sooner or later every index in range is drawn. -/
def Source.Fair (src : Source G) : Prop :=
  ∀ last g i, i ≤ last → ∃ draws, (src.drawIndex last (src.after last g draws)).1 = i

variable {src : Source G} {last : ℕ} {k : ℤ}

/-- A draw of an unpicked index is progress. -/
theorem exists_loop_of_new (hk : k < 2 ^ 63) {picked : List ℕ} {g : G}
    (h : Picked last k picked) (hlt : (picked.length : ℤ) < k)
    (hnew : (src.drawIndex last g).1 ∉ picked)
    (hnext : Picked last k (picked ++ [(src.drawIndex last g).1]) →
      ∃ fuel t, loop (pickStep src last k) fuel
        (picked ++ [(src.drawIndex last g).1], (src.drawIndex last g).2) = .ok t) :
    ∃ fuel t, loop (pickStep src last k) fuel (picked, g) = .ok t := by
  have hstep := pickStep_continue src (s := (picked, g)) hk h hlt
  have hpicked := picked_insert h hlt (src.drawIndex_le last g)
  rw [if_neg hnew] at hstep hpicked
  obtain ⟨fuel, t, ht⟩ := hnext hpicked
  exact ⟨fuel + 1, t, (loop_of_continue fuel hstep).trans ht⟩

/-- A fair source gets the loop to its end, because an unpicked index is always left. -/
theorem exists_loop_pickStep (hfair : src.Fair) (hk : k < 2 ^ 63) (hroom : k ≤ last + 1)
    {picked : List ℕ} (g : G) (h : Picked last k picked) :
    ∃ fuel t, loop (pickStep src last k) fuel (picked, g) = .ok t := by
  -- Induction on the number of indices still to pick.
  generalize hleft : (k - picked.length).toNat = left
  induction left using Nat.strong_induction_on generalizing picked g with
  | _ left ih =>
    have hle := h.length_le
    rcases lt_or_ge (picked.length : ℤ) k with hlt | hge
    · have hshort : picked.length < last + 1 := by omega
      have hgrow : ∀ g, (src.drawIndex last g).1 ∉ picked →
          ∃ fuel t, loop (pickStep src last k) fuel (picked, g) = .ok t := by
        intro g hnew
        refine exists_loop_of_new hk h hlt hnew fun hnext => ih _ ?_ _ hnext rfl
        rw [List.length_append, List.length_singleton]
        push_cast
        omega
      obtain ⟨i, hi, hunpicked⟩ := exists_unpicked hshort
      obtain ⟨draws, hdraw⟩ := hfair last g i (by omega)
      -- Until that index is drawn, a draw adds another one or changes nothing.
      induction draws generalizing g with
      | zero =>
        apply hgrow g
        rw [Source.after] at hdraw
        rw [hdraw]
        exact hunpicked
      | succ draws ihDraws =>
        by_cases hmem : (src.drawIndex last g).1 ∈ picked
        · have hstep := pickStep_continue src (s := (picked, g)) hk h hlt
          rw [if_pos hmem] at hstep
          obtain ⟨fuel, t, ht⟩ := ihDraws (src.drawIndex last g).2 hdraw
          exact ⟨fuel + 1, t, (loop_of_continue fuel hstep).trans ht⟩
        · exact hgrow g hmem
    · exact ⟨1, (picked, g), loop_of_leave 0 (pickStep_leave hk h hge)⟩

variable {p : SyntheticParams} {region : Fin (2 ^ 64)}

theorem exists_generatePatch (hfair : src.Fair) {order : List ℕ → List ℕ}
    (horder : ∀ picked, (order picked).Perm picked) (hN : 1 ≤ (p.N : ℕ))
    (hfits : kMin p ≤ regionSize p region) (g : G) :
    ∃ fuel₀ out, ∀ fuel ≥ fuel₀, generatePatch src order (buildHashPool p.N p.seed)
      (lastIndex p region) (kMin p) (kMax p region) fuel g = .ok out := by
  obtain ⟨hlow, hhigh⟩ := src.drawCount_mem (kMin p) (kMax p region) g kMin_le_kMax
  have hk := lt_of_le_of_lt hhigh kMax_lt
  have hpos := one_le_kMin (p := p)
  have hsize := one_le_regionSize region hN
  have hlast := lastIndex_eq region hN
  have hmax := kMax_le hfits
  have hroom : (src.drawCount (kMin p) (kMax p region) g).1 ≤ lastIndex p region + 1 := by omega
  have hstart := picked_nil (lastIndex p region) (le_trans (by omega) hlow)
  obtain ⟨fuel₀, t, ht⟩ := exists_loop_pickStep hfair hk hroom
    (src.drawCount (kMin p) (kMax p region) g).2 hstart
  rcases loop_pickStep src hk fuel₀
      (s := ([], (src.drawCount (kMin p) (kMax p region) g).2)) hstart with
    hrun | ⟨t', hrun, hpicked, _⟩
  · rw [hrun] at ht
    cases ht
  · refine ⟨fuel₀, ((order t'.1).map fun i => (buildHashPool p.N p.seed).getD i 0, t'.2), ?_⟩
    intro fuel hfuel
    obtain ⟨extra, rfl⟩ := Nat.exists_eq_add_of_le hfuel
    unfold generatePatch
    simp only [loop_add hrun extra, ok_bind, mapM_readPool hN hpicked (horder t'.1), pure_eq_ok]

/-- With a fair source all patches are done after finitely many draws. -/
theorem exists_foldlM_addPatch (region : Fin (2 ^ 64)) (hfair : src.Fair) (walk : Traversal)
    (hN : 1 ≤ (p.N : ℕ)) (hfits : kMin p ≤ regionSize p region) (todo : List ℕ)
    (acc : List (List Hash) × G) :
    ∃ fuel₀ out, ∀ fuel ≥ fuel₀, todo.foldlM (addPatch src walk p region fuel) acc = .ok out := by
  induction todo generalizing acc with
  | nil => exact ⟨0, acc, fun _ _ => rfl⟩
  | cons patch todo ih =>
    obtain ⟨fuel₁, out, hout⟩ :=
      exists_generatePatch hfair (walk.order_perm patch) hN hfits acc.2
    obtain ⟨fuel₂, result, hresult⟩ := ih (acc.1 ++ [out.1], out.2)
    refine ⟨max fuel₁ fuel₂, result, fun fuel hfuel => ?_⟩
    have hstep : addPatch src walk p region fuel acc patch = .ok (acc.1 ++ [out.1], out.2) := by
      rw [addPatch, hout fuel (le_trans (le_max_left _ _) hfuel), ok_bind]
      rfl
    rw [List.foldlM_cons, hstep, ok_bind, hresult fuel (le_trans (le_max_right _ _) hfuel)]

end Returns

section Sane

variable {p : SyntheticParams} {region : Fin (2 ^ 64)}

/-- What is left of the call once its parameters are known. -/
theorem generateSynthetic_eq (src : Source G) (walk : Traversal) (hN : 1 ≤ (p.N : ℕ))
    (hM : 1 ≤ (p.M : ℕ)) (fuel : ℕ) :
    generateSynthetic src walk p region fuel = (do
      let _ ← checkRegion p region
      let out ← (List.range p.M).foldlM (addPatch src walk p region fuel) ([], src.init p.seed)
      return out.1) := by
  have hindex : checkBounds 0 (lastIndex p region) = .ok () := if_pos (Int.natCast_nonneg _)
  have hcount : checkBounds (kMin p) (kMax p region) = .ok () := if_pos kMin_le_kMax
  unfold generateSynthetic
  rw [if_neg (by omega), hindex, ok_bind, hcount]
  rfl

/-- For all parameters and every region that the overlap formula may give, the pool has no
repetition and the generator throws just when the region is smaller than the smallest patch.
Otherwise the bounds are in order, an index is left whenever fewer than k are picked, the call
does nothing but return valid patches or draw on, and it returns if every index is drawn sooner
or later. -/
theorem generateSynthetic_sane (src : Source G) (walk : Traversal) (p : SyntheticParams)
    (hN : 1 ≤ (p.N : ℕ)) (hM : 1 ≤ (p.M : ℕ)) (region : Fin (2 ^ 64)) :
    (buildHashPool p.N p.seed).Nodup ∧ (buildHashPool p.N p.seed).length = p.N ∧
    (regionSize p region < kMin p →
      ∃ msg, ∀ fuel, generateSynthetic src walk p region fuel =
        .error (.throws (.invalidArgument msg))) ∧
    (kMin p ≤ regionSize p region →
      (1 ≤ kMin p ∧ kMin p ≤ kMax p region ∧ kMax p region ≤ regionSize p region ∧
        regionSize p region ≤ p.N) ∧
      (∀ (k : ℤ) (picked : List ℕ), k ≤ kMax p region → (picked.length : ℤ) < k →
        ∃ i < regionSize p region, i ∉ picked) ∧
      (∀ fuel, generateSynthetic src walk p region fuel = .error .outOfFuel ∨
        ∃ patches, generateSynthetic src walk p region fuel = .ok patches ∧
          patches.length = p.M ∧ ∀ patch ∈ patches, ValidPatch p region patch) ∧
      (src.Fair → ∃ fuel₀ patches, ∀ fuel ≥ fuel₀,
        generateSynthetic src walk p region fuel = .ok patches)) := by
  refine ⟨nodup_buildHashPool p.N.isLt.le p.seed, length_buildHashPool _ _, ?_, ?_⟩
  · intro hsmall
    obtain ⟨msg, hmsg⟩ := checkRegion_eq_error hsmall
    refine ⟨msg, fun fuel => ?_⟩
    rw [generateSynthetic_eq src walk hN hM, hmsg, error_bind]
  intro hfits
  have hrun : ∀ fuel, generateSynthetic src walk p region fuel = (do
      let out ← (List.range p.M).foldlM (addPatch src walk p region fuel) ([], src.init p.seed)
      return out.1) := by
    intro fuel
    rw [generateSynthetic_eq src walk hN hM, checkRegion_eq_ok hfits, ok_bind]
  refine ⟨⟨one_le_kMin, kMin_le_kMax, kMax_le hfits, regionSize_le region⟩, ?_, ?_, ?_⟩
  · intro k picked hk hlt
    have hmax := kMax_le hfits
    have hshort : picked.length < regionSize p region := by omega
    exact exists_unpicked hshort
  · intro fuel
    rw [hrun]
    rcases foldlM_addPatch region src walk hN fuel (List.range p.M)
      ([], src.init p.seed) (by simp) with h | ⟨out, h, hlen, hall⟩
    · left
      rw [h, error_bind]
    · right
      rw [h, ok_bind]
      refine ⟨out.1, rfl, ?_, hall⟩
      rw [hlen, List.length_nil, List.length_range, Nat.zero_add]
  · intro hfair
    obtain ⟨fuel₀, out, hout⟩ := exists_foldlM_addPatch region hfair walk hN hfits
      (List.range p.M) ([], src.init p.seed)
    refine ⟨fuel₀, out.1, fun fuel hfuel => ?_⟩
    rw [hrun, hout fuel hfuel, ok_bind]
    rfl

/-- A source that counts on and draws every index in turn. -/
def counting : Source ℕ where
  init seed := seed.toNat
  drawIndex last g := (g % (last + 1), g + 1)
  drawIndex_le last g := Nat.le_of_lt_succ (Nat.mod_lt g (Nat.succ_pos last))
  drawCount lo _ g := (lo, g + 1)
  drawCount_mem lo _ _ h := ⟨le_refl lo, h⟩

theorem fair_counting : counting.Fair := by
  have hafter : ∀ last g draws, counting.after last g draws = g + draws := by
    intro last g draws
    induction draws generalizing g with
    | zero => rfl
    | succ draws ih => exact (ih (g + 1)).trans (by omega)
  intro last g i hi
  refine ⟨i + last * g, ?_⟩
  have hturns : g + (i + last * g) = i + (last + 1) * g := by
    rw [Nat.add_mul, Nat.one_mul]
    omega
  rw [hafter, hturns]
  change (i + (last + 1) * g) % (last + 1) = i
  rw [Nat.add_mul_mod_self_left, Nat.mod_eq_of_lt (Nat.lt_succ_of_le hi)]

theorem generateSynthetic_sane_counting :
    ∃ fuel patches, generateSynthetic counting ⟨fun _ l => l, fun _ l => List.Perm.refl l⟩
        ⟨4, 2, 2, 1#64⟩ 3 fuel = .ok patches ∧ patches.length = 2 ∧
      ∀ patch ∈ patches, ValidPatch ⟨4, 2, 2, 1#64⟩ 3 patch := by
  obtain ⟨_, _, _, h⟩ := generateSynthetic_sane counting
    ⟨fun _ l => l, fun _ l => List.Perm.refl l⟩ ⟨4, 2, 2, 1#64⟩ (by decide) (by decide) 3
  obtain ⟨_, _, hoften, hfair⟩ := h (by decide)
  obtain ⟨fuel₀, patches, hrun⟩ := hfair fair_counting
  have hok := hrun fuel₀ (le_refl _)
  rcases hoften fuel₀ with hfuel | ⟨result, hresult, hlen, hall⟩
  · rw [hok] at hfuel
    cases hfuel
  · exact ⟨fuel₀, result, hresult, hlen, hall⟩

end Sane

end Generate

end PatternSearch.Synthetic
