import PatternSearch.ElementSetup

/-!
The int32 wire guard on arbitrary sub-list lengths. The guard sums the initial scores, and
those have been narrowed to int32 already, so a length from 2^31 on loses a multiple of 2^32
before it is compared with the bound. The guard is exact unless that hides every slot that
is over the bound.
-/

namespace PatternSearch.WireGuard

open Machine Collectives Csr ByElement ElementSetup

variable {P M : ℕ}

/-- `sub.offsets` of a rank whose slots have the given lengths. -/
def offsetsOf (M : ℕ) (len : ℕ → ℕ) : List ℕ := prefixSums (0 :: (List.range M).map len)

/-- Setup throws std::invalid_argument on every rank. -/
def ThrowsOnAllRanks (M : ℕ) (g : List PatchId) (len : Fin P → ℕ → ℕ) : Prop :=
  ∃ verdicts, wireVerdicts (fun _ => M) (fun _ => g)
      (fun r => initScores M (offsetsOf M (len r))) = .ok verdicts ∧
    ∀ r, ∃ what, verdicts r = .error (.throws (.invalidArgument what))

/-- The guard rejects exactly the slots over the bound, and what it lets pass is not wrapped. -/
structure GuardExact (M : ℕ) (g : List PatchId) (len : Fin P → ℕ → ℕ) : Prop where
  throws_iff : ThrowsOnAllRanks M g len ↔ ∃ s < M, wireMax P < ∑ r, (len r s : ℤ)
  scores_eq : ¬ ThrowsOnAllRanks M g len →
    ∀ r, ∀ s < M, (initScores M (offsetsOf M (len r))).getD s 0 = (len r s : ℤ)

/-- How often a length wraps around when it is narrowed to int32. -/
def wraps (len : ℕ) : ℕ := (len + 2 ^ 31) / 2 ^ 32

theorem getD_scanl_add (l : List ℕ) (a p : ℕ) (hp : p ≤ l.length) :
    (l.scanl (· + ·) a).getD p 0 = a + (l.take p).sum := by
  induction l generalizing a p with
  | nil =>
    obtain rfl : p = 0 := by simpa using hp
    simp
  | cons x l ih =>
    rw [List.scanl_cons]
    cases p with
    | zero => simp
    | succ p =>
      have htail := ih (a + x) p (by simpa using hp)
      rw [List.getD_cons_succ, htail, List.take_succ_cons, List.sum_cons, Nat.add_assoc]

/-- The offsets store every length. -/
theorem subLen_offsetsOf (len : ℕ → ℕ) {s : ℕ} (hs : s < M) :
    subLen (offsetsOf M len) s = len s := by
  have hlen : ((List.range M).map len).length = M := by simp
  have hstep : (((List.range M).map len).take (s + 1)).sum =
      (((List.range M).map len).take s).sum + len s := by
    rw [List.take_succ_eq_append_getElem (by omega), List.sum_append, List.getElem_map,
      List.getElem_range]
    simp
  show (((List.range M).map len).scanl (· + ·) 0).getD (s + 1) 0 -
    (((List.range M).map len).scanl (· + ·) 0).getD s 0 = len s
  rw [getD_scanl_add _ _ _ (by omega), getD_scanl_add _ _ _ (by omega), hstep]
  omega

theorem getD_initScores_offsetsOf (len : ℕ → ℕ) {s : ℕ} (hs : s < M) :
    (initScores M (offsetsOf M len)).getD s 0 = toInt32 (len s) := by
  rw [initScores, List.getD_eq_getElem _ _ (by simpa using hs), List.getElem_map,
    List.getElem_range, subLen_offsetsOf len hs]

/-- Narrowing takes away a multiple of 2^32. -/
theorem toInt32_eq_sub_wraps (len : ℕ) : toInt32 len = (len : ℤ) - 2 ^ 32 * wraps len := by
  unfold toInt32 wraps
  rw [Int.bmod_def]
  split_ifs <;> push_cast <;> omega

/-- The sum of int32 values over all ranks stays far inside int64. -/
theorem sum_toInt32_range (hsize : P ≤ intMax) (x : Fin P → ℤ) :
    -(2 ^ 63) ≤ ∑ r, toInt32 (x r) ∧ ∑ r, toInt32 (x r) < 2 ^ 63 := by
  have hlow : ∑ _r : Fin P, (-(2 ^ 31) : ℤ) ≤ ∑ r, toInt32 (x r) := by
    apply Finset.sum_le_sum
    intro r _
    exact (toInt32_range (x r)).1
  have hhigh : ∑ r, toInt32 (x r) ≤ ∑ _r : Fin P, (2 ^ 31 : ℤ) := by
    apply Finset.sum_le_sum
    intro r _
    exact le_of_lt (toInt32_range (x r)).2
  simp only [Finset.sum_const, Finset.card_univ, Fintype.card_fin, nsmul_eq_mul] at hlow hhigh
  unfold intMax at hsize
  constructor
  · omega
  · omega

/-- The guard compares the narrowed lengths with the bound. -/
theorem throwsOnAllRanks_iff (hP : 0 < P) (hsize : P ≤ intMax) (g : List PatchId)
    (len : Fin P → ℕ → ℕ) :
    ThrowsOnAllRanks M g len ↔ ∃ s < M, wireMax P < ∑ r, toInt32 (len r s) := by
  have hsum : ∀ s < M, toInt64 (∑ r, (initScores M (offsetsOf M (len r))).getD s 0) =
      ∑ r, toInt32 (len r s) := by
    intro s hs
    obtain ⟨hlow, hhigh⟩ := sum_toInt32_range hsize fun r => (len r s : ℤ)
    simp only [getD_initScores_offsetsOf _ hs]
    exact toInt64_eq_self hlow hhigh
  have hverdicts := wireVerdicts_eq g (fun r => initScores M (offsetsOf M (len r)))
    (fun r => by rw [initScores, List.length_map, List.length_range])
  unfold ThrowsOnAllRanks
  rw [hverdicts]
  cases hslot : (List.range M).find? fun s => wireMax P <
      toInt64 (∑ r, (initScores M (offsetsOf M (len r))).getD s 0) with
  | none =>
    rw [List.find?_eq_none] at hslot
    constructor
    · intro h
      obtain ⟨verdicts, heq, hall⟩ := h
      obtain ⟨what, hwhat⟩ := hall ⟨0, hP⟩
      rw [← Except.ok.inj heq] at hwhat
      cases hwhat
    · intro h
      obtain ⟨s, hs, hover⟩ := h
      have hle := hslot s (List.mem_range.mpr hs)
      rw [hsum s hs] at hle
      exact absurd (decide_eq_true hover) hle
  | some s =>
    have hs := List.mem_range.mp (List.mem_of_find?_eq_some hslot)
    have hfound := List.find?_some hslot
    have hover := of_decide_eq_true hfound
    rw [hsum s hs] at hover
    exact ⟨fun _ => ⟨s, hs, hover⟩, fun _ => ⟨_, rfl, fun _ => ⟨_, rfl⟩⟩⟩

/-- The guard is exact just when no slot is over the bound, or some slot is over it by more
than its parts lose to the narrowing. -/
theorem wireGuard_exact_iff (hP : 0 < P) (hsize : P ≤ intMax) (M : ℕ) (g : List PatchId)
    (len : Fin P → ℕ → ℕ) :
    GuardExact M g len ↔
      (∀ s < M, ∑ r, (len r s : ℤ) ≤ wireMax P) ∨
        ∃ s < M, wireMax P + 2 ^ 32 * ∑ r, (wraps (len r s) : ℤ) < ∑ r, (len r s : ℤ) := by
  have hthrows := throwsOnAllRanks_iff (M := M) hP hsize g len
  have hsplit (s : ℕ) : ∑ r, toInt32 (len r s) =
      ∑ r, (len r s : ℤ) - 2 ^ 32 * ∑ r, (wraps (len r s) : ℤ) := by
    simp only [toInt32_eq_sub_wraps]
    rw [Finset.sum_sub_distrib, Finset.mul_sum]
  constructor
  · intro h
    by_cases hover : ∃ s < M, wireMax P < ∑ r, (len r s : ℤ)
    · obtain ⟨s, hs, hnarrow⟩ := hthrows.mp (h.throws_iff.mpr hover)
      rw [hsplit] at hnarrow
      exact Or.inr ⟨s, hs, by omega⟩
    · left
      intro s hs
      by_contra hlt
      exact hover ⟨s, hs, not_le.mp hlt⟩
  · intro h
    have hnonneg (s : ℕ) : 0 ≤ ∑ r, (wraps (len r s) : ℤ) :=
      Finset.sum_nonneg fun r _ => Int.natCast_nonneg _
    rcases h with hsmall | ⟨s, hs, hover⟩
    · have hquiet : ¬ ThrowsOnAllRanks M g len := by
        rw [hthrows]
        intro h
        obtain ⟨s, hs, hlt⟩ := h
        have hle := hsmall s hs
        have hwraps := hnonneg s
        rw [hsplit] at hlt
        omega
      refine ⟨⟨fun h => absurd h hquiet, fun h => ?_⟩, fun _ r s hs => ?_⟩
      · obtain ⟨s, hs, hlt⟩ := h
        exact absurd hlt (not_lt.mpr (hsmall s hs))
      · have hone : (len r s : ℤ) ≤ ∑ r, (len r s : ℤ) :=
          Finset.single_le_sum (f := fun r => (len r s : ℤ)) (fun r _ => Int.natCast_nonneg _)
            (Finset.mem_univ r)
        have hle := hsmall s hs
        unfold wireMax intMax at hle
        rw [getD_initScores_offsetsOf _ hs]
        apply toInt32_eq_self
        · omega
        · omega
    · have hthrown : ThrowsOnAllRanks M g len := by
        rw [hthrows]
        refine ⟨s, hs, ?_⟩
        rw [hsplit]
        omega
      have hwraps := hnonneg s
      exact ⟨⟨fun _ => ⟨s, hs, by omega⟩, fun _ => hthrown⟩, fun h => absurd hthrown h⟩

/-- Two ranks that share a patch of seven elements. -/
theorem wireGuard_exact_iff_small : GuardExact 1 [0] (fun (r : Fin 2) _ => 3 + r.val) :=
  (wireGuard_exact_iff (by decide) (by decide) 1 [0] fun r _ => 3 + r.val).mpr
    (Or.inl (by
      intro s _
      rw [Fin.sum_univ_two]
      decide))

/-- On one rank a patch of 2^31 elements is over the bound, but its initial score is -2^31 and
nothing is thrown. -/
theorem wireGuard_not_exact : ¬ GuardExact 1 [0] (fun (_ : Fin 1) _ => 2 ^ 31) := by
  intro h
  have hthrown := h.throws_iff.mpr ⟨0, by decide, by rw [Fin.sum_univ_one]; decide⟩
  obtain ⟨s, _, hover⟩ := (throwsOnAllRanks_iff (by decide) (by decide) _ _).mp hthrown
  rw [Fin.sum_univ_one] at hover
  exact absurd hover (by decide)

end PatternSearch.WireGuard
