import PatternSearch.StatsCorrect

/-!
Item counts of the pattern statistics. The number of occurrences of a rank is converted to
int on its way to the sort, and a rank with 2^32 occurrences or more sorts and reduces the
first of them only. The one check made afterwards compares numbers of distinct hashes, so it
notices the cut just when a hash lost all its occurrences. The other counts are those of the
hash exchange, and of these only the doubled ones can leave int unnoticed, or the index at which
they are looked up.
-/

namespace PatternSearch.Truncation

open Machine Collectives Bucketing SortedLists TopK Csr Kernels HashMapping IdAssignment Setup
  PatternStats StatsStages StatsRouting StatsRun StatTable StatsCorrect

variable {P : ℕ} {α : Type}

/-- The number of distinct hashes among occurrences. -/
def hashCount (occurrences : List (Hash × Point α)) : ℕ :=
  (occurrences.map Prod.fst).toFinset.card

/-- The occurrences a rank is left with when their number is reduced modulo 2^32. -/
def uncut (occurrences : List (Hash × Point α)) : List (Hash × Point α) :=
  occurrences.take (occurrences.length % 2 ^ 32)

/-- The inputs on which nothing is lost in silence. -/
structure CutsNoticed (located : Fin P → LocatedPatches α) (k : ℕ) : Prop where
  positive : ∀ r, (occurrences located r).length % 2 ^ 32 < 2 ^ 31
  hashes : CountsFit (hashesOf located)
  noticed : (∃ r, hashCount (uncut (occurrences located r)) < hashCount (occurrences located r)) ∨
    (TableFits P ∧ DoubledFit (hashesOf located)) ∧
      (intMax / 8 < candidateCount (hashesOf located) k ∨
        ∀ r, (occurrences located r).length ≤ intMax)

theorem toInt32_nonneg_iff (n : ℕ) : 0 ≤ toInt32 n ↔ n % 2 ^ 32 < 2 ^ 31 := by
  unfold toInt32
  rw [Int.bmod_def]
  split_ifs <;> omega

theorem toNat_toInt32 {n : ℕ} (h : n % 2 ^ 32 < 2 ^ 31) : (toInt32 n).toNat = n % 2 ^ 32 := by
  unfold toInt32
  rw [Int.bmod_def]
  split_ifs <;> omega

theorem kept_eq_uncut {occurrences : List (Hash × Point α)}
    (h : occurrences.length % 2 ^ 32 < 2 ^ 31) : kept occurrences = uncut occurrences := by
  rw [kept, toNat_toInt32 h, uncut]

/-- Nothing is cut off just when the number of occurrences is an int. -/
theorem kept_eq_self_iff {occurrences : List (Hash × Point α)}
    (h : occurrences.length % 2 ^ 32 < 2 ^ 31) :
    kept occurrences = occurrences ↔ occurrences.length ≤ intMax := by
  constructor
  · intro hkept
    have hlen := congrArg List.length hkept
    rw [kept_eq_uncut h, uncut, List.length_take] at hlen
    unfold intMax
    omega
  · exact kept_eq_self

variable {located : Fin P → LocatedPatches α}

theorem allHashesKept_iff (hpositive : ∀ r, (occurrences located r).length % 2 ^ 32 < 2 ^ 31) :
    AllHashesKept located ↔
      ¬ ∃ r, hashCount (uncut (occurrences located r)) < hashCount (occurrences located r) := by
  have hle : ∀ r, hashCount (uncut (occurrences located r)) ≤
      hashCount (occurrences located r) := by
    intro r
    apply Finset.card_le_card
    intro h hh
    exact List.mem_toFinset.mpr
      (List.map_subset _ (List.take_subset _ _) (List.mem_toFinset.mp hh))
  have hcount : ∀ r, (localUniq (hashesOf located r)).length =
      hashCount (occurrences located r) := by
    intro r
    rw [localUniq, flatten_hashesOf, length_sortUnique, hashCount]
  have hkept : ∀ r, (sortUnique ((kept (occurrences located r)).map Prod.fst)).length =
      hashCount (uncut (occurrences located r)) := by
    intro r
    rw [kept_eq_uncut (hpositive r), length_sortUnique, hashCount]
  unfold AllHashesKept
  simp only [hcount, hkept, not_exists, not_lt]
  exact forall_congr' fun r => ⟨fun heq => le_of_eq heq.symm, fun hge => le_antisymm (hle r) hge⟩

section Stops

variable [LinearOrder α] [Zero α] (dev : Fin P → Device) (k : ℕ)

/-- A negative number of items is outside the contract of the sort. -/
theorem run_eq_contract (h : ∃ r, toInt32 (occurrences located r).length < 0) :
    run dev located k = .error .contract := by
  have hstage : onRanks (fun r => reduceOccurrences (located r).flatten) = .error .contract := by
    simp only [reduceOccurrences_eq, onRanks_ite]
    rw [if_neg]
    intro hall
    obtain ⟨r, hr⟩ := h
    exact absurd (hall r) (not_le.mpr hr)
  unfold run
  rw [hstage, error_bind]

/-- Hashes that cannot be counted stop the mapping, and not with an exception. -/
theorem run_of_not_countsFit (hP : 0 < P)
    (hitems : ∀ r, 0 ≤ toInt32 (occurrences located r).length)
    (hnot : ¬ CountsFit (hashesOf located)) :
    ∃ e, run dev located k = .error e ∧ ∀ thrown, e ≠ .throws thrown := by
  have hexchange : ∃ e, exchangeHashes (hashesOf located) = .error e := by
    cases hex : exchangeHashes (hashesOf located) with
    | ok ex => exact absurd ((exchangeHashes_eq_ok_iff hP ex).mp hex).1 hnot
    | error e => exact ⟨e, rfl⟩
  obtain ⟨e, he⟩ := hexchange
  refine ⟨e, ?_, fun thrown hthrown => noThrow_exchangeHashes hP thrown (hthrown ▸ he)⟩
  have hset : buildPatchSet (fun r => (located r).map fun patch => patch.map Prod.fst) =
      .error e := by
    change buildPatchSet (hashesOf located) = _
    rw [buildPatchSet, mapHashesToElementIds, he]
    rfl
  have hreduced : onRanks (fun r => reduceOccurrences (located r).flatten) =
      .ok fun r => representatives (kept (occurrences located r)) :=
    onRanks_eq_ok fun r => reduceOccurrences_eq_ok (hitems r)
  unfold run
  rw [hreduced, ok_bind, hset, error_bind]

/-- A rank that lost a hash throws. -/
theorem run_of_not_allHashesKept (hP : 0 < P)
    (hitems : ∀ r, 0 ≤ toInt32 (occurrences located r).length)
    (hfit : CountsFit (hashesOf located)) (hnot : ¬ AllHashesKept located) :
    ∃ e, run dev located k = .error (.throws e) := by
  rw [run_eq_of_items hP dev k hitems hfit]
  cases hcheck : onRanks fun r => checkRuns (representatives (kept (occurrences located r))).length
      (patchSetOf (mapped (hashesOf located) r)).inv.keys.length with
  | ok out =>
    refine absurd (fun r => ?_) hnot
    have hr := onRanks_eq_ok_iff.mp hcheck r
    rw [checkRuns_rank, checkRuns] at hr
    split_ifs at hr with hne
    exact not_not.mp hne
  | error e =>
    obtain ⟨r, hr⟩ := exists_error_of_onRanks hcheck
    rw [checkRuns] at hr
    split_ifs at hr
    exact ⟨_, congrArg Except.error (Except.error.inj hr).symm⟩

end Stops

section Input

variable {patches : List (List Hash)} {coords : List (List (Point (Option α)))}

/-- The checks of the public call stop with an exception and in no other way. -/
theorem checkInput_eq_error {e : Fault} (h : checkInput patches coords = .error e) :
    ∃ thrown, e = .throws thrown := by
  unfold checkInput at h
  split_ifs at h
  · exact ⟨_, (Except.error.inj h).symm⟩
  · obtain ⟨p, _, hp⟩ := exists_error_of_mapM h
    unfold checkPatch at hp
    split_ifs at hp
    · exact ⟨_, (Except.error.inj hp).symm⟩
    · cases hfinite : (coords.getD p []).mapM finitePoint with
      | none =>
        rw [hfinite] at hp
        exact ⟨_, (Except.error.inj hp).symm⟩
      | some finite =>
        rw [hfinite] at hp
        cases hp

theorem length_of_checkInput {located : LocatedPatches α}
    (h : checkInput patches coords = .ok located) : located.length = patches.length := by
  unfold checkInput at h
  split_ifs at h
  rw [length_of_mapM h, List.length_range]

end Input

section Guarantee

variable [LinearOrder α] [Zero α] (dev : Fin P → Device) (patches : Fin P → List (List Hash))
  (coords : Fin P → List (List (Point (Option α)))) (k : ℕ)

/-- Either an exception, or every occurrence was sorted and reduced and every rank returns
the head of the table of all patches. -/
def NeverTruncates : Prop :=
  (∃ e, patternStats dev patches coords k = .error (.throws e)) ∨
  ∃ located table, (∀ r, checkInput (patches r) (coords r) = .ok (located r)) ∧
    (∀ r, kept (occurrences located r) = occurrences located r) ∧
    IsStatTable (gather located) table ∧
    patternStats dev patches coords k = .ok fun _ => table.take k

variable {dev patches coords k}

theorem not_neverTruncates_of_error {e : Fault}
    (hrun : patternStats dev patches coords k = .error e)
    (hsilent : ∀ thrown, e ≠ .throws thrown) : ¬ NeverTruncates dev patches coords k := by
  rintro (⟨thrown, hthrown⟩ | ⟨_, _, _, _, _, hreturn⟩)
  · rw [hrun, Except.error.injEq] at hthrown
    exact hsilent thrown hthrown
  · rw [hrun] at hreturn
    cases hreturn

/-- Once a run returns, it was right just when nothing was cut. -/
theorem neverTruncates_of_returned
    (haccepted : ∀ r, checkInput (patches r) (coords r) = .ok (located r))
    (hrun : patternStats dev patches coords k =
      .ok fun _ =>
        smallest statKey k ((globalUniq (hashesOf located)).map (reportedStat located))) :
    NeverTruncates dev patches coords k ↔
      ∀ r, kept (occurrences located r) = occurrences located r := by
  constructor
  · rintro (⟨thrown, hthrown⟩ | ⟨located', _, haccepted', hall, _, _⟩)
    · rw [hrun] at hthrown
      cases hthrown
    · obtain rfl : located' = located :=
        funext fun r => Except.ok.inj ((haccepted' r).symm.trans (haccepted r))
      exact hall
  · intro hall
    refine Or.inr ⟨located, _, haccepted, hall, isStatTable_statTable _, ?_⟩
    rw [hrun, smallest_reportedStat hall]

theorem neverTruncates_of_accepted (hP : 0 < P)
    (haccepted : ∀ r, checkInput (patches r) (coords r) = .ok (located r))
    (hpatches : (gather located).length < 2 ^ 64) :
    NeverTruncates dev patches coords k ↔ CutsNoticed located k := by
  have hrun : patternStats dev patches coords k = run dev located k := by
    unfold patternStats
    rw [onRanks_eq_ok haccepted, ok_bind]
  have hnumbered : (gather (hashesOf located)).length < 2 ^ 64 := by
    rw [gather_hashesOf, List.length_map]
    exact hpatches
  by_cases hpositive : ∀ r, (occurrences located r).length % 2 ^ 32 < 2 ^ 31
  swap
  · have hnegative : ∃ r, toInt32 (occurrences located r).length < 0 := by
      obtain ⟨r, hr⟩ := not_forall.mp hpositive
      exact ⟨r, not_le.mp fun hnonneg => hr ((toInt32_nonneg_iff _).mp hnonneg)⟩
    have hstop := hrun.trans (run_eq_contract dev k hnegative)
    exact iff_of_false (not_neverTruncates_of_error hstop fun _ h => by cases h)
      fun h => hpositive h.positive
  have hitems : ∀ r, 0 ≤ toInt32 (occurrences located r).length :=
    fun r => (toInt32_nonneg_iff _).mpr (hpositive r)
  by_cases hfit : CountsFit (hashesOf located)
  swap
  · obtain ⟨e, hstop, hsilent⟩ := run_of_not_countsFit dev k hP hitems hfit
    exact iff_of_false (not_neverTruncates_of_error (hrun.trans hstop) hsilent)
      fun h => hfit h.hashes
  have hnoticed := allHashesKept_iff hpositive
  by_cases hkept : AllHashesKept located
  swap
  · obtain ⟨e, hthrown⟩ := run_of_not_allHashesKept dev k hP hitems hfit hkept
    refine iff_of_true (Or.inl ⟨e, hrun.trans hthrown⟩) ⟨hpositive, hfit, Or.inl ?_⟩
    exact not_not.mp fun hnone => hkept (hnoticed.mpr hnone)
  by_cases hroutes : TableFits P ∧ DoubledFit (hashesOf located)
  swap
  · have hstop := hrun.trans (run_eq_overflow hP dev hitems hfit hkept hroutes)
    refine iff_of_false (not_neverTruncates_of_error hstop fun _ h => by cases h) fun h => ?_
    exact h.noticed.elim (hnoticed.mp hkept) fun hrest => hroutes hrest.1
  by_cases hmany : intMax / 8 < candidateCount (hashesOf located) k
  · obtain ⟨e, hthrown⟩ := run_eq_error hP dev hitems hfit hkept hroutes hnumbered hmany
    exact iff_of_true (Or.inl ⟨e, hrun.trans hthrown⟩)
      ⟨hpositive, hfit, Or.inr ⟨hroutes, Or.inl hmany⟩⟩
  · have hreturn := run_eq_ok hP dev hitems hfit hkept hroutes hnumbered (not_lt.mp hmany)
    rw [neverTruncates_of_returned haccepted (hrun.trans hreturn)]
    constructor
    · intro hall
      exact ⟨hpositive, hfit, Or.inr ⟨hroutes, Or.inr fun r =>
        (kept_eq_self_iff (hpositive r)).mp (hall r)⟩⟩
    · intro h r
      refine (kept_eq_self_iff (hpositive r)).mpr ?_
      exact (h.noticed.resolve_left (hnoticed.mp hkept)).2.resolve_left hmany r

/-- For every input: nothing is lost in silence just when the input is refused or on every
rank the number of occurrences modulo 2^32 is an int, the hash exchange can be counted, and
either some rank lost a hash to the cut, or the table index and the doubled counts fit and there
are too many candidates or at most INT_MAX occurrences on every rank. -/
theorem neverTruncates_iff (hP : 0 < P) (dev : Fin P → Device) (patches : Fin P → List (List Hash))
    (coords : Fin P → List (List (Point (Option α)))) (k : ℕ)
    (hpatches : (gather patches).length < 2 ^ 64) :
    NeverTruncates dev patches coords k ↔
      ∀ located, (∀ r, checkInput (patches r) (coords r) = .ok (located r)) →
        CutsNoticed located k := by
  have hlength : ∀ located : Fin P → LocatedPatches α,
      (∀ r, checkInput (patches r) (coords r) = .ok (located r)) →
        (gather located).length < 2 ^ 64 := by
    intro located haccepted
    rw [length_gather] at hpatches ⊢
    simpa only [length_of_checkInput (haccepted _)] using hpatches
  constructor
  · intro h located haccepted
    exact (neverTruncates_of_accepted hP haccepted (hlength located haccepted)).mp h
  · intro h
    cases hcheck : onRanks fun r => checkInput (patches r) (coords r) with
    | ok located =>
      have haccepted := onRanks_eq_ok_iff.mp hcheck
      exact (neverTruncates_of_accepted hP haccepted (hlength located haccepted)).mpr
        (h located haccepted)
    | error e =>
      obtain ⟨r, hr⟩ := exists_error_of_onRanks hcheck
      obtain ⟨thrown, rfl⟩ := checkInput_eq_error hr
      refine Or.inl ⟨thrown, ?_⟩
      unfold patternStats
      rw [hcheck, error_bind]

end Guarantee

theorem neverTruncates_iff_handcrafted :
    NeverTruncates (fun _ => Device.inOrder) (hashesOf handcrafted) (coordsOf handcrafted) 2 := by
  refine (neverTruncates_iff (P := 2) (by decide) _ _ _ 2 (by decide)).mpr ?_
  intro located haccepted
  obtain rfl : located = handcrafted :=
    funext fun r => Except.ok.inj ((haccepted r).symm.trans (checkInput_eq_ok handcrafted r))
  have hfit : StatCountsFit handcrafted := statCountsFit_of_total_le (by decide) (by decide)
  exact ⟨by decide, hfit.hashes, Or.inr ⟨⟨by decide, hfit.doubled⟩, Or.inr hfit.occurrences⟩⟩

section LongPatch

/-- One hash at (1, 0) and then n times at (0, 0). -/
def longPatch (n : ℕ) : List (Hash × Point ℕ) := (0, ⟨1, 0⟩) :: List.replicate n (0, ⟨0, 0⟩)

def oneLongPatch (n : ℕ) : Fin 1 → LocatedPatches ℕ := fun _ => [longPatch n]

variable {n : ℕ}

theorem occurrences_oneLongPatch (r : Fin 1) : occurrences (oneLongPatch n) r = longPatch n :=
  List.flatten_singleton

theorem length_longPatch : (longPatch n).length = n + 1 := by
  rw [longPatch, List.length_cons, List.length_replicate]

theorem hashes_longPatch (h : Hash) : h ∈ (longPatch n).map Prod.fst ↔ h ∈ [(0 : Hash)] := by
  simp [longPatch]

theorem localUniq_oneLongPatch (r : Fin 1) : localUniq (hashesOf (oneLongPatch n) r) = [0] := by
  have hzero : sortUnique [(0 : Hash)] = [0] := by decide
  rw [localUniq, flatten_hashesOf, occurrences_oneLongPatch, ← hzero]
  exact sortUnique_congr hashes_longPatch

theorem globalUniq_oneLongPatch : globalUniq (hashesOf (oneLongPatch n)) = [0] := by
  have hgather : gather (hashesOf (oneLongPatch n)) = hashesOf (oneLongPatch n) 0 := by
    rw [gather, List.ofFn_succ, List.ofFn_zero, List.flatten_singleton]
  rw [globalUniq, hgather]
  exact localUniq_oneLongPatch 0

theorem length_routed_oneLongPatch (s r : Fin 1) :
    (routed (hashesOf (oneLongPatch n)) s r).length ≤ 1 := by
  have hle : (routed (hashesOf (oneLongPatch n)) s r).length ≤
    (localUniq (hashesOf (oneLongPatch n) s)).length := length_routed_le s r
  rwa [localUniq_oneLongPatch] at hle

theorem kept_oneLongPatch (hn : (n + 1) % 2 ^ 32 = 1) (r : Fin 1) :
    kept (occurrences (oneLongPatch n) r) = [(0, ⟨1, 0⟩)] := by
  rw [occurrences_oneLongPatch, kept_eq_uncut (by rw [length_longPatch]; omega), uncut,
    length_longPatch, hn]
  rfl

/-- A run on such a patch reports the location of its first occurrence. -/
theorem patternStats_oneLongPatch (hn : (n + 1) % 2 ^ 32 = 1) :
    patternStats (fun _ => Device.inOrder) (hashesOf (oneLongPatch n)) (coordsOf (oneLongPatch n))
        1 =
      .ok fun _ => smallest statKey 1
        ((globalUniq (hashesOf (oneLongPatch n))).map (reportedStat (oneLongPatch n))) := by
  have hitems : ∀ r, 0 ≤ toInt32 (occurrences (oneLongPatch n) r).length := by
    intro r
    rw [occurrences_oneLongPatch, toInt32_nonneg_iff, length_longPatch]
    omega
  have hfit : CountsFit (hashesOf (oneLongPatch n)) := by
    constructor
    · intro r
      rw [localUniq_oneLongPatch]
      decide
    · intro r
      rw [Fin.sum_univ_one]
      exact le_trans (length_routed_oneLongPatch 0 r) (by decide)
  have hkept : AllHashesKept (oneLongPatch n) := by
    intro r
    rw [kept_oneLongPatch hn, localUniq_oneLongPatch]
    rfl
  have hdouble : DoubledFit (hashesOf (oneLongPatch n)) := by
    intro s r
    exact le_trans (Nat.mul_le_mul_left 2 (length_routed_oneLongPatch s r)) (by decide)
  rw [patternStats_eq_run]
  exact run_eq_ok (by decide) _ hitems hfit hkept ⟨by decide, hdouble⟩
    (by simp [gather, hashesOf, oneLongPatch]) (le_trans (candidateCount_le _ _) (by decide))

theorem reportedStat_oneLongPatch (hn : (n + 1) % 2 ^ 32 = 1) :
    reportedStat (oneLongPatch n) 0 = ⟨0, 1, ⟨1, 0⟩⟩ := by
  have hcount : degreeOf (gather (hashesOf (oneLongPatch n))) 0 = 1 := by
    simp [degreeOf, gather, hashesOf, oneLongPatch, longPatch]
  have hkept : keptOccurrences (oneLongPatch n) = [(0, ⟨1, 0⟩)] := by
    rw [keptOccurrences]
    simp only [kept_oneLongPatch hn]
    rfl
  rw [reportedStat, hcount, hkept]
  rfl

/-- With 2^32 + 1 occurrences of one hash the sort is handed the first. The check passes,
and the location reported is not the least. -/
theorem not_neverTruncates_oneLongPatch :
    patternStats (fun _ => Device.inOrder) (hashesOf (oneLongPatch 4294967296))
        (coordsOf (oneLongPatch 4294967296)) 1 = .ok (fun _ => [⟨0, 1, ⟨1, 0⟩⟩]) ∧
      ¬ NeverTruncates (fun _ => Device.inOrder) (hashesOf (oneLongPatch 4294967296))
        (coordsOf (oneLongPatch 4294967296)) 1 := by
  have hn : (4294967296 + 1) % 2 ^ 32 = 1 := by decide
  have hrun := patternStats_oneLongPatch hn
  constructor
  · rw [hrun, globalUniq_oneLongPatch, List.map_singleton, reportedStat_oneLongPatch hn]
    rfl
  · rw [neverTruncates_of_returned (checkInput_eq_ok _) hrun]
    intro hall
    have hlen := congrArg List.length (hall 0)
    rw [kept_oneLongPatch hn, occurrences_oneLongPatch, length_longPatch] at hlen
    cases hlen

end LongPatch

end PatternSearch.Truncation
