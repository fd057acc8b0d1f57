import PatternSearch.StatsRouting

/-!
What pattern statistics are: a table with one entry for every hash, that says how many
patches contain the hash and where it first occurs in the plane. The patches alone decide
the table, in whatever order they come.
-/

namespace PatternSearch.StatTable

open SortedLists KeyRuns KeyedReduction TopK Csr PatternStats StatsStages StatsRouting

variable {α : Type} [LinearOrder α]

/-- One entry for every hash, in the order of the output, with the number of patches that
contain the hash and its least location, x before y. -/
structure IsStatTable (patches : LocatedPatches α) (table : List (PatternStat α)) : Prop where
  ordered : table.Pairwise statBefore
  mem_iff : ∀ h, (∃ e ∈ table, e.hash = h) ↔ ∃ patch ∈ patches, h ∈ patch.map Prod.fst
  count : ∀ e ∈ table, e.count = patches.countP fun patch => e.hash ∈ patch.map Prod.fst
  rep : ∀ e ∈ table, IsLeast {p | ∃ patch ∈ patches, (e.hash, p) ∈ patch} e.rep

variable {patches patches' : LocatedPatches α} {table table' : List (PatternStat α)}

theorem IsStatTable.perm (h : IsStatTable patches table) (hperm : patches'.Perm patches) :
    IsStatTable patches' table where
  ordered := h.ordered
  mem_iff a := by
    simp only [h.mem_iff a, hperm.mem_iff]
  count e he := by
    rw [h.count e he, hperm.countP_eq]
  rep e he := by
    simp only [hperm.mem_iff]
    exact h.rep e he

/-- There is one table. -/
theorem IsStatTable.unique (h : IsStatTable patches table) (h' : IsStatTable patches table') :
    table = table' := by
  have hsub : ∀ {t t' : List (PatternStat α)}, IsStatTable patches t → IsStatTable patches t' →
      ∀ e ∈ t, e ∈ t' := by
    intro t t' ht ht' e he
    obtain ⟨e', he', hhash⟩ := (ht'.mem_iff e.hash).mpr ((ht.mem_iff e.hash).mp ⟨e, he, rfl⟩)
    have hcount : e'.count = e.count := by rw [ht'.count e' he', ht.count e he, hhash]
    have hrep : e'.rep = e.rep := (ht'.rep e' he').unique (hhash ▸ ht.rep e he)
    obtain ⟨hash, count, rep⟩ := e
    obtain ⟨hash', count', rep'⟩ := e'
    simp only at hhash hcount hrep
    subst hash' count' rep'
    exact he'
  have hkeys : ∀ {t : List (PatternStat α)}, IsStatTable patches t →
      t.Pairwise fun a b => statKey a < statKey b :=
    fun ht => ht.ordered.imp fun hab => (statKey_lt_iff _ _).mpr hab
  exact eq_of_pairwise_of_mem_iff (hkeys h) (hkeys h') fun e => ⟨hsub h h' e, hsub h' h e⟩

variable [Zero α]

/-- The table, computed from the patches of all ranks in one place. -/
def statTable (patches : LocatedPatches α) : List (PatternStat α) :=
  sortBy statKey ((sortUnique (patches.flatten.map Prod.fst)).map fun h =>
    { hash := h
      count := degreeOf (patches.map fun patch => patch.map Prod.fst) h
      rep := locationOf patches.flatten h })

theorem isStatTable_statTable (patches : LocatedPatches α) :
    IsStatTable patches (statTable patches) := by
  have hentry : ∀ e, e ∈ statTable patches ↔ ∃ h ∈ patches.flatten.map Prod.fst,
      (⟨h, degreeOf (patches.map fun patch => patch.map Prod.fst) h,
        locationOf patches.flatten h⟩ : PatternStat α) = e := by
    intro e
    rw [statTable, (perm_sortBy statKey _).mem_iff, List.mem_map]
    simp only [mem_sortUnique]
  have hoccurs : ∀ h, h ∈ patches.flatten.map Prod.fst ↔
      ∃ patch ∈ patches, h ∈ patch.map Prod.fst := by
    intro h
    simp only [List.mem_map, List.mem_flatten]
    constructor
    · rintro ⟨x, ⟨patch, hpatch, hx⟩, rfl⟩
      exact ⟨patch, hpatch, x, hx, rfl⟩
    · rintro ⟨patch, hpatch, x, hx, rfl⟩
      exact ⟨x, ⟨patch, hpatch, hx⟩, rfl⟩
  refine ⟨?_, ?_, ?_, ?_⟩
  · exact (pairwise_lt_sortBy (nodup_statKeys (sortUnique_nodup _) fun _ => rfl)).imp
      fun hab => (statKey_lt_iff _ _).mp hab
  · intro h
    rw [← hoccurs]
    constructor
    · rintro ⟨e, he, rfl⟩
      obtain ⟨h, hh, rfl⟩ := (hentry e).mp he
      exact hh
    · intro hh
      exact ⟨_, (hentry _).mpr ⟨h, hh, rfl⟩, rfl⟩
  · intro e he
    obtain ⟨h, _, rfl⟩ := (hentry e).mp he
    rw [degreeOf, List.countP_map]
    rfl
  · intro e he
    obtain ⟨h, hh, rfl⟩ := (hentry e).mp he
    have hleast := reduceRun_min_isLeast (valuesOf_ne_nil.mpr hh)
    simp only [mem_valuesOf, List.mem_flatten] at hleast
    exact hleast

end PatternSearch.StatTable
