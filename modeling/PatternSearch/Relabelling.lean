import PatternSearch.Selector

/-!
The selection depends only on which patches share which hashes. Two inputs whose patches have
the same hashes up to an injective renaming lead to equal outcomes, selections and rejections
alike, although the splitters, the ids and the shards have nothing in common.
-/

namespace PatternSearch.Relabelling

open Machine Collectives Bucketing Csr Kernels GreedyCover Selection HashMapping IdAssignment Setup
  Incidence ElementSetup Selector
open ByElement (wireMax)

variable {P : ℕ} {f : Hash → Hash} {rawPatches rawPatches' : Fin P → List (List Hash)}
  {globalIds : Fin P → List PatchId} {mode : PartitionMode}

/-- Patch by patch the second input has the renamed hashes of the first, in any order and with
any repetitions. -/
def SameIncidence (f : Hash → Hash) (rawPatches rawPatches' : Fin P → List (List Hash)) : Prop :=
  ∀ r, (rawPatches' r).map List.toFinset =
    (rawPatches r).map fun patch => patch.toFinset.image f

namespace SameIncidence

theorem length_eq (h : SameIncidence f rawPatches rawPatches') (r : Fin P) :
    (rawPatches' r).length = (rawPatches r).length := by
  have hlen := congrArg List.length (h r)
  rwa [List.length_map, List.length_map] at hlen

theorem gather_eq (h : SameIncidence f rawPatches rawPatches') :
    (gather rawPatches').map List.toFinset =
      (gather rawPatches).map fun patch => patch.toFinset.image f := by
  rw [map_gather, map_gather]
  exact congrArg gather (funext h)

theorem hashSet_eq (h : SameIncidence f rawPatches rawPatches') (s : ℕ) :
    hashSet rawPatches' s = (hashSet rawPatches s).image f := by
  have hget := congrArg (fun l => l[s]?) h.gather_eq
  simp only [List.getElem?_map] at hget
  rw [hashSet, hashSet, List.getD_eq_getElem?_getD, List.getD_eq_getElem?_getD]
  cases hraw : (gather rawPatches)[s]? with
  | none =>
    rw [hraw, Option.map_none, Option.map_eq_none_iff] at hget
    rw [hget]
    rfl
  | some patch =>
    rw [hraw, Option.map_some, Option.map_eq_some_iff] at hget
    obtain ⟨patch', hraw', hset⟩ := hget
    rw [hraw']
    exact hset

end SameIncidence

end PatternSearch.Relabelling
