import Mathlib.Data.Prod.Lex
import PatternSearch.Kernels
import PatternSearch.KeyedReduction
import PatternSearch.Setup

/-!
Pattern statistics: for every hash the number of patches containing it and its smallest
location, the k most frequent hashes first. Every rank reduces its own occurrences, ships
one candidate per distinct hash to the owner of the hash, and the owners' top lists are
merged on every rank. A call without a path for the dump of all hashes is modelled.
Coordinates come from a linear order, with none for a NaN or an infinity.
-/

namespace PatternSearch.PatternStats

open Machine Collectives Bucketing SortedLists KeyedReduction Csr Transpose Kernels Setup

structure Point (α : Type) where
  x : α
  y : α
  deriving DecidableEq, Repr

structure PatternStat (α : Type) where
  hash : Hash
  count : ℕ
  rep : Point α
  deriving DecidableEq, Repr

/-- The occurrences of a rank, patch by patch: hashes and coordinates of the same shape. -/
abbrev LocatedPatches (α : Type) := List (List (Hash × Point α))

variable {α : Type} {P : ℕ}

/-- Smaller x first, then smaller y. -/
instance [LinearOrder α] : LinearOrder (Point α) :=
  LinearOrder.lift' (fun p => toLex (p.x, p.y)) fun a b h => by
    obtain ⟨hx, hy⟩ := Prod.mk.inj (toLex.injective h)
    cases a
    cases b
    exact congrArg₂ Point.mk hx hy

instance [Zero α] : Inhabited (Point α) := ⟨⟨0, 0⟩⟩

/-- Ordering for statistics output: most patches first, then smaller hash. -/
def statBefore (a b : PatternStat α) : Prop :=
  if a.count ≠ b.count then a.count > b.count else a.hash < b.hash

instance : DecidableRel (statBefore (α := α)) := fun a b =>
  inferInstanceAs (Decidable (if a.count ≠ b.count then a.count > b.count else a.hash < b.hash))

/-- The first k positions after std::partial_sort. -/
def partialSort (k : ℕ) (l : List (PatternStat α)) : List (PatternStat α) :=
  (l.insertionSort fun a b => ¬ statBefore b a).take k

def sumU64 (a b : ℕ) : ℕ := (a + b) % 2 ^ 64

/-- Sort key for the shard top-k: ascending ~count is descending count. -/
def invertCount (count : ℕ) : ℕ := 2 ^ 64 - 1 - count

/-- The items a CUB call processes: their number is converted to int. -/
def cubItems {β : Type} (items : List β) : Except Fault (List β) :=
  let numItems := toInt32 items.length
  if numItems < 0 then .error .contract else .ok (items.take numItems.toNat)

/-- The degrees kernel: adjacent differences of the offsets. -/
def degrees (inv : InvertedIndex) : List ℕ :=
  (List.range inv.keys.length).map fun i => inv.offsets.getD (i + 1) 0 - inv.offsets.getD i 0

/-- The reduction and the inverted index have to find the same number of hashes. -/
def checkRuns (nUniq nLocal : ℕ) : Except Fault Unit :=
  if nUniq ≠ nLocal then
    .error (.throws (.runtimeError
      ("pattern_stats: occurrence reduction / inverted-index disagree (" ++ toString nUniq ++
        " vs " ++ toString nLocal ++ ")")))
  else .ok ()

/-- `starts`: where the shards begin, and N. -/
def shardStarts (ps : Fin P → PatchSet) (r : Fin P) : List ℕ :=
  List.ofFn (allgather (fun s => (ps s).shardStart) r) ++ [(ps r).N]

/-- std::upper_bound over the entries 1 to size - 1 of starts. -/
def ownerOf (size : ℕ) (starts : List ℕ) (id : ElementId) : ℕ :=
  upperBound ((starts.take size).drop 1) id

/-- `counts[r] *= 2` for every r. -/
def doubled (counts : Fin P → ℕ) : Except Fault (Fin P → ℕ) :=
  onRanks fun r => intAdd (counts r) (counts r)

/-- Points as interleaved coordinates. -/
def packPoints (points : List (Point α)) : List α := points.flatMap fun p => [p.x, p.y]

def unpackPoints : List α → List (Point α)
  | x :: y :: rest => ⟨x, y⟩ :: unpackPoints rest
  | _ => []

/-- The three arrays an owner receives. -/
structure Arrivals (α : Type) where
  ids : List ElementId
  degrees : List ℕ
  points : List (Point α)

/-- Stage C: every (id, degree, location) goes to the rank whose shard holds the id. -/
def routeToOwners (ps : Fin P → PatchSet) (minPts : Fin P → List (Point α)) :
    Except Fault (Fin P → Arrivals α) := do
  let sendcounts ← onRanks fun r => tally (ownerOf P (shardStarts ps r)) (ps r).inv.keys
  let all := allgather sendcounts
  let recvcounts ← onRanks fun r => recvcountsInt (all r) r
  let totalRecv ← onRanks fun r => totalInt (List.ofFn (recvcounts r))
  let sendcounts2 ← onRanks fun r => doubled (sendcounts r)
  let recvcounts2 ← onRanks fun r => doubled (recvcounts r)
  let ids ← alltoallv (fun r => (ps r).inv.keys) sendcounts recvcounts totalRecv
  let degs ← alltoallv (fun r => degrees (ps r).inv) sendcounts recvcounts totalRecv
  let points ← alltoallv (fun r => packPoints (minPts r)) sendcounts2 recvcounts2
    fun r => 2 * totalRecv r
  return fun r => { ids := ids r, degrees := degs r, points := unpackPoints (points r) }

/-- The dense arrays of one shard. -/
structure ShardArrays (α : Type) where
  counts : List ℕ
  points : List (Point α)

/-- One thread of the scatter kernel. -/
def scatterRun (shardStart : ℕ) (out : ShardArrays α) (run : ElementId × ℕ × Point α) :
    Except Fault (ShardArrays α) :=
  let slot := run.1 - shardStart
  if shardStart ≤ run.1 ∧ slot < out.counts.length ∧ slot < out.points.length then
    .ok { counts := out.counts.set slot run.2.1, points := out.points.set slot run.2.2 }
  else .error .outOfBounds

/-- The four arrays of candidates a rank contributes to the merge. -/
structure Candidates (α : Type) where
  hash : List Hash
  count : List ℕ
  x : List α
  y : List α

/-- Stage E: the first k slots of the shard in the order of the complemented counts. -/
def localTop [Zero α] (k : ℕ) (shard : List Hash) (arrays : ShardArrays α) :
    Except Fault (Candidates α) :=
  let kLocal := min k shard.length
  if kLocal = 0 then .ok { hash := [], count := [], x := [], y := [] }
  else do
    let keys := arrays.counts.map invertCount
    let items ← cubItems (keys.zip ((List.range shard.length).map (· % 2 ^ 32)))
    let topSlots := ((sortPairs items).map Prod.snd).take kLocal
    return { hash := topSlots.map fun slot => shard.getD slot 0
             count := topSlots.map fun slot => arrays.counts.getD slot 0
             x := topSlots.map fun slot => (arrays.points.getD slot default).x
             y := topSlots.map fun slot => (arrays.points.getD slot default).y }

/-- Every rank checks the gathered candidate counts, which are the same everywhere. -/
def checkCandidates (k total : ℕ) : Except Fault Unit :=
  if intMax / 8 < total then
    .error (.throws (.invalidArgument
      ("pattern_stats: k=" ++ toString k ++ " gathers " ++ toString total ++
        " candidates across ranks, past the int byte-count limit of the host allgatherv" ++
        " — lower k")))
  else .ok ()

def mergedStats (hash : List Hash) (count : List ℕ) (x y : List α) : List (PatternStat α) :=
  ((hash.zip count).zip (x.zip y)).map fun e => ⟨e.1.1, e.1.2, ⟨e.2.1, e.2.2⟩⟩

/-- Stage F: gather the candidates of all ranks and cut the list at k. -/
def mergeCandidates (k : ℕ) (c : Fin P → Candidates α) :
    Except Fault (Fin P → List (PatternStat α)) := do
  let candCounts := allgather fun r => (c r).hash.length
  let _ ← onRanks fun r => checkCandidates k (∑ s, candCounts r s)
  let allHash ← allgatherv (fun r => (c r).hash) candCounts
  let allCount ← allgatherv (fun r => (c r).count) candCounts
  let allX ← allgatherv (fun r => (c r).x) candCounts
  let allY ← allgatherv (fun r => (c r).y) candCounts
  return fun r => partialSort k (mergedStats (allHash r) (allCount r) (allX r) (allY r))

section Locations

variable [LinearOrder α]

/-- The functor of the location reductions. -/
def lexMinPoint (a b : Point α) : Point α :=
  if a.x ≠ b.x then
    if a.x < b.x then a else b
  else if a.y ≤ b.y then a else b

variable [Zero α]

/-- Stage A: one location for every distinct hash of a rank, in the order of the hashes. -/
def reduceOccurrences (occurrences : List (Hash × Point α)) :
    Except Fault (List (Hash × Point α)) :=
  if occurrences.length = 0 then .ok []
  else do
    let items ← cubItems occurrences
    return reduceByKey lexMinPoint (sortPairs items)

/-- The runs that stage D hands to the scatter kernel: the arrivals sorted by id, the degrees
and the locations of an id reduced. -/
def arrivedRuns (a : Arrivals α) : Except Fault (List (ElementId × ℕ × Point α)) := do
  let items ← cubItems (a.ids.zip ((List.range a.ids.length).map (· % 2 ^ 32)))
  let sorted := sortPairs items
  let degs := sorted.map fun x => (x.1, a.degrees.getD x.2 0)
  let points := sorted.map fun x => (x.1, a.points.getD x.2 default)
  let runs := (reduceByKey sumU64 degs).zip (reduceByKey lexMinPoint points)
  return runs.map fun x => (x.1.1, x.1.2, x.2.2)

def zeroedArrays (shardN : ℕ) : ShardArrays α :=
  { counts := List.replicate shardN 0, points := List.replicate shardN default }

/-- Stage D: reduce the arrivals and scatter the runs into the zeroed shard. -/
def reduceArrivals (d : Device) (shardN shardStart : ℕ) (a : Arrivals α) :
    Except Fault (ShardArrays α) :=
  if a.ids.length = 0 then .ok (zeroedArrays shardN)
  else do
    let runs ← arrivedRuns a
    d.launch 0 0 runs (scatterRun shardStart) (zeroedArrays shardN)

/-- The statistics of patches with coordinates of the same shape, stages A to F. -/
def run (dev : Fin P → Device) (located : Fin P → LocatedPatches α) (k : ℕ) :
    Except Fault (Fin P → List (PatternStat α)) := do
  let reduced ← onRanks fun r => reduceOccurrences (located r).flatten
  let ps ← buildPatchSet fun r => (located r).map fun patch => patch.map Prod.fst
  let _ ← onRanks fun r => checkRuns (reduced r).length (ps r).inv.keys.length
  let arrivals ← routeToOwners ps fun r => (reduced r).map Prod.snd
  let arrays ← onRanks fun r =>
    reduceArrivals (dev r) (ps r).shardHashes.length (ps r).shardStart (arrivals r)
  let candidates ← onRanks fun r => localTop k (ps r).shardHashes (arrays r)
  mergeCandidates k candidates

end Locations

section Facade

def finitePoint (p : Point (Option α)) : Option (Point α) :=
  match p.x, p.y with
  | some x, some y => some ⟨x, y⟩
  | _, _ => none

def checkPatch (p : ℕ) (hashes : List Hash) (points : List (Point (Option α))) :
    Except Fault (List (Hash × Point α)) :=
  if points.length ≠ hashes.length then
    .error (.throws (.invalidArgument
      ("pattern_stats: coords/patches shape mismatch at patch " ++ toString p)))
  else match points.mapM finitePoint with
    | none => .error (.throws (.invalidArgument
        ("pattern_stats: non-finite coordinate in patch " ++ toString p)))
    | some finite => .ok (hashes.zip finite)

/-- The checks of the public call; what passes them has one finite point for every hash. -/
def checkInput (patches : List (List Hash)) (coords : List (List (Point (Option α)))) :
    Except Fault (LocatedPatches α) :=
  if coords.length ≠ patches.length then
    .error (.throws (.invalidArgument "pattern_stats: coords/patches shape mismatch"))
  else (List.range patches.length).mapM fun p =>
    checkPatch p (patches.getD p []) (coords.getD p [])

def patternStats [LinearOrder α] [Zero α] (dev : Fin P → Device)
    (patches : Fin P → List (List Hash)) (coords : Fin P → List (List (Point (Option α)))) (k : ℕ) :
    Except Fault (Fin P → List (PatternStat α)) := do
  let located ← onRanks fun r => checkInput (patches r) (coords r)
  run dev located k

end Facade

end PatternSearch.PatternStats
