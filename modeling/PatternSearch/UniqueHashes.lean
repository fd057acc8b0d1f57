import PatternSearch.PatternStats
import PatternSearch.PatchFile
import PatternSearch.ParallelFileRun
import PatternSearch.Redistribution
import PatternSearch.StatsRun

/-!
The file of all distinct hashes. Every rank writes its shard at the offset that the number of
hashes before the shard gives, and nobody compares data. The shards are the parts of one
ascending list in rank order, so the parts of the file tile it and the ranks do not matter.
-/

namespace PatternSearch.UniqueHashes

open Machine Collectives Bucketing SortedLists Csr HashMapping IdAssignment Setup PatternStats
  StatsRouting Bytes PatchFile ParallelFile ParallelFileRun StatsRun

def kUniqueHashMagic : List Byte := magicBytes ['S', 'T', 'P', 'S', 'U', 'H', 'S', '1']

def kUniqueHashHeaderBytes : ℕ := 16

variable {P : ℕ}

/-- The argument that the root passes. -/
def rootValue (x : Fin P → ℕ) : ℕ := (List.ofFn x).headD 0

/-- The position after the header and so many hashes, as an off_t. -/
def hashOffset (hashes : ℕ) : ℤ := toInt64 (wrap64 (kUniqueHashHeaderBytes + hashes * 8))

/-- The collective write that the ranks start. Only the root writes the header and sets the
length of the file. -/
def writeUniqueHashShards (path : String) (shardHashes : Fin P → List Hash)
    (shardStart N : Fin P → ℕ) : Call P where
  label := "unique-hashes"
  path
  data r := Codec.word.encodeAll (shardHashes r)
  offset r := hashOffset (shardStart r)
  totalSize := hashOffset (rootValue N)
  head := kUniqueHashMagic ++ numberBytes 8 (rootValue N)

/-- The statistics up to their side output, and the write if there is one. -/
def patternStatsDump {α : Type} [LinearOrder α] [Zero α] (path : String)
    (located : Fin P → LocatedPatches α) : Except Fault (Option (Call P)) := do
  let _ ← onRanks fun r => reduceOccurrences (located r).flatten
  let ps ← buildPatchSet fun r => (located r).map fun patch => patch.map Prod.fst
  if path = "" then return none
  else return some (writeUniqueHashShards path (fun r => (ps r).shardHashes)
    (fun r => (ps r).shardStart) fun r => (ps r).N)

/-- Statistics that stop before the side output stop there. -/
theorem run_of_patternStatsDump_error {α : Type} [LinearOrder α] [Zero α] {path : String}
    {located : Fin P → LocatedPatches α} {e : Fault}
    (h : patternStatsDump path located = .error e) (dev : Fin P → Kernels.Device) (k : ℕ) :
    PatternStats.run dev located k = .error e := by
  unfold patternStatsDump at h
  unfold PatternStats.run
  rcases bind_eq_error.mp h with hreduce | ⟨reduced, hreduce, h⟩
  · rw [hreduce, error_bind]
  rcases bind_eq_error.mp h with hps | ⟨ps, _, h⟩
  · rw [hreduce, ok_bind, hps, error_bind]
  split_ifs at h <;> cases h

section Contiguous

variable (counts : Fin P → ℕ)

/-- The ranks' data lie in rank order after the head, without a gap. -/
structure Contiguous (c : Call P) : Prop where
  offset : ∀ r, c.offset r =
    ((c.head.length + displacement (fun s => (c.data s).length) r : ℕ) : ℤ)
  total : c.totalSize = ((c.head.length + displacement (fun s => (c.data s).length) P : ℕ) : ℤ)

variable {c : Call P}

theorem Contiguous.owns_iff (h : Contiguous c) {r : Fin P} {x : ℕ} :
    c.Owns r x ↔ c.head.length + displacement (fun s => (c.data s).length) r ≤ x ∧
      x < c.head.length + displacement (fun s => (c.data s).length) r + (c.data r).length := by
  rw [Call.Owns, Call.start, h.offset, Int.toNat_natCast]

theorem Contiguous.tiles (h : Contiguous c) : c.Tiles where
  legal :=
    { offset := fun r _ => by rw [h.offset]; exact Int.natCast_nonneg _
      total := by rw [h.total]; exact Int.natCast_nonneg _ }
  covered x := by
    rw [h.total, Int.toNat_natCast]
    simp only [h.owns_iff]
    constructor
    · intro hx
      by_cases hhead : x < c.head.length
      · exact Or.inl hhead
      · obtain ⟨r, hlow, hhigh⟩ := exists_block (fun s => (c.data s).length)
          (show x - c.head.length < _ by omega)
        exact Or.inr ⟨r, by omega, by omega⟩
    · intro hx
      rcases hx with hhead | ⟨r, hlow, hhigh⟩
      · omega
      · have hend := block_end_le (fun s => (c.data s).length) r
        omega
  head_disjoint r x hx howns := by
    have hlow := (h.owns_iff.mp howns).1
    omega
  disjoint r r' x hr hr' := by
    have hin : ∀ {q : Fin P}, c.Owns q x → displacement (fun s => (c.data s).length) q ≤
        x - c.head.length ∧ x - c.head.length <
          displacement (fun s => (c.data s).length) q + (c.data q).length := by
      intro q hq
      obtain ⟨hlow, hhigh⟩ := h.owns_iff.mp hq
      exact ⟨by omega, by omega⟩
    exact block_unique (fun s => (c.data s).length) (hin hr) (hin hr')

theorem Contiguous.isContent (h : Contiguous c) : c.IsContent (c.head ++ gather c.data) where
  length_eq := by
    rw [h.total, Int.toNat_natCast, List.length_append, length_gather]
  head x hx := List.getElem?_append_left hx
  data r x hx := by
    rw [Call.start, h.offset, Int.toNat_natCast, List.getElem?_append_right (by omega),
      ← getElem?_gather c.data r x hx]
    congr 1
    omega

end Contiguous

section Outcome

/-- Where no operation of a rank fails, every interleaving ends with all ranks returned, and
whoever returns leaves this file behind. -/
structure Leaves (c : Call P) (content : List Byte) : Prop where
  ends : WellFounded fun s' s : State P => Step c s s'
  returned : ∀ prior s, Reachable c prior s → s.failed = false → (∀ s', ¬ Step c s s') →
    ∀ r, (s.ranks r).pc = .returned
  file : ∀ prior s, Reachable c prior s → s.failed = false →
    ∀ r, (s.ranks r).pc = .returned → s.file = some content

/-- The content is only asked of a call whose offsets the system accepts. -/
theorem leaves_of_legal {c : Call P} {content : List Byte}
    (h : c.Legal → c.Tiles ∧ c.IsContent content) : Leaves c content where
  ends := wellFounded_step c
  returned prior s hreach hfailed hstuck r := by
    rcases (agreed_of_reachable hreach).finished hstuck r with hthrew | hreturned
    · rw [hthrew.1] at hfailed
      cases hfailed
    · exact hreturned.2
  file prior s hreach hfailed r hr := by
    obtain ⟨htiles, hcontent⟩ := h (legal_of_returned hreach hr)
    exact file_of_returned (agreed_of_reachable hreach)
      (stored_of_reachable htiles hcontent hreach hfailed) hr

/-- The magic, the number of hashes and the hashes. -/
def uniqueHashFile (U : List Hash) : List Byte :=
  kUniqueHashMagic ++ numberBytes 8 U.length ++ Codec.word.encodeAll U

end Outcome

section Shards

variable {rawPatches : Fin P → List (List Hash)}

/-- The write of the mapped hashes. -/
def exactWrite (path : String) (rawPatches : Fin P → List (List Hash)) : Call P :=
  writeUniqueHashShards path (shard rawPatches)
    (fun r => displacement (fun s => (shard rawPatches s).length) r)
    fun _ => (globalUniq rawPatches).length

theorem rootValue_const (hP : 0 < P) (n : ℕ) : rootValue (fun _ : Fin P => n) = n := by
  obtain ⟨P, rfl⟩ : ∃ p, P = p + 1 := ⟨P - 1, by omega⟩
  rw [rootValue, List.ofFn_succ, List.headD_cons]

theorem hashOffset_eq {n : ℕ} (h : kUniqueHashHeaderBytes + n * 8 < 2 ^ 63) :
    hashOffset n = ((kUniqueHashHeaderBytes + n * 8 : ℕ) : ℤ) := by
  rw [hashOffset, wrap64, Nat.mod_eq_of_lt (by omega)]
  apply toInt64_eq_self
  · omega
  · omega

theorem offset_exactWrite (path : String) (r : Fin P) :
    (exactWrite path rawPatches).offset r =
      hashOffset (displacement (fun s => (shard rawPatches s).length) r) := by
  rw [exactWrite, writeUniqueHashShards]

theorem totalSize_exactWrite (hP : 0 < P) (path : String) :
    (exactWrite path rawPatches).totalSize = hashOffset (globalUniq rawPatches).length := by
  rw [exactWrite, writeUniqueHashShards, rootValue_const hP]

theorem length_head (path : String) :
    (exactWrite path rawPatches).head.length = kUniqueHashHeaderBytes := by
  rw [exactWrite, writeUniqueHashShards, List.length_append, length_numberBytes]
  rfl

theorem displacement_mul (counts : Fin P → ℕ) (w r : ℕ) :
    displacement (fun s => counts s * w) r = displacement counts r * w := by
  rw [displacement, displacement, List.ofFn_eq_map, List.ofFn_eq_map, ← List.map_take,
    ← List.map_take, List.sum_map_mul_right]

theorem displacement_data (path : String) (r : ℕ) :
    displacement (fun s => ((exactWrite path rawPatches).data s).length) r =
      displacement (fun s => (shard rawPatches s).length) r * 8 := by
  rw [← displacement_mul]
  congr 1
  funext s
  exact Codec.word.length_encodeAll _

theorem displacement_shards (hP : 0 < P) :
    displacement (fun s => (shard rawPatches s).length) P = (globalUniq rawPatches).length := by
  rw [← length_gather, gather_shard hP]

/-- A universe whose file does not reach past the off_t range is written as it should be. -/
theorem contiguous_exactWrite (hP : 0 < P) (path : String)
    (hsize : kUniqueHashHeaderBytes + (globalUniq rawPatches).length * 8 < 2 ^ 63) :
    Contiguous (exactWrite path rawPatches) := by
  constructor
  · intro r
    have hle := displacement_mono (fun s => (shard rawPatches s).length) r.isLt.le
    rw [displacement_shards hP] at hle
    rw [length_head, displacement_data, offset_exactWrite, hashOffset_eq (by omega)]
  · rw [length_head, displacement_data, displacement_shards hP, totalSize_exactWrite hP,
      hashOffset_eq hsize]

theorem content_exactWrite (hP : 0 < P) (path : String) :
    (exactWrite path rawPatches).head ++ gather (exactWrite path rawPatches).data =
      uniqueHashFile (globalUniq rawPatches) := by
  have hhead : (exactWrite path rawPatches).head =
      kUniqueHashMagic ++ numberBytes 8 (globalUniq rawPatches).length := by
    rw [exactWrite, writeUniqueHashShards, rootValue_const hP]
  have hdata : gather (exactWrite path rawPatches).data =
      Codec.word.encodeAll (globalUniq rawPatches) := by
    rw [← gather_shard hP, gather_eq_flatMap, gather_eq_flatMap, Codec.encodeAll,
      List.flatMap_assoc]
    rfl
  rw [hhead, hdata, uniqueHashFile]

end Shards

end PatternSearch.UniqueHashes
