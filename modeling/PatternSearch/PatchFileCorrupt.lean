import PatternSearch.PatchFileWrite

/-!
Files from elsewhere. Each rank checks only the offsets of its own patches, yet its window
overlaps the next one in an entry and the endpoints are checked when the file is opened. So
the windows of all ranks together check the whole section, however the patches are divided,
and what they return is the whole file.
-/

namespace PatternSearch.PatchFileCorrupt

open Csr Machine Bytes FileStream PatternStats PatchFile PatchFileRead PatchFileWrite

section Divisions

/-- Consecutive ranges, some of them perhaps empty, from `first` up to `last`. -/
def Divides : ℕ → ℕ → List (ℕ × ℕ) → Prop
  | first, last, [] => first = last
  | first, last, r :: ranges => r.1 = first ∧ r.1 ≤ r.2 ∧ Divides r.2 last ranges

theorem Divides.bounds {first last : ℕ} {ranges : List (ℕ × ℕ)} (h : Divides first last ranges) :
    first ≤ last ∧ ∀ r ∈ ranges, first ≤ r.1 ∧ r.1 ≤ r.2 ∧ r.2 ≤ last := by
  induction ranges generalizing first with
  | nil =>
    obtain rfl : first = last := h
    exact ⟨Nat.le_refl _, by simp⟩
  | cons r ranges ih =>
    obtain ⟨rfl, hle, hrest⟩ := h
    obtain ⟨hlast, hall⟩ := ih hrest
    refine ⟨by omega, ?_⟩
    rw [List.forall_mem_cons]
    refine ⟨⟨Nat.le_refl _, hle, hlast⟩, fun r' hr' => ?_⟩
    have hr := hall r' hr'
    omega

theorem Divides.covers {first last p : ℕ} {ranges : List (ℕ × ℕ)}
    (h : Divides first last ranges) (hfirst : first ≤ p) (hlast : p < last) :
    ∃ r ∈ ranges, r.1 ≤ p ∧ p < r.2 := by
  induction ranges generalizing first with
  | nil =>
    obtain rfl : first = last := h
    omega
  | cons r ranges ih =>
    obtain ⟨rfl, hle, hrest⟩ := h
    by_cases hp : p < r.2
    · exact ⟨r, List.mem_cons_self, hfirst, hp⟩
    · obtain ⟨r', hr', hin⟩ := ih hrest (Nat.le_of_not_lt hp)
      exact ⟨r', List.mem_cons_of_mem r hr', hin⟩

/-- What is read range by range is what is read at once. -/
theorem Divides.flatMap_range' {α : Type} {first last : ℕ} {ranges : List (ℕ × ℕ)}
    (h : Divides first last ranges) (f : ℕ → α) :
    (ranges.flatMap fun r => (List.range' r.1 (r.2 - r.1)).map f) =
      (List.range' first (last - first)).map f := by
  induction ranges generalizing first with
  | nil =>
    obtain rfl : first = last := h
    simp
  | cons r ranges ih =>
    have hlast := h.bounds.1
    obtain ⟨rfl, hle, hrest⟩ := h
    have hlast' := hrest.bounds.1
    rw [List.flatMap_cons, ih hrest, ← List.map_append]
    congr 1
    have hsum : last - r.1 = (r.2 - r.1) + (last - r.2) := by omega
    have hnext : r.2 = r.1 + (r.2 - r.1) := by omega
    rw [hsum, ← List.range'_append_1, ← hnext]

end Divisions

section Whole

variable {rd : StpsBinaryReader} {file : List Byte}

theorem fileSlice_patches (first last : ℕ) : (fileSlice rd file first last).patches =
    (List.range' first (last - first)).map (patchWindow rd file (hashSection rd file)) := by
  rw [List.range'_eq_map_range]
  rfl

theorem fileSlice_globalIds (first last : ℕ) :
    (fileSlice rd file first last).globalIds = List.range' first (last - first) := by
  rw [List.range'_eq_map_range]
  rfl

theorem fileSlice_coords (hcoords : rd.hasCoords = true) (first last : ℕ) :
    (fileSlice rd file first last).coords =
      (List.range' first (last - first)).map (patchWindow rd file (coordSection rd file)) := by
  rw [List.range'_eq_map_range, fileSlice, if_pos hcoords]

/-- Patches whose offsets do not descend lie next to each other. -/
theorem flatten_patchWindows {α : Type} (l : List α) {first last : ℕ} (hle : first ≤ last)
    (hmono : MonotoneOn rd file first last) :
    ((List.range' first (last - first)).map (patchWindow rd file l)).flatten =
      window l (fileOffset rd file first) (fileOffset rd file last) := by
  induction last, hle using Nat.le_induction with
  | base => simp [window]
  | succ last hle ih =>
    have hprefix : MonotoneOn rd file first last := fun p hp hlt => hmono p hp (by omega)
    have hcount : last + 1 - first = (last - first) + 1 := by omega
    have hnext : first + (last - first) = last := by omega
    rw [hcount, List.range'_1_concat, hnext, List.map_append, List.flatten_append, ih hprefix,
      List.map_singleton, List.flatten_singleton, patchWindow]
    exact window_append l (hmono.le (Nat.le_refl _) hle (Nat.le_succ _))
      (hmono last hle (Nat.lt_succ_self _))

/-- All the patches of the file. -/
def allPatches (rd : StpsBinaryReader) (file : List Byte) : List (List Hash) :=
  (List.range' 0 rd.M).map (patchWindow rd file (hashSection rd file))

/-- All the coordinates of the file, if it has any. -/
def allCoords (rd : StpsBinaryReader) (file : List Byte) :
    Option (List (List (Point Double))) :=
  if rd.hasCoords then some ((List.range' 0 rd.M).map (patchWindow rd file (coordSection rd file)))
  else none

section Accepted

variable (hacc : Accepted rd file) (hmono : MonotoneOn rd file 0 rd.M)
include hacc hmono

theorem fileOffset_le {p : ℕ} (hp : p ≤ rd.M) : fileOffset rd file p ≤ rd.totalK := by
  rw [← hacc.last]
  exact hmono.le (Nat.zero_le _) hp (Nat.le_refl _)

/-- A monotone section lets every slice through. -/
theorem sliceOutcome_eq_ok {first last : ℕ} (hfirst : first ≤ last) (hlast : last ≤ rd.M) :
    sliceOutcome rd file first last = .ok (fileSlice rd file first last) := by
  have hpart : MonotoneOn rd file first last := fun p _ hlt => hmono p (Nat.zero_le p) (by omega)
  have hle := fileOffset_le hacc hmono hlast
  rw [sliceOutcome, if_neg (by omega), if_neg (not_not.mpr hpart), if_neg (by omega)]

theorem length_patchWindow {α : Type} {l : List α} (hl : l.length = rd.totalK) {p : ℕ}
    (hp : p < rd.M) : (patchWindow rd file l p).length =
      fileOffset rd file (p + 1) - fileOffset rd file p :=
  length_window l (hl ▸ fileOffset_le hacc hmono hp)

theorem flatten_patchWindows_all {α : Type} {l : List α} (hl : l.length = rd.totalK) :
    ((List.range' 0 rd.M).map (patchWindow rd file l)).flatten = l := by
  have hall := flatten_patchWindows l (Nat.zero_le rd.M) hmono
  rw [hacc.first, hacc.last, window, ← hl, List.drop_zero] at hall
  simpa using hall

/-- The offsets that the writer sums up are those of the file. -/
theorem offsetsOf_patchWindows {l : List Hash} (hl : l.length = rd.totalK) :
    offsetsOf ((List.range' 0 rd.M).map (patchWindow rd file l)) = offsetSection rd file := by
  have hlen : ((List.range' 0 rd.M).map (patchWindow rd file l)).length = rd.M := by simp
  apply List.ext_getElem
  · rw [length_offsetsOf, hlen, length_offsetSection]
  intro p hp hp'
  have hpM : p ≤ rd.M := by
    rw [length_offsetSection] at hp'
    omega
  have hprefix : MonotoneOn rd file 0 p := fun q _ hlt => hmono q (Nat.zero_le q) (by omega)
  have htake : ((List.range' 0 rd.M).map (patchWindow rd file l)).take p =
      (List.range' 0 (p - 0)).map (patchWindow rd file l) := by
    rw [← List.map_take, List.take_range'_of_length_ge hpM, Nat.sub_zero]
  have hflat := flatten_patchWindows l (Nat.zero_le p) hprefix
  have hle := fileOffset_le hacc hmono hpM
  rw [← List.getD_eq_getElem _ 0 hp, ← List.getD_eq_getElem _ 0 hp',
    getD_offsetsOf _ (hlen.symm ▸ hpM), htake, hflat, hacc.first, length_window l (by omega),
    Nat.sub_zero]
  exact Fin.ofNat_val_eq_self _

theorem sameShape_all (cs : List (List (Point Double))) (hcs : allCoords rd file = some cs) :
    SameShape (allPatches rd file) cs := by
  rw [allCoords] at hcs
  split_ifs at hcs with hcoords
  cases hcs
  rw [SameShape, allPatches, List.map_map, List.map_map]
  apply List.map_congr_left
  intro p hp
  rw [List.mem_range'_1] at hp
  show (patchWindow rd file _ p).length = (patchWindow rd file _ p).length
  rw [length_patchWindow hacc hmono length_coordSection (by omega),
    length_patchWindow hacc hmono length_hashSection (by omega)]

/-- The sections after the header are written back as they were read. -/
theorem drop_layout_all : (layout (allPatches rd file) (allCoords rd file)).drop kHeaderBytes =
    file.drop kHeaderBytes := by
  have hfile := hacc.length_eq
  have hword : Codec.word.width = 8 := rfl
  obtain ⟨header, hlen, -, -, heq⟩ := layout_eq (allPatches rd file) (allCoords rd file)
  have hoffsets : Codec.word.encodeAll (offsetsOf (allPatches rd file)) =
      (file.drop kHeaderBytes).take ((rd.M + 1) * 8) := by
    rw [allPatches, offsetsOf_patchWindows hacc hmono length_hashSection]
    exact Codec.word.encodeAll_decodeAll _ _ (by rw [hword, List.length_drop]; omega)
  have hhashes : Codec.word.encodeAll (allPatches rd file).flatten =
      ((file.drop kHeaderBytes).drop ((rd.M + 1) * 8)).take (rd.totalK * 8) := by
    rw [allPatches, flatten_patchWindows_all hacc hmono length_hashSection, List.drop_drop]
    exact Codec.word.encodeAll_decodeAll _ _ (by rw [hword, List.length_drop]; omega)
  have hcoords : pointCodec.encodeAll ((allCoords rd file).getD []).flatten =
      ((file.drop kHeaderBytes).drop ((rd.M + 1) * 8)).drop (rd.totalK * 8) := by
    have hpoint : pointCodec.width = 16 := rfl
    rw [List.drop_drop, List.drop_drop, ← Nat.add_assoc, allCoords]
    by_cases hhas : rd.hasCoords = true
    · rw [if_pos hhas] at hfile
      rw [if_pos hhas, Option.getD_some,
        flatten_patchWindows_all hacc hmono length_coordSection, coordSection,
        pointCodec.encodeAll_decodeAll _ _ (by rw [hpoint, List.length_drop]; omega)]
      apply List.take_of_length_le
      rw [hpoint, List.length_drop]
      omega
    · rw [if_neg hhas] at hfile
      rw [if_neg hhas, Option.getD_none]
      exact (List.drop_eq_nil_of_le (by omega)).symm
  rw [heq, List.drop_left' hlen, hoffsets, hhashes, hcoords, List.take_append_drop,
    List.take_append_drop]

theorem length_layout_all :
    (layout (allPatches rd file) (allCoords rd file)).length = file.length := by
  have hcount : (allPatches rd file).length = rd.M := by simp [allPatches]
  have htotal : (allPatches rd file).flatten.length = rd.totalK := by
    rw [allPatches, flatten_patchWindows_all hacc hmono length_hashSection, length_hashSection]
  have hsome : (allCoords rd file).isSome = rd.hasCoords := by
    rw [allCoords]
    cases rd.hasCoords <;> rfl
  rw [length_layout (sameShape_all hacc hmono), hcount, htotal, hsome, hacc.length_eq]

end Accepted

/-- The first numbers of two headers that say the same. -/
theorem take_headerSection_eq {rd' : StpsBinaryReader} {file' : List Byte}
    (hacc : Accepted rd file) (hacc' : Accepted rd' file') (hcount : rd'.M = rd.M)
    (htotal : rd'.totalK = rd.totalK) :
    (headerSection file').take 2 = (headerSection file).take 2 := by
  have hlen : ∀ bytes, (headerSection bytes).length = 3 := fun _ => Codec.length_decodeAll _ _ _
  apply List.ext_getElem
  · rw [List.length_take, List.length_take, hlen, hlen]
  intro i hi hi'
  rw [List.length_take, hlen] at hi
  rw [List.getElem_take, List.getElem_take, ← List.getD_eq_getElem _ 0, ← List.getD_eq_getElem _ 0]
  apply Fin.ext
  rcases (by omega : i = 0 ∨ i = 1) with rfl | rfl
  · rw [hacc.count, hacc'.count, hcount]
  · rw [hacc.total, hacc'.total, htotal]

/-- The header up to the reserved number. -/
theorem take_header {bytes : List Byte} (hlen : 24 ≤ bytes.length) :
    bytes.take 24 = bytes.take 8 ++ Codec.word.encodeAll ((headerSection bytes).take 2) := by
  have hwidth : Codec.word.width = 8 := rfl
  have htwo := Codec.word.decodeAll_drop (n := 2) (k := 0) (m := 3) (by omega) (bytes.drop 8)
  rw [Nat.zero_mul, List.drop_zero, List.drop_zero] at htwo
  rw [headerSection, ← htwo, Codec.word.encodeAll_decodeAll _ _
    (by rw [hwidth, List.length_drop]; omega), hwidth]
  exact List.take_add (i := 8) (j := 16)

/-- Writing back what was read gives the file again, but for the reserved number. -/
theorem layout_all (hacc : Accepted rd file) (hsmall : file.length < 2 ^ 63)
    (hmono : MonotoneOn rd file 0 rd.M) :
    (layout (allPatches rd file) (allCoords rd file)).take 24 = file.take 24 ∧
      (layout (allPatches rd file) (allCoords rd file)).drop 32 = file.drop 32 := by
  have hlen := length_layout_all hacc hmono
  have hle := hacc.sections_le
  have hacc' : Accepted (layoutReader rd.path (allPatches rd file) (allCoords rd file))
      (layout (allPatches rd file) (allCoords rd file)) :=
    accepted_layout (sameShape_all hacc hmono) (by omega) rd.path
  have hsome : (allCoords rd file).isSome = rd.hasCoords := by
    rw [allCoords]
    cases rd.hasCoords <;> rfl
  have hcount : (layoutReader rd.path (allPatches rd file) (allCoords rd file)).M = rd.M := by
    simp [layoutReader, allPatches]
  have htotal : (layoutReader rd.path (allPatches rd file) (allCoords rd file)).totalK =
      rd.totalK := by
    show (allPatches rd file).flatten.length = rd.totalK
    rw [allPatches, flatten_patchWindows_all hacc hmono length_hashSection, length_hashSection]
  have hheader : kHeaderBytes = 32 := rfl
  constructor
  · rw [take_header (by omega), take_header (show 24 ≤ file.length by omega), take_layout, hsome,
      hacc.magic, take_headerSection_eq hacc hacc' hcount htotal]
  · exact drop_layout_all hacc hmono

end Whole

section Outcomes

/-- A call of `readSlice`, on a stream of its own. -/
structure SliceCall where
  range : ℕ × ℕ
  stream : Stream

def SliceCall.outcome (rd : StpsBinaryReader) (c : SliceCall) : Except Fault PatchSlice :=
  (exec (readSlice rd c.range.1 c.range.2) c.stream).1

variable {rd : StpsBinaryReader} {file : List Byte} {path : String}

theorem accepted_of_open (hsize : file.length < 2 ^ 62) {s s' : Stream} (hs : s.bytes = file)
    (hopen : exec (openPatchFile path) s = (.ok rd, s')) : Accepted rd file ∧ rd.path = path := by
  rcases open_accepted_or_error path hsize with ⟨rd', hacc, rfl⟩ | ⟨what, herror⟩
  · have hrun := (hacc.safely_open (by omega)).outcome_eq hs
    rw [hopen] at hrun
    cases hrun
    exact ⟨hacc, rfl⟩
  · have hrun := herror s hs
    rw [hopen] at hrun
    cases hrun

/-- A slice comes back only from offsets that do not descend. -/
theorem sliceOutcome_eq_ok_iff {first last : ℕ} (hfirst : first ≤ last) (hlast : last ≤ rd.M)
    (slice : PatchSlice) : sliceOutcome rd file first last = .ok slice ↔
      MonotoneOn rd file first last ∧ fileOffset rd file last ≤ rd.totalK ∧
        slice = fileSlice rd file first last := by
  rw [sliceOutcome, if_neg (by omega)]
  by_cases hmono : MonotoneOn rd file first last
  · rw [if_neg (not_not.mpr hmono)]
    by_cases hpast : rd.totalK < fileOffset rd file last
    · rw [if_pos hpast]
      constructor
      · intro h
        cases h
      · intro h
        omega
    · rw [if_neg hpast]
      constructor
      · intro h
        cases h
        exact ⟨hmono, Nat.le_of_not_lt hpast, rfl⟩
      · rintro ⟨-, -, rfl⟩
        rfl
  · rw [if_pos hmono]
    constructor
    · intro h
      cases h
    · intro h
      exact absurd h.1 hmono

/-- The ranks together check the whole section. -/
theorem all_slices_ok_iff (hacc : Accepted rd file) (hsmall : file.length < 2 ^ 63)
    {calls : List SliceCall} (hdiv : Divides 0 rd.M (calls.map SliceCall.range))
    (hfile : ∀ c ∈ calls, c.stream.bytes = file) :
    (∀ c ∈ calls, ∃ slice, c.outcome rd = .ok slice) ↔ MonotoneOn rd file 0 rd.M := by
  have hrun : ∀ c ∈ calls, c.outcome rd = sliceOutcome rd file c.range.1 c.range.2 :=
    fun c hc => (safely_readSlice hacc hsmall _ _).outcome_eq (hfile c hc)
  have hbounds : ∀ c ∈ calls, c.range.1 ≤ c.range.2 ∧ c.range.2 ≤ rd.M := fun c hc =>
    (hdiv.bounds.2 c.range (List.mem_map_of_mem hc)).2
  constructor
  · intro hall p _ hp
    obtain ⟨r, hr, hin⟩ := hdiv.covers (Nat.zero_le p) hp
    obtain ⟨c, hc, rfl⟩ := List.mem_map.mp hr
    obtain ⟨slice, hslice⟩ := hall c hc
    rw [hrun c hc, sliceOutcome_eq_ok_iff (hbounds c hc).1 (hbounds c hc).2] at hslice
    exact hslice.1 p hin.1 hin.2
  · intro hmono c hc
    rw [hrun c hc]
    exact ⟨_, sliceOutcome_eq_ok hacc hmono (hbounds c hc).1 (hbounds c hc).2⟩

/-- What the ranks read is the whole file. -/
theorem slices_eq_all (hacc : Accepted rd file) (hsmall : file.length < 2 ^ 63)
    (hmono : MonotoneOn rd file 0 rd.M) {calls : List SliceCall}
    (hdiv : Divides 0 rd.M (calls.map SliceCall.range))
    (hfile : ∀ c ∈ calls, c.stream.bytes = file) {slices : List PatchSlice}
    (hslices : calls.map (SliceCall.outcome rd) = slices.map Except.ok) :
    slices.flatMap PatchSlice.patches = allPatches rd file ∧
      slices.flatMap PatchSlice.globalIds = List.range rd.M ∧
      (if rd.hasCoords then some (slices.flatMap PatchSlice.coords) else none) =
        allCoords rd file := by
  have hread : slices = (calls.map SliceCall.range).map fun r => fileSlice rd file r.1 r.2 := by
    have hok : calls.map (SliceCall.outcome rd) =
        ((calls.map SliceCall.range).map fun r => fileSlice rd file r.1 r.2).map .ok := by
      rw [List.map_map, List.map_map]
      apply List.map_congr_left
      intro c hc
      have hc' := (hdiv.bounds.2 c.range (List.mem_map_of_mem hc)).2
      rw [SliceCall.outcome, (safely_readSlice hacc hsmall _ _).outcome_eq (hfile c hc),
        sliceOutcome_eq_ok hacc hmono hc'.1 hc'.2]
      rfl
    exact List.map_injective_iff.mpr (fun _ _ h => Except.ok.inj h) (hslices.symm.trans hok)
  have hflat : ∀ {α : Type} (g : PatchSlice → List α), slices.flatMap g =
      (calls.map SliceCall.range).flatMap fun r => g (fileSlice rd file r.1 r.2) := by
    intro α g
    rw [hread, List.flatMap_map]
  refine ⟨?_, ?_, ?_⟩
  · rw [hflat]
    simp only [fileSlice_patches]
    exact hdiv.flatMap_range' _
  · rw [hflat]
    simp only [fileSlice_globalIds]
    have hids := hdiv.flatMap_range' id
    simp only [List.map_id] at hids
    rw [hids, List.range_eq_range', Nat.sub_zero]
  · rw [allCoords]
    by_cases hcoords : rd.hasCoords = true
    · rw [if_pos hcoords, if_pos hcoords, hflat]
      simp only [fileSlice_coords hcoords]
      exact congrArg some (hdiv.flatMap_range' _)
    · rw [if_neg hcoords, if_neg hcoords]

/-- However the patches of an accepted file are divided, all the slices come back exactly when
the offsets do not descend, and then they are the file. -/
theorem readSlices_whole_file (path : String) (file : List Byte) (hsize : file.length < 2 ^ 62)
    (rd : StpsBinaryReader) (s : Stream)
    (hopen : exec (openPatchFile path) (Stream.opened file) = (.ok rd, s))
    (calls : List SliceCall) (hdiv : Divides 0 rd.M (calls.map SliceCall.range))
    (hfile : ∀ c ∈ calls, c.stream.bytes = file) :
    ((∀ c ∈ calls, ∃ slice, c.outcome rd = .ok slice) ↔ MonotoneOn rd file 0 rd.M) ∧
      ∀ slices : List PatchSlice, calls.map (SliceCall.outcome rd) = slices.map Except.ok →
        (slices.flatMap PatchSlice.patches).length = rd.M ∧
        (slices.flatMap PatchSlice.patches).flatten = hashSection rd file ∧
        slices.flatMap PatchSlice.globalIds = List.range rd.M ∧
        (rd.hasCoords = true →
          (slices.flatMap PatchSlice.coords).flatten = coordSection rd file) ∧
        ∃ out, writePatchFileImpl path (slices.flatMap PatchSlice.patches)
            (if rd.hasCoords then some (slices.flatMap PatchSlice.coords) else none) = .ok out ∧
          out.length = file.length ∧ out.take 24 = file.take 24 ∧ out.drop 32 = file.drop 32 := by
  have hsmall : file.length < 2 ^ 63 := by omega
  obtain ⟨hacc, -⟩ := accepted_of_open hsize rfl hopen
  refine ⟨all_slices_ok_iff hacc hsmall hdiv hfile, fun slices hslices => ?_⟩
  have hmono : MonotoneOn rd file 0 rd.M := by
    apply (all_slices_ok_iff hacc hsmall hdiv hfile).mp
    intro c hc
    have hmem := List.mem_map_of_mem (f := SliceCall.outcome rd) hc
    rw [hslices] at hmem
    obtain ⟨slice, -, hslice⟩ := List.mem_map.mp hmem
    exact ⟨slice, hslice.symm⟩
  obtain ⟨hpatches, hids, hcoords⟩ := slices_eq_all hacc hsmall hmono hdiv hfile hslices
  have hlen := length_layout_all hacc hmono
  have hagain := layout_all hacc hsmall hmono
  rw [hpatches, hcoords]
  refine ⟨by simp [allPatches], flatten_patchWindows_all hacc hmono length_hashSection, hids, ?_,
    layout (allPatches rd file) (allCoords rd file), ?_, hlen, hagain.1, hagain.2⟩
  · intro hhas
    rw [allCoords, if_pos hhas, if_pos hhas] at hcoords
    rw [Option.some.inj hcoords]
    exact flatten_patchWindows_all hacc hmono length_coordSection
  · exact (writePatchFileImpl_eq_ok_iff _ _ _).mpr
      ⟨sameShape_all hacc hmono, rfl, by omega⟩

/-- The calls of three ranks, the second of them without a patch. -/
def threeRanks (file : List Byte) : List SliceCall :=
  [⟨(0, 1), Stream.opened file⟩, ⟨(1, 1), Stream.opened file⟩, ⟨(1, 2), Stream.opened file⟩]

/-- The second offset of two patches is set past the third. -/
theorem accepted_descending : Accepted (layoutReader "p" [[3, 3], [5]] none)
    ((layout [[3, 3], [5]] none).set 40 7) where
  magic := by decide
  count := by decide +kernel
  total := by decide +kernel
  length_eq := by decide
  first := by decide +kernel
  last := by decide +kernel

theorem not_monotoneOn_descending : ¬ MonotoneOn (layoutReader "p" [[3, 3], [5]] none)
    ((layout [[3, 3], [5]] none).set 40 7) 0 2 := by
  intro hmono
  have hstep := hmono 1 (by decide) (by decide)
  exact absurd hstep (by decide +kernel)

/-- A damaged offset is refused by some rank, and the intact file comes back whole. -/
theorem readSlices_whole_file_two :
    (¬ ∀ c ∈ threeRanks ((layout [[3, 3], [5]] none).set 40 7),
      ∃ slice, c.outcome (layoutReader "p" [[3, 3], [5]] none) = .ok slice) ∧
    ∀ slices : List PatchSlice, (threeRanks (layout [[3, 3], [5]] none)).map
        (SliceCall.outcome (layoutReader "p" [[3, 3], [5]] none)) = slices.map Except.ok →
      (slices.flatMap PatchSlice.patches).length = 2 ∧
        (slices.flatMap PatchSlice.patches).flatten =
          hashSection (layoutReader "p" [[3, 3], [5]] none) (layout [[3, 3], [5]] none) ∧
        slices.flatMap PatchSlice.globalIds = [0, 1] ∧
        ∃ out, writePatchFileImpl "p" (slices.flatMap PatchSlice.patches) none = .ok out ∧
          out.length = 80 ∧ out.take 24 = (layout [[3, 3], [5]] none).take 24 ∧
          out.drop 32 = (layout [[3, 3], [5]] none).drop 32 := by
  constructor
  · have hopen := (accepted_descending.safely_open (by decide)).outcome_eq
      (s := Stream.opened ((layout [[3, 3], [5]] none).set 40 7)) rfl
    rw [(readSlices_whole_file "p" ((layout [[3, 3], [5]] none).set 40 7) (by decide)
      (layoutReader "p" [[3, 3], [5]] none) _ (Prod.ext hopen rfl) (threeRanks _)
      (by simp [threeRanks, Divides, layoutReader]) (by simp [threeRanks, Stream.opened])).1]
    exact not_monotoneOn_descending
  · have hopen := ((accepted_layout (by simp) (by decide) "p").safely_open (by decide)).outcome_eq
      (s := Stream.opened (layout [[3, 3], [5]] none)) rfl
    intro slices hslices
    obtain ⟨hcount, hhashes, hids, -, hagain⟩ :=
      (readSlices_whole_file "p" (layout [[3, 3], [5]] none) (by decide)
        (layoutReader "p" [[3, 3], [5]] none) _ (Prod.ext hopen rfl) (threeRanks _)
        (by simp [threeRanks, Divides, layoutReader])
        (by simp [threeRanks, Stream.opened])).2 slices hslices
    exact ⟨hcount, hhashes, hids, hagain⟩

/-- Only the checks of the range and of its offsets refuse a slice. -/
theorem sliceOutcome_cases (rd : StpsBinaryReader) (file : List Byte) (first last : ℕ) :
    sliceOutcome rd file first last = .error (rangeError rd first last) ∨
      sliceOutcome rd file first last = .error (monotoneError rd) ∨
      sliceOutcome rd file first last = .error (pastHashesError rd) ∨
      ∃ slice, sliceOutcome rd file first last = .ok slice := by
  rw [sliceOutcome]
  split_ifs
  all_goals simp

/-- Whatever the bytes are, the reader refuses them when it opens them or never leaves them. -/
theorem reader_stays_inside (path : String) (file : List Byte) (hsize : file.length < 2 ^ 62) :
    (∃ what, (exec (openPatchFile path) (Stream.opened file)).1 = .error (fail path what)) ∨
      ∃ rd s, exec (openPatchFile path) (Stream.opened file) = (.ok rd, s) ∧
        file.length = 32 + 8 * (rd.M + 1) + 8 * rd.totalK +
          (if rd.hasCoords then 16 * rd.totalK else 0) ∧
        (∀ a ∈ s.log, a.Safe file.length) ∧
        ∀ (first last : ℕ) (stream : Stream), stream.bytes = file →
          ∃ outcome stream' made, exec (readSlice rd first last) stream = (outcome, stream') ∧
            stream'.bytes = file ∧ stream'.log = stream.log ++ made ∧
            (∀ a ∈ made, a.Safe file.length) ∧
            (outcome = .error (rangeError rd first last) ∨ outcome = .error (monotoneError rd) ∨
              outcome = .error (pastHashesError rd) ∨ ∃ slice, outcome = .ok slice) := by
  have hsmall : file.length < 2 ^ 63 := by omega
  rcases open_accepted_or_error path hsize with ⟨rd, hacc, rfl⟩ | ⟨what, herror⟩
  · right
    obtain ⟨s, made, hopen, -, hlog, hsafe⟩ :=
      hacc.safely_open hsmall (Stream.opened file) rfl
    have hlen := hacc.length_eq
    refine ⟨rd, s, hopen, ?_, ?_, ?_⟩
    · rw [hlen, kHeaderBytes, Nat.mul_comm (rd.M + 1), Nat.mul_comm rd.totalK 8,
        Nat.mul_comm rd.totalK 16]
    · rw [hlog]
      exact hsafe
    · intro first last stream hstream
      obtain ⟨stream', made', hrun, hbytes, hlog', hsafe'⟩ :=
        safely_readSlice hacc hsmall first last stream hstream
      exact ⟨_, stream', made', hrun, hbytes, hlog', hsafe', sliceOutcome_cases rd file first last⟩
  · left
    exact ⟨what, herror _ rfl⟩

theorem reader_stays_inside_two :
    (∃ what, (exec (openPatchFile "p") (Stream.opened (layout [[3, 3], [5]] none))).1 =
        .error (fail "p" what)) ∨
      ∃ rd s, exec (openPatchFile "p") (Stream.opened (layout [[3, 3], [5]] none)) = (.ok rd, s) ∧
        (layout [[3, 3], [5]] none).length = 32 + 8 * (rd.M + 1) + 8 * rd.totalK +
          (if rd.hasCoords then 16 * rd.totalK else 0) ∧
        (∀ a ∈ s.log, a.Safe (layout [[3, 3], [5]] none).length) ∧
        ∀ (first last : ℕ) (stream : Stream), stream.bytes = layout [[3, 3], [5]] none →
          ∃ outcome stream' made, exec (readSlice rd first last) stream = (outcome, stream') ∧
            stream'.bytes = layout [[3, 3], [5]] none ∧ stream'.log = stream.log ++ made ∧
            (∀ a ∈ made, a.Safe (layout [[3, 3], [5]] none).length) ∧
            (outcome = .error (rangeError rd first last) ∨ outcome = .error (monotoneError rd) ∨
              outcome = .error (pastHashesError rd) ∨ ∃ slice, outcome = .ok slice) :=
  reader_stays_inside "p" (layout [[3, 3], [5]] none) (by decide)

theorem reserved_of_three : .alloc 3 24 ∈ (exec (readSlice (layoutReader "p" [[], [], []] none) 0 3)
    (Stream.opened (layout [[], [], []] none))).2.log := by
  decide +kernel

/-- Three patches without a hash lie in 64 bytes, and the headers of their vectors take 72. -/
theorem not_slice_within_file :
    ∃ s s' slice, exec (openPatchFile "p") (Stream.opened (layout [[], [], []] none)) =
        (.ok (layoutReader "p" [[], [], []] none), s) ∧
      exec (readSlice (layoutReader "p" [[], [], []] none) 0 3)
        (Stream.opened (layout [[], [], []] none)) = (.ok slice, s') ∧
      .alloc 3 24 ∈ s'.log ∧ (layout [[], [], []] none).length = 64 := by
  have hopen := ((accepted_layout (by simp) (by decide) "p").safely_open (by decide)).outcome_eq
    (s := Stream.opened (layout [[], [], []] none)) rfl
  have hread : Safely (layout [[], [], []] none)
      (readSlice (layoutReader "p" [[], [], []] none) 0 3) _ :=
    safely_readSlice_layout (by simp) (by decide) (Nat.zero_le 3) (by decide)
  obtain ⟨s', -, hrun, -⟩ := hread (Stream.opened (layout [[], [], []] none)) rfl
  have hlog := reserved_of_three
  rw [hrun] at hlog
  exact ⟨_, s', _, Prod.ext hopen rfl, hrun, hlog, by decide⟩

end Outcomes

end PatternSearch.PatchFileCorrupt
