import PatternSearch.PatchFileRead

/-!
The file that the writer leaves, and its sections as the reader finds them. Every patch and
its coordinates come back at the offsets that the writer summed up.
-/

namespace PatternSearch.PatchFileWrite

open Csr Machine Bytes FileStream PatternStats PatchFile PatchFileRead

section Layout

/-- All the bytes, in the order in which they are written. -/
def layout (patches : List (List Hash)) (coords : Option (List (List (Point Double)))) :
    List Byte :=
  (if coords.isSome then kMagicV2 else kMagicV1) ++
    (Codec.word.encodeAll [Fin.ofNat (2 ^ 64) patches.length,
        (offsetsOf patches).getD patches.length 0, 0] ++
      (Codec.word.encodeAll (offsetsOf patches) ++
        (Codec.word.encodeAll patches.flatten ++
          pointCodec.encodeAll (coords.getD []).flatten)))

/-- Every patch has as many coordinates as hashes. -/
def SameShape (patches : List (List Hash)) (coords : List (List (Point Double))) : Prop :=
  coords.map List.length = patches.map List.length

variable {path : String} {out out' bytes : List Byte}

theorem writeExact_eq_ok_iff (hout : out.length < 2 ^ 63) :
    writeExact path out bytes = .ok out' ↔ out' = out ++ bytes ∧ out'.length < 2 ^ 63 := by
  rw [writeExact]
  split_ifs with hbig
  · constructor
    · intro h
      cases h
    · rintro ⟨rfl, hlen⟩
      rw [List.length_append] at hlen
      omega
  · constructor
    · intro h
      cases h
      refine ⟨rfl, ?_⟩
      rw [List.length_append]
      by_cases hnil : bytes = []
      · rw [hnil, List.length_nil]
        omega
      · exact Nat.lt_of_not_le fun hlen => hbig ⟨hnil, hlen⟩
    · rintro ⟨rfl, -⟩
      rfl

/-- The arrays of a section, one after another. -/
theorem foldlM_writeExact_eq_ok_iff {α : Type} (c : Codec α) (arrays : List (List α))
    (hout : out.length < 2 ^ 63) :
    arrays.foldlM (fun out a => writeExact path out (c.encodeAll a)) out = .ok out' ↔
      out' = out ++ c.encodeAll arrays.flatten ∧ out'.length < 2 ^ 63 := by
  induction arrays generalizing out with
  | nil =>
    have hnil : out ++ c.encodeAll [] = out := List.append_nil out
    rw [List.foldlM_nil, pure_eq_ok, List.flatten_nil, hnil]
    constructor
    · intro h
      cases h
      exact ⟨rfl, hout⟩
    · rintro ⟨rfl, -⟩
      rfl
  | cons a arrays ih =>
    rw [List.foldlM_cons, bind_eq_ok, List.flatten_cons, c.encodeAll_append,
      ← List.append_assoc]
    constructor
    · rintro ⟨mid, hmid, hrest⟩
      obtain ⟨rfl, hlen⟩ := (writeExact_eq_ok_iff hout).mp hmid
      exact (ih hlen).mp hrest
    · rintro ⟨rfl, hlen⟩
      have hmid : (out ++ c.encodeAll a).length < 2 ^ 63 := by
        rw [List.length_append] at hlen
        omega
      exact ⟨_, (writeExact_eq_ok_iff hout).mpr ⟨rfl, hmid⟩, (ih hmid).mpr ⟨rfl, hlen⟩⟩

theorem forM_eq_ok_iff {α : Type} (f : α → Except Fault Unit) (l : List α) :
    l.forM f = .ok () ↔ ∀ x ∈ l, f x = .ok () := by
  induction l with
  | nil => simp [List.forM]
  | cons x l ih =>
    have hcons : (x :: l).forM f = (f x >>= fun _ => l.forM f) := rfl
    rw [hcons, bind_eq_ok, List.forall_mem_cons, ← ih]
    constructor
    · rintro ⟨_, hx, hl⟩
      exact ⟨hx, hl⟩
    · rintro ⟨hx, hl⟩
      exact ⟨(), hx, hl⟩

theorem sameShape_iff_getD (patches : List (List Hash)) (coords : List (List (Point Double))) :
    SameShape patches coords ↔ coords.length = patches.length ∧
      ∀ p < patches.length, (coords.getD p []).length = (patches.getD p []).length := by
  have hget : ∀ {α : Type} (l : List (List α)) (p : ℕ),
      (l.getD p []).length = (l.map List.length).getD p 0 := by
    intro α l p
    rw [← List.length_nil (α := α), List.getD_map]
  simp only [hget]
  constructor
  · intro h
    refine ⟨by simpa using congrArg List.length h, fun p _ => ?_⟩
    rw [SameShape] at h
    rw [h]
  · rintro ⟨hlen, h⟩
    apply List.ext_getElem (by simpa using hlen)
    intro p hp hp'
    rw [← List.getD_eq_getElem _ 0 hp, ← List.getD_eq_getElem _ 0 hp']
    exact h p (by simpa using hp')

theorem checkShape_eq_ok_iff (patches : List (List Hash)) (coords : List (List (Point Double))) :
    checkShape path patches coords = .ok () ↔ SameShape patches coords := by
  rw [sameShape_iff_getD, checkShape]
  by_cases hlen : coords.length = patches.length
  · have hpass : ∀ {c : Prop} [Decidable c] {e : Fault},
        (if c then throw e else pure () : Except Fault Unit) = .ok () ↔ ¬ c := by
      intro c _ e
      split_ifs with hc
      · constructor
        · intro h
          cases h
        · intro h
          exact absurd hc h
      · exact ⟨fun _ => hc, fun _ => rfl⟩
    rw [if_neg (not_not.mpr hlen), forM_eq_ok_iff]
    simp only [hpass, List.mem_range, not_not]
    exact (and_iff_right hlen).symm
  · rw [if_pos hlen]
    constructor
    · intro h
      cases h
    · intro h
      exact absurd h.1 hlen

/-- One write before the rest of the file. -/
theorem writeExact_bind_eq_ok_iff {rest : List Byte} {next : List Byte → Except Fault (List Byte)}
    (hout : out.length < 2 ^ 63)
    (hnext : ∀ mid, mid.length < 2 ^ 63 → (next mid = .ok out' ↔
      out' = mid ++ rest ∧ out'.length < 2 ^ 63)) :
    (writeExact path out bytes >>= next) = .ok out' ↔
      out' = out ++ (bytes ++ rest) ∧ out'.length < 2 ^ 63 := by
  rw [bind_eq_ok, ← List.append_assoc]
  constructor
  · rintro ⟨mid, hmid, hrest⟩
    obtain ⟨rfl, hlen⟩ := (writeExact_eq_ok_iff hout).mp hmid
    exact (hnext _ hlen).mp hrest
  · rintro ⟨rfl, hlen⟩
    have hmid : (out ++ bytes).length < 2 ^ 63 := by
      rw [List.length_append] at hlen
      omega
    exact ⟨_, (writeExact_eq_ok_iff hout).mpr ⟨rfl, hmid⟩, (hnext _ hmid).mpr ⟨rfl, hlen⟩⟩

/-- The sections one after another. -/
theorem writeSections_eq_ok_iff (magic header offsets : List Byte) (patches : List (List Hash))
    (coords : List (List (Point Double))) (file : List Byte) :
    (do
      let out ← writeExact path [] magic
      let out ← writeExact path out header
      let out ← writeExact path out offsets
      let out ← patches.foldlM (fun out p => writeExact path out (Codec.word.encodeAll p)) out
      coords.foldlM (fun out c => writeExact path out (pointCodec.encodeAll c)) out) = .ok file ↔
      file = magic ++ (header ++ (offsets ++ (Codec.word.encodeAll patches.flatten ++
        pointCodec.encodeAll coords.flatten))) ∧ file.length < 2 ^ 63 := by
  apply writeExact_bind_eq_ok_iff (show ([] : List Byte).length < 2 ^ 63 by decide)
  intro out hout
  apply writeExact_bind_eq_ok_iff hout
  intro out hout
  apply writeExact_bind_eq_ok_iff hout
  intro out hout
  rw [bind_eq_ok, ← List.append_assoc]
  constructor
  · rintro ⟨mid, hmid, hrest⟩
    obtain ⟨rfl, hlen⟩ := (foldlM_writeExact_eq_ok_iff Codec.word patches hout).mp hmid
    exact (foldlM_writeExact_eq_ok_iff pointCodec coords hlen).mp hrest
  · rintro ⟨rfl, hlen⟩
    have hmid : (out ++ Codec.word.encodeAll patches.flatten).length < 2 ^ 63 := by
      rw [List.length_append] at hlen
      omega
    exact ⟨_, (foldlM_writeExact_eq_ok_iff Codec.word patches hout).mpr ⟨rfl, hmid⟩,
      (foldlM_writeExact_eq_ok_iff pointCodec coords hmid).mpr ⟨rfl, hlen⟩⟩

/-- The writer succeeds on matching shapes whose file stays below the largest offset. -/
theorem writePatchFileImpl_eq_ok_iff (patches : List (List Hash))
    (coords : Option (List (List (Point Double)))) (file : List Byte) :
    writePatchFileImpl path patches coords = .ok file ↔
      (∀ cs, coords = some cs → SameShape patches cs) ∧ file = layout patches coords ∧
        file.length < 2 ^ 63 := by
  have hcheck : (coords.elim (.ok ()) (checkShape path patches) : Except Fault Unit) = .ok () ↔
      ∀ cs, coords = some cs → SameShape patches cs := by
    cases coords with
    | none => simp
    | some cs => simp [checkShape_eq_ok_iff]
  rw [writePatchFileImpl, bind_eq_ok, ← hcheck, layout]
  constructor
  · rintro ⟨_, hshape, hrest⟩
    exact ⟨hshape, (writeSections_eq_ok_iff _ _ _ patches _ file).mp hrest⟩
  · rintro ⟨hshape, hrest⟩
    exact ⟨(), hshape, (writeSections_eq_ok_iff _ _ _ patches _ file).mpr hrest⟩

end Layout

section Offsets

theorem length_offsetsOf (patches : List (List Hash)) :
    (offsetsOf patches).length = patches.length + 1 := List.length_scanl

/-- The offset of a patch counts the hashes before it. -/
theorem getD_offsetsOf (patches : List (List Hash)) {p : ℕ} (hp : p ≤ patches.length) :
    (offsetsOf patches).getD p 0 = Fin.ofNat (2 ^ 64) (patches.take p).flatten.length := by
  have aux : ∀ (l : List (List Hash)) (a : Fin (2 ^ 64)) (q : ℕ), q ≤ l.length →
      (l.scanl (fun offset p => offset + Fin.ofNat (2 ^ 64) p.length) a).getD q 0 =
        a + Fin.ofNat (2 ^ 64) (l.take q).flatten.length := by
    intro l
    induction l with
    | nil =>
      intro a q hq
      obtain rfl : q = 0 := Nat.le_zero.mp hq
      simp
    | cons x l ih =>
      intro a q hq
      cases q with
      | zero => simp
      | succ q =>
        rw [List.scanl_cons, List.getD_cons_succ, ih _ q (by simpa using hq), List.take_succ_cons,
          List.flatten_cons, List.length_append]
        apply Fin.ext
        simp only [Fin.val_add, Fin.val_ofNat]
        omega
  rw [offsetsOf, aux patches 0 p hp]
  exact Fin.zero_add _

/-- A patch lies between the hashes before it and those after it. -/
theorem window_flatten {α : Type} (l : List (List α)) {p : ℕ} (hp : p < l.length) :
    window l.flatten (l.take p).flatten.length (l.take (p + 1)).flatten.length = l.getD p [] := by
  have hsplit : l.flatten = (l.take p).flatten ++ (l[p] ++ (l.drop (p + 1)).flatten) := by
    rw [← List.append_assoc, ← Csr.flatten_take_succ l hp, ← List.flatten_append,
      List.take_append_drop]
  rw [window, Csr.flatten_take_succ l hp, List.length_append, Nat.add_sub_cancel_left, hsplit,
    List.drop_left, List.take_left, List.getD_eq_getElem _ _ hp]

/-- Matching shapes have the same offsets. -/
theorem SameShape.length_take {patches : List (List Hash)} {coords : List (List (Point Double))}
    (h : SameShape patches coords) (p : ℕ) :
    (coords.take p).flatten.length = (patches.take p).flatten.length := by
  rw [List.length_flatten, List.length_flatten, List.map_take, List.map_take, h]

theorem SameShape.length_flatten {patches : List (List Hash)}
    {coords : List (List (Point Double))} (h : SameShape patches coords) :
    coords.flatten.length = patches.flatten.length := by
  rw [List.length_flatten, List.length_flatten, h]

end Offsets

section Sections

variable {path : String} {patches : List (List Hash)}
  {coords : Option (List (List (Point Double)))}

/-- What a reader knows of the written file. -/
def layoutReader (path : String) (patches : List (List Hash))
    (coords : Option (List (List (Point Double)))) : StpsBinaryReader :=
  { path, M := patches.length, totalK := patches.flatten.length, hasCoords := coords.isSome }

/-- Everything after the header. -/
theorem layout_eq (patches : List (List Hash)) (coords : Option (List (List (Point Double)))) :
    ∃ header, header.length = kHeaderBytes ∧ header.take 8 = (if coords.isSome then kMagicV2
        else kMagicV1) ∧
      header.drop 8 = Codec.word.encodeAll [Fin.ofNat (2 ^ 64) patches.length,
        (offsetsOf patches).getD patches.length 0, 0] ∧
      layout patches coords = header ++ (Codec.word.encodeAll (offsetsOf patches) ++
        (Codec.word.encodeAll patches.flatten ++
          pointCodec.encodeAll (coords.getD []).flatten)) := by
  have hmagic : (if coords.isSome then kMagicV2 else kMagicV1).length = 8 := by
    split_ifs <;> rfl
  refine ⟨(if coords.isSome then kMagicV2 else kMagicV1) ++ Codec.word.encodeAll
    [Fin.ofNat (2 ^ 64) patches.length, (offsetsOf patches).getD patches.length 0, 0],
    ?_, List.take_left' hmagic, List.drop_left' hmagic, ?_⟩
  · rw [List.length_append, hmagic, Codec.length_encodeAll]
    rfl
  · rw [layout, List.append_assoc]

theorem headerSection_layout : headerSection (layout patches coords) =
    [Fin.ofNat (2 ^ 64) patches.length, (offsetsOf patches).getD patches.length 0, 0] := by
  obtain ⟨header, hlen, -, hnumbers, heq⟩ := layout_eq patches coords
  have hle : 8 ≤ header.length := by
    rw [hlen]
    decide
  rw [headerSection, heq, List.drop_append_of_le_length hle, hnumbers]
  exact Codec.word.decodeAll_encodeAll_append [Fin.ofNat (2 ^ 64) patches.length,
    (offsetsOf patches).getD patches.length 0, 0] _

theorem take_layout : (layout patches coords).take 8 =
    if coords.isSome then kMagicV2 else kMagicV1 := by
  obtain ⟨header, hlen, hmagic, -, heq⟩ := layout_eq patches coords
  have hle : 8 ≤ header.length := by
    rw [hlen]
    decide
  rw [heq, List.take_append_of_le_length hle, hmagic]

theorem hashSection_layout :
    hashSection (layoutReader path patches coords) (layout patches coords) = patches.flatten := by
  obtain ⟨header, hlen, -, -, heq⟩ := layout_eq patches coords
  have hoffsets : (Codec.word.encodeAll (offsetsOf patches)).length =
      ((layoutReader path patches coords).M + 1) * 8 := by
    rw [Codec.length_encodeAll, length_offsetsOf]
    rfl
  rw [hashSection, ← List.drop_drop, heq, List.drop_left' hlen, List.drop_left' hoffsets]
  exact Codec.decodeAll_encodeAll_append _ _ _

variable (hshape : ∀ cs, coords = some cs → SameShape patches cs)
include hshape

theorem length_coords (hcoords : coords.isSome = true) :
    (coords.getD []).flatten.length = patches.flatten.length := by
  obtain ⟨cs, hcs⟩ := Option.isSome_iff_exists.mp hcoords
  rw [hcs, Option.getD_some]
  exact (hshape cs hcs).length_flatten

theorem length_layout : (layout patches coords).length = kHeaderBytes + (patches.length + 1) * 8 +
    patches.flatten.length * 8 + if coords.isSome then patches.flatten.length * 16 else 0 := by
  have hword : Codec.word.width = 8 := rfl
  have hpoint : pointCodec.width = 16 := rfl
  obtain ⟨header, hlen, -, -, heq⟩ := layout_eq patches coords
  rw [heq]
  simp only [List.length_append, Codec.length_encodeAll, hlen, hword, hpoint, length_offsetsOf]
  by_cases hcoords : coords.isSome = true
  · rw [if_pos hcoords, length_coords hshape hcoords]
    omega
  · rw [if_neg hcoords, Option.not_isSome_iff_eq_none.mp hcoords]
    simp
    omega

theorem coordSection_layout (hcoords : coords.isSome = true) :
    coordSection (layoutReader path patches coords) (layout patches coords) =
      (coords.getD []).flatten := by
  obtain ⟨header, hlen, -, -, heq⟩ := layout_eq patches coords
  have hoffsets : (Codec.word.encodeAll (offsetsOf patches)).length =
      ((layoutReader path patches coords).M + 1) * 8 := by
    rw [Codec.length_encodeAll, length_offsetsOf]
    rfl
  have hhashes : (Codec.word.encodeAll patches.flatten).length =
      (layoutReader path patches coords).totalK * 8 := Codec.length_encodeAll _ _
  have hcount : (layoutReader path patches coords).totalK = (coords.getD []).flatten.length :=
    (length_coords hshape hcoords).symm
  rw [coordSection, ← List.drop_drop, ← List.drop_drop, heq, List.drop_left' hlen,
    List.drop_left' hoffsets, List.drop_left' hhashes, hcount]
  exact (List.append_nil (pointCodec.encodeAll (coords.getD []).flatten)) ▸
    Codec.decodeAll_encodeAll_append _ _ []

variable (hsmall : (layout patches coords).length < 2 ^ 63)
include hsmall

/-- Every offset is exact. -/
theorem fileOffset_layout {p : ℕ} (hp : p ≤ patches.length) :
    fileOffset (layoutReader path patches coords) (layout patches coords) p =
      (patches.take p).flatten.length := by
  obtain ⟨header, hlen, -, -, heq⟩ := layout_eq patches coords
  have hcount : (layoutReader path patches coords).M + 1 = (offsetsOf patches).length :=
    (length_offsetsOf patches).symm
  have hbound : (patches.take p).flatten.length ≤ patches.flatten.length := by
    rw [← List.take_append_drop p patches, List.flatten_append, List.length_append,
      List.take_append_drop]
    omega
  have htotal := length_layout hshape
  rw [fileOffset, offsetSection, hcount, heq, List.drop_left' hlen,
    Codec.decodeAll_encodeAll_append, getD_offsetsOf patches hp, Fin.val_ofNat,
    Nat.mod_eq_of_lt (by omega)]

theorem accepted_layout (path : String) :
    Accepted (layoutReader path patches coords) (layout patches coords) where
  magic := take_layout
  count := by
    have htotal := length_layout hshape
    rw [headerSection_layout, List.getD_cons_zero, Fin.val_ofNat, Nat.mod_eq_of_lt (by omega)]
    rfl
  total := by
    have htotal := length_layout hshape
    rw [headerSection_layout, List.getD_cons_succ, List.getD_cons_zero,
      getD_offsetsOf patches (Nat.le_refl _), List.take_length, Fin.val_ofNat,
      Nat.mod_eq_of_lt (by omega)]
    rfl
  length_eq := length_layout hshape
  first := by
    rw [fileOffset_layout hshape hsmall (Nat.zero_le _)]
    rfl
  last := by
    have hend : fileOffset (layoutReader path patches coords) (layout patches coords)
        patches.length = _ := fileOffset_layout hshape hsmall (Nat.le_refl _)
    rwa [List.take_length] at hend

theorem patchWindow_layout {α : Type} (l : List (List α)) {p : ℕ} (hp : p < patches.length)
    (hsame : l.map List.length = patches.map List.length) :
    patchWindow (layoutReader path patches coords) (layout patches coords) l.flatten p =
      l.getD p [] := by
  have htake : ∀ q, (l.take q).flatten.length = (patches.take q).flatten.length := by
    intro q
    rw [List.length_flatten, List.length_flatten, List.map_take, List.map_take, hsame]
  have hlen : l.length = patches.length := by simpa using congrArg List.length hsame
  rw [patchWindow, fileOffset_layout hshape hsmall (by omega),
    fileOffset_layout hshape hsmall (by omega), ← htake, ← htake, window_flatten l (by omega)]

theorem map_patchWindow_layout {α : Type} (l : List (List α)) {first last : ℕ}
    (hlast : last ≤ patches.length) (hsame : l.map List.length = patches.map List.length) :
    ((List.range (last - first)).map fun p => first + p).map
      (patchWindow (layoutReader path patches coords) (layout patches coords) l.flatten) =
        window l first last := by
  have hlen : l.length = patches.length := by simpa using congrArg List.length hsame
  rw [window_eq_map l [] (by omega), List.map_map]
  apply List.map_congr_left
  intro p hp
  have hlt := List.mem_range.mp hp
  have hin : first + p < patches.length := by omega
  exact patchWindow_layout hshape hsmall l hin hsame

/-- The slice that the file was written from. -/
theorem fileSlice_layout {first last : ℕ} (hlast : last ≤ patches.length) :
    fileSlice (layoutReader path patches coords) (layout patches coords) first last =
      { patches := window patches first last
        globalIds := List.range' first (last - first)
        coords := window (coords.getD []) first last } := by
  have hcoords : (if (layoutReader path patches coords).hasCoords then
        ((List.range (last - first)).map fun p => first + p).map
          (patchWindow (layoutReader path patches coords) (layout patches coords)
            (coordSection (layoutReader path patches coords) (layout patches coords)))
      else []) = window (coords.getD []) first last := by
    by_cases hsome : coords.isSome = true
    · obtain ⟨cs, hcs⟩ := Option.isSome_iff_exists.mp hsome
      have hget : coords.getD [] = cs := by rw [hcs, Option.getD_some]
      rw [if_pos (show (layoutReader path patches coords).hasCoords = true from hsome),
        coordSection_layout hshape hsome, hget]
      exact map_patchWindow_layout hshape hsmall cs hlast (hshape cs hcs)
    · have hnone : coords.getD [] = [] := by
        rw [Option.not_isSome_iff_eq_none.mp hsome, Option.getD_none]
      rw [if_neg (show ¬ (layoutReader path patches coords).hasCoords = true from hsome), hnone,
        window, List.drop_nil, List.take_nil]
  rw [fileSlice, hashSection_layout, hcoords,
    map_patchWindow_layout hshape hsmall patches hlast rfl, List.range'_eq_map_range]

/-- Every slice of the written file can be read, from wherever the stream stands. -/
theorem safely_readSlice_layout {first last : ℕ} (hfirst : first ≤ last)
    (hlast : last ≤ patches.length) :
    Safely (layout patches coords) (readSlice (layoutReader path patches coords) first last)
      (.ok { patches := window patches first last
             globalIds := List.range' first (last - first)
             coords := window (coords.getD []) first last }) := by
  have hacc := accepted_layout hshape hsmall path
  have hrange : ¬ (last < first ∨ (layoutReader path patches coords).M < last) := by
    rw [not_or, Nat.not_lt, Nat.not_lt]
    exact ⟨hfirst, hlast⟩
  have hmono : MonotoneOn (layoutReader path patches coords) (layout patches coords)
      first last := by
    intro p _ hp
    rw [fileOffset_layout hshape hsmall (by omega), fileOffset_layout hshape hsmall (by omega),
      Csr.flatten_take_succ patches (by omega), List.length_append]
    omega
  have hpast : ¬ (layoutReader path patches coords).totalK <
      fileOffset (layoutReader path patches coords) (layout patches coords) last := by
    have hsplit := congrArg (fun l => (List.flatten l).length) (List.take_append_drop last patches)
    simp only [List.flatten_append, List.length_append] at hsplit
    have htotal : (layoutReader path patches coords).totalK = patches.flatten.length := rfl
    rw [fileOffset_layout hshape hsmall hlast, htotal]
    omega
  have hread := safely_readSlice hacc hsmall first last
  rw [sliceOutcome, if_neg hrange, if_neg (not_not.mpr hmono), if_neg hpast,
    fileSlice_layout hshape hsmall hlast] at hread
  exact hread

end Sections

section RoundTrip

/-- A written file opens, and every range of patches comes back from it with its ids and, in the
second version, its coordinates. -/
theorem readSlice_of_written (path : String) (patches : List (List Hash))
    (coords : Option (List (List (Point Double))))
    (hshape : ∀ cs, coords = some cs → cs.map List.length = patches.map List.length)
    (hsize : kHeaderBytes + (patches.length + 1) * 8 + patches.flatten.length * 8 +
      (if coords.isSome then patches.flatten.length * 16 else 0) < 2 ^ 62)
    (first last : ℕ) (hfirst : first ≤ last) (hlast : last ≤ patches.length) :
    ∃ file rd s, writePatchFileImpl path patches coords = .ok file ∧
      exec (openPatchFile path) (Stream.opened file) = (.ok rd, s) ∧ s.bytes = file ∧
      rd.patchCount = patches.length ∧ rd.hasCoords = coords.isSome ∧
      ∀ s' : Stream, s'.bytes = file → (exec (readSlice rd first last) s').1 =
        .ok { patches := window patches first last
              globalIds := List.range' first (last - first)
              coords := window (coords.getD []) first last } := by
  have hsmall : (layout patches coords).length < 2 ^ 63 := by
    rw [length_layout hshape]
    omega
  obtain ⟨s, made, hopen, hbytes, -⟩ :=
    (accepted_layout hshape hsmall path).safely_open hsmall
      (Stream.opened (layout patches coords)) rfl
  refine ⟨layout patches coords, layoutReader path patches coords, s, ?_, hopen, hbytes, rfl, rfl,
    ?_⟩
  · exact (writePatchFileImpl_eq_ok_iff patches coords _).mpr ⟨hshape, rfl, hsmall⟩
  · intro s' hs'
    exact (safely_readSlice_layout hshape hsmall hfirst hlast).outcome_eq hs'

theorem readSlice_of_written_two :
    ∃ file rd s, writePatchFileImpl "p" [[3, 3], [5]] (some [[⟨1, 2⟩, ⟨1, 2⟩], [⟨0, 4⟩]]) =
        .ok file ∧
      exec (openPatchFile "p") (Stream.opened file) = (.ok rd, s) ∧ s.bytes = file ∧
      rd.patchCount = 2 ∧ rd.hasCoords = true ∧
      ∀ s' : Stream, s'.bytes = file → (exec (readSlice rd 1 2) s').1 =
        .ok { patches := [[5]], globalIds := [1], coords := [[⟨0, 4⟩]] } :=
  readSlice_of_written "p" [[3, 3], [5]] (some [[⟨1, 2⟩, ⟨1, 2⟩], [⟨0, 4⟩]])
    (by simp) (by decide) 1 2 (by decide) (by decide)

end RoundTrip

end PatternSearch.PatchFileWrite
