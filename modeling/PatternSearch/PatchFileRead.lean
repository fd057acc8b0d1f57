import PatternSearch.PatchFile

/-!
What the reader returns. A file that opens has exactly the declared length and its offsets
start at zero and end at the number of hashes. On such a file every call of `readSlice` has
an outcome that only the offsets of the range decide, and reads nothing outside the file.
-/

namespace PatternSearch.PatchFileRead

open Csr Machine Bytes FileStream PatternStats PatchFile

/-- The entries from `first` up to `last`. -/
def window {α : Type} (l : List α) (first last : ℕ) : List α := (l.drop first).take (last - first)

theorem length_window {α : Type} (l : List α) {first last : ℕ} (h : last ≤ l.length) :
    (window l first last).length = last - first := by
  rw [window, List.length_take, List.length_drop]
  omega

theorem window_window {α : Type} (l : List α) {a b first last : ℕ} (hfirst : a ≤ first)
    (hlast : last ≤ b) : window (window l a b) (first - a) (last - a) = window l first last := by
  rw [window, window, window, List.drop_take, List.take_take, List.drop_drop]
  congr 1
  · omega
  · congr 1
    omega

/-- Consecutive windows. -/
theorem window_append {α : Type} (l : List α) {a b c : ℕ} (hab : a ≤ b) (hbc : b ≤ c) :
    window l a b ++ window l b c = window l a c := by
  have hb : l.drop b = (l.drop a).drop (b - a) := by
    rw [List.drop_drop]
    congr 1
    omega
  have hc : c - a = (b - a) + (c - b) := by omega
  rw [window, window, window, hb, hc, List.take_add]

theorem getD_window {α : Type} (l : List α) (d : α) {first last i : ℕ} (hi : i < last - first) :
    (window l first last).getD i d = l.getD (first + i) d := by
  rw [window, List.getD_eq_getElem?_getD, List.getElem?_take_of_lt hi, List.getElem?_drop,
    List.getD_eq_getElem?_getD]

theorem window_eq_map {α : Type} (l : List α) (d : α) {first last : ℕ} (h : last ≤ l.length) :
    window l first last = (List.range (last - first)).map fun p => l.getD (first + p) d := by
  apply List.ext_getElem (by simp [length_window l h])
  intro p hp hp'
  rw [← List.getD_eq_getElem _ d hp, getD_window l d (by simpa using hp'), List.getElem_map,
    List.getElem_range]

section Sections

variable (rd : StpsBinaryReader) (file : List Byte)

/-- The numbers after the magic: the patches, the hashes and a reserved one. -/
def headerSection : List (Fin (2 ^ 64)) := Codec.word.decodeAll 3 (file.drop 8)

def offsetSection : List (Fin (2 ^ 64)) :=
  Codec.word.decodeAll (rd.M + 1) (file.drop kHeaderBytes)

def hashSection : List Hash :=
  Codec.word.decodeAll rd.totalK (file.drop (kHeaderBytes + (rd.M + 1) * 8))

def coordSection : List (Point Double) :=
  pointCodec.decodeAll rd.totalK (file.drop (kHeaderBytes + (rd.M + 1) * 8 + rd.totalK * 8))

def fileOffset (p : ℕ) : ℕ := (offsetSection rd file).getD p 0

/-- The offsets of the patches from `first` up to `last` do not descend. -/
def MonotoneOn (first last : ℕ) : Prop :=
  ∀ p, first ≤ p → p < last → fileOffset rd file p ≤ fileOffset rd file (p + 1)

/-- The entries of a section that belong to a patch. -/
def patchWindow {α : Type} (l : List α) (p : ℕ) : List α :=
  window l (fileOffset rd file p) (fileOffset rd file (p + 1))

/-- The patches from `first` up to `last` as the file has them. -/
def fileSlice (first last : ℕ) : PatchSlice :=
  let ids := (List.range (last - first)).map fun p => first + p
  { patches := ids.map (patchWindow rd file (hashSection rd file))
    globalIds := ids
    coords :=
      if rd.hasCoords then ids.map (patchWindow rd file (coordSection rd file)) else [] }

/-- What opening a file establishes. -/
structure Accepted : Prop where
  magic : file.take 8 = if rd.hasCoords then kMagicV2 else kMagicV1
  count : ((headerSection file).getD 0 0 : ℕ) = rd.M
  total : ((headerSection file).getD 1 0 : ℕ) = rd.totalK
  length_eq : file.length = kHeaderBytes + (rd.M + 1) * 8 + rd.totalK * 8 +
    if rd.hasCoords then rd.totalK * 16 else 0
  first : fileOffset rd file 0 = 0
  last : fileOffset rd file rd.M = rd.totalK

end Sections

section Reads

variable {file : List Byte} (path : String)

theorem exec_seekTo {pos : ℕ} (hpos : pos < 2 ^ 63) (s : Stream) :
    exec (seekTo path pos) s = (.ok (), { s with pos, log := s.log ++ [.seek pos] }) := by
  rw [seekTo, fseek, if_neg (by omega)]
  rfl

theorem exec_fread (n : ℕ) (s : Stream) :
    exec (fread n) s = (.ok ((s.bytes.drop s.pos).take n),
      { s with pos := s.pos + ((s.bytes.drop s.pos).take n).length
               log := s.log ++ [.read s.pos n] }) := rfl

theorem exec_readExact_zero (s : Stream) : exec (readExact path 0) s = (.ok [], s) := rfl

theorem exec_readExact {n : ℕ} (hn : n ≠ 0) {s : Stream} (h : s.pos + n ≤ s.bytes.length) :
    exec (readExact path n) s = (.ok ((s.bytes.drop s.pos).take n),
      { s with pos := s.pos + n, log := s.log ++ [.read s.pos n] }) := by
  have hlen : ((s.bytes.drop s.pos).take n).length = n := by
    rw [List.length_take, List.length_drop]
    omega
  rw [readExact, if_neg hn]
  apply (exec_bind_ok (exec_fread n s)).trans
  rw [hlen, if_neg (by simp)]
  rfl

theorem exec_readExact_short {n : ℕ} {s : Stream} (h : s.bytes.length < s.pos + n)
    (hpos : s.pos ≤ s.bytes.length) :
    (exec (readExact path n) s).1 = .error (fail path "truncated file (unexpected EOF)") := by
  have hlen : ((s.bytes.drop s.pos).take n).length ≠ n := by
    rw [List.length_take, List.length_drop]
    omega
  rw [readExact, if_neg (by omega)]
  rw [exec_bind_ok (exec_fread n s), if_pos hlen]
  rfl

/-- Entries of the file, read from where they lie in it. -/
theorem safely_readAt {α : Type} (c : Codec α) (pos n : ℕ) (hsmall : file.length < 2 ^ 63)
    (hfits : pos + n * c.width ≤ file.length) :
    Safely file (do seekTo path pos; readEntries c path n)
      (.ok (c.decodeAll n (file.drop pos))) := by
  intro s hs
  have hmod : n * c.width % 2 ^ 64 = n * c.width := Nat.mod_eq_of_lt (by omega)
  rw [exec_bind_ok (exec_seekTo path (by omega) s), readEntries, hmod]
  rcases Nat.eq_zero_or_pos (n * c.width) with hzero | hpos
  · have hdecode : c.decodeAll n [] = c.decodeAll n (file.drop pos) := by
      rw [← c.decodeAll_take n hzero.le (file.drop pos), List.take_zero]
    rw [hzero, exec_bind_ok (exec_readExact_zero path _), hdecode]
    refine ⟨_, [.seek pos], rfl, hs, rfl, ?_⟩
    simp only [List.mem_singleton, forall_eq, Access.Safe]
    omega
  · have hdecode : c.decodeAll n ((file.drop pos).take (n * c.width)) =
        c.decodeAll n (file.drop pos) := c.decodeAll_take n (Nat.le_refl _) _
    rw [exec_bind_ok (exec_readExact path (by omega) (by simpa [hs] using hfits))]
    simp only [hs, hdecode]
    refine ⟨_, [.seek pos, .read pos (n * c.width)], rfl, rfl, by simp, ?_⟩
    simp only [List.mem_cons, List.not_mem_nil, or_false, forall_eq_or_imp, forall_eq,
      Access.Safe]
    omega

end Reads

section Slices

variable {rd : StpsBinaryReader} {file : List Byte}

/-- What `readSlice` does, as the offsets of its range decide. -/
noncomputable def sliceOutcome (rd : StpsBinaryReader) (file : List Byte) (first last : ℕ) :
    Except Fault PatchSlice :=
  open Classical in
  if last < first ∨ rd.M < last then .error (rangeError rd first last)
  else if ¬ MonotoneOn rd file first last then .error (monotoneError rd)
  else if rd.totalK < fileOffset rd file last then .error (pastHashesError rd)
  else .ok (fileSlice rd file first last)

theorem length_offsetSection : (offsetSection rd file).length = rd.M + 1 :=
  Codec.length_decodeAll _ _ _

theorem length_hashSection : (hashSection rd file).length = rd.totalK :=
  Codec.length_decodeAll _ _ _

theorem length_coordSection : (coordSection rd file).length = rd.totalK :=
  Codec.length_decodeAll _ _ _

theorem wrap64_eq_self {n : ℕ} (h : n < 2 ^ 64) : wrap64 n = n := Nat.mod_eq_of_lt h

/-- Decoding from the middle of a section is taking a window of the section. -/
theorem decodeAll_drop_eq_window {α : Type} (c : Codec α) (file : List Byte) (base : ℕ)
    {start size m : ℕ} (hrange : start + size ≤ m) :
    c.decodeAll size (file.drop (base + start * c.width)) =
      window (c.decodeAll m (file.drop base)) start (start + size) := by
  rw [← List.drop_drop, c.decodeAll_drop hrange, window, Nat.add_sub_cancel_left]

/-- A window of a section that lies inside the file. -/
theorem safely_readWindow {α : Type} (rd : StpsBinaryReader) (c : Codec α) (base start size m : ℕ)
    (hsmall : file.length < 2 ^ 63) (hrange : start + size ≤ m)
    (hfits : base + m * c.width ≤ file.length) :
    Safely file (readWindow c rd base start size)
      (.ok (window (c.decodeAll m (file.drop base)) start (start + size))) := by
  have hsplit : start * c.width + size * c.width ≤ m * c.width := by
    rw [← Nat.add_mul]
    exact Nat.mul_le_mul_right _ hrange
  have hpos : wrap64 (base + start * c.width) = base + start * c.width :=
    wrap64_eq_self (by omega)
  have hread := safely_readAt rd.path c (base + start * c.width) size hsmall
    (by omega)
  rw [decodeAll_drop_eq_window c file base hrange] at hread
  rw [readWindow, hpos]
  exact Safely.bind (Safely.note (a := .alloc size c.width)
    (by simp only [Access.Safe]; omega)) hread

namespace Accepted

variable (hacc : Accepted rd file) (hsmall : file.length < 2 ^ 63)
include hacc

theorem sections_le : kHeaderBytes + (rd.M + 1) * 8 + rd.totalK * 8 ≤ file.length := by
  rw [hacc.length_eq]
  omega

theorem coordSection_le (hcoords : rd.hasCoords = true) :
    kHeaderBytes + (rd.M + 1) * 8 + rd.totalK * 8 + rd.totalK * 16 ≤ file.length := by
  rw [hacc.length_eq, if_pos hcoords]

include hsmall

theorem hashBase_eq : hashBase rd = kHeaderBytes + (rd.M + 1) * 8 := by
  have hle := hacc.sections_le
  exact wrap64_eq_self (by omega)

theorem coordBase_eq : coordBase rd = kHeaderBytes + (rd.M + 1) * 8 + rd.totalK * 8 := by
  have hle := hacc.sections_le
  rw [coordBase, hacc.hashBase_eq hsmall]
  exact wrap64_eq_self (by omega)

omit hacc hsmall in
/-- The window of the offsets ascends just when the offsets do there. -/
theorem window_ascends_iff (first n : ℕ) :
    (∀ i < n, (window (offsetSection rd file) first (first + n + 1)).getD i 0 ≤
        (window (offsetSection rd file) first (first + n + 1)).getD (i + 1) 0) ↔
      MonotoneOn rd file first (first + n) := by
  have hget : ∀ i, i ≤ n → (window (offsetSection rd file) first (first + n + 1)).getD i 0 =
      (offsetSection rd file).getD (first + i) 0 := fun i hi => getD_window _ _ (by omega)
  constructor
  · intro hall p hp hlt
    have hi := hall (p - first) (by omega)
    rw [hget _ (by omega), hget _ (by omega), Nat.add_sub_cancel' hp] at hi
    rwa [show first + (p - first + 1) = p + 1 by omega] at hi
  · intro hmono i hi
    rw [hget i (by omega), hget (i + 1) (by omega)]
    exact hmono (first + i) (by omega) (by omega)

/-- The offsets window is the window of the offsets. -/
theorem safely_readOffsets {first n : ℕ} (hle : first + n ≤ rd.M) :
    Safely file (readOffsets rd first n)
      (open Classical in
        if ¬ MonotoneOn rd file first (first + n) then .error (monotoneError rd)
        else if rd.totalK < fileOffset rd file (first + n) then .error (pastHashesError rd)
        else .ok (window (offsetSection rd file) first (first + n + 1))) := by
  have hfile := hacc.sections_le
  have hwidth : Codec.word.width = 8 := rfl
  have hpos : wrap64 (kHeaderBytes + first * 8) = kHeaderBytes + first * 8 :=
    wrap64_eq_self (by omega)
  have hwords : Codec.word.decodeAll (n + 1) (file.drop (kHeaderBytes + first * 8)) =
      window (offsetSection rd file) first (first + n + 1) :=
    decodeAll_drop_eq_window Codec.word file kHeaderBytes (by omega)
  have hread := safely_readAt rd.path Codec.word (kHeaderBytes + first * 8) (n + 1) hsmall
    (by rw [hwidth]; omega)
  rw [hwords] at hread
  have hend : ((window (offsetSection rd file) first (first + n + 1)).getD n 0 : ℕ) =
      fileOffset rd file (first + n) := by
    rw [getD_window _ _ (by omega)]
    rfl
  rw [readOffsets, hpos]
  apply Safely.bind (Safely.note (a := .alloc (n + 1) 8) (by simp only [Access.Safe]; omega))
  rw [← bind_assoc]
  apply Safely.bind hread
  dsimp only
  rw [hend]
  by_cases hmono : MonotoneOn rd file first (first + n)
  · rw [if_neg (not_not.mpr ((window_ascends_iff first n).mpr hmono)), if_neg (not_not.mpr hmono)]
    by_cases hpast : rd.totalK < fileOffset rd file (first + n)
    · rw [if_pos hpast, if_pos hpast]
      exact Safely.bind_error (Safely.throw _)
    · rw [if_neg hpast, if_neg hpast]
      exact Safely.pure _
  · rw [if_pos fun hall => hmono ((window_ascends_iff first n).mp hall), if_pos hmono]
    exact Safely.bind_error (Safely.throw _)

/-- The hash window of a slice. -/
theorem safely_readHashes {first last : ℕ}
    (hascend : fileOffset rd file first ≤ fileOffset rd file last)
    (hpast : fileOffset rd file last ≤ rd.totalK) :
    Safely file (readWindow Codec.word rd (hashBase rd) (fileOffset rd file first)
        (fileOffset rd file last - fileOffset rd file first))
      (.ok (window (hashSection rd file) (fileOffset rd file first)
        (fileOffset rd file last))) := by
  have hbase := hacc.hashBase_eq hsmall
  have hwindow := safely_readWindow rd Codec.word (hashBase rd) (fileOffset rd file first)
    (fileOffset rd file last - fileOffset rd file first) rd.totalK hsmall
    (by omega) (hbase ▸ hacc.sections_le)
  rw [Nat.add_sub_cancel' hascend] at hwindow
  rw [hashSection, ← hbase]
  exact hwindow

/-- The same window of the coordinates, in a file that has them. -/
theorem safely_readFlatCoords {first last : ℕ}
    (hascend : fileOffset rd file first ≤ fileOffset rd file last)
    (hpast : fileOffset rd file last ≤ rd.totalK) :
    Safely file
      (readFlatCoords rd (fileOffset rd file first)
        (fileOffset rd file last - fileOffset rd file first))
      (.ok (if rd.hasCoords then window (coordSection rd file) (fileOffset rd file first)
        (fileOffset rd file last) else [])) := by
  rw [readFlatCoords]
  by_cases hcoords : rd.hasCoords = true
  · have hbase := hacc.coordBase_eq hsmall
    have hwindow := safely_readWindow rd pointCodec (coordBase rd) (fileOffset rd file first)
      (fileOffset rd file last - fileOffset rd file first) rd.totalK hsmall
      (by omega) (hbase ▸ hacc.coordSection_le hcoords)
    rw [Nat.add_sub_cancel' hascend] at hwindow
    rw [if_pos hcoords, if_pos hcoords, coordSection, ← hbase]
    exact hwindow
  · rw [if_neg hcoords, if_neg hcoords]
    exact Safely.pure []

end Accepted

theorem MonotoneOn.le {first last p q : ℕ} (hmono : MonotoneOn rd file first last)
    (hp : first ≤ p) (hpq : p ≤ q) (hq : q ≤ last) :
    fileOffset rd file p ≤ fileOffset rd file q := by
  induction q, hpq using Nat.le_induction with
  | base => exact Nat.le_refl _
  | succ q hpq ih => exact (ih (by omega)).trans (hmono q (by omega) (by omega))

/-- Each patch is cut out of the window of the slice at its own offsets. -/
theorem safely_splitPatch {first last p : ℕ} {offs : List (Fin (2 ^ 64))}
    {hashes : List Hash} {points : List (Point Double)}
    (hoffs : ∀ i, i ≤ last - first → (offs.getD i 0 : ℕ) = fileOffset rd file (first + i))
    (hmono : MonotoneOn rd file first last) (hhashes : fileOffset rd file last ≤ hashes.length)
    (hpoints : rd.hasCoords = true → fileOffset rd file last ≤ points.length)
    (hhashBytes : hashes.length * 8 ≤ file.length)
    (hpointBytes : rd.hasCoords = true → points.length * 16 ≤ file.length)
    (hp : p < last - first) :
    Safely file (splitPatch rd offs
        (window hashes (fileOffset rd file first) (fileOffset rd file last))
        (if rd.hasCoords then window points (fileOffset rd file first) (fileOffset rd file last)
          else []) p)
      (.ok (patchWindow rd file hashes (first + p),
        if rd.hasCoords then patchWindow rd file points (first + p) else [])) := by
  have hfirst := hmono.le (p := first) (q := first + p) (by omega) (by omega) (by omega)
  have hstep := hmono.le (p := first + p) (q := first + p + 1) (by omega) (by omega) (by omega)
  have hlast := hmono.le (p := first + p + 1) (q := last) (by omega) (by omega) (by omega)
  have hb := (offs.getD p 0).isLt
  have he := (offs.getD (p + 1) 0).isLt
  have hcut : ∀ {α : Type} (c : Codec α) (l : List α), fileOffset rd file last ≤ l.length →
      l.length * c.width ≤ file.length →
      Safely file (emplaceRange c (window l (fileOffset rd file first) (fileOffset rd file last))
        (fileOffset rd file (first + p) - fileOffset rd file first)
        (fileOffset rd file (first + p + 1) - fileOffset rd file first))
        (.ok (patchWindow rd file l (first + p))) := by
    intro α c l hl hbytes
    have hpart : (patchWindow rd file l (first + p)).length ≤ l.length := by
      rw [patchWindow, length_window l (by omega)]
      omega
    have hsize := Nat.mul_le_mul_right c.width hpart
    refine Safely.bind (a := patchWindow rd file l (first + p)) ?_
      (Safely.bind (Safely.note ?_) (Safely.pure _))
    · rw [patchWindow, ← window_window l hfirst hlast]
      apply Safely.copyRange
      rw [length_window l hl]
      omega
    · simp only [Access.Safe]
      omega
  rw [hoffs p (by omega)] at hb
  rw [hoffs (p + 1) (by omega), ← Nat.add_assoc] at he
  rw [splitPatch, hoffs p (by omega), hoffs (p + 1) (by omega), hoffs 0 (by omega), Nat.add_zero]
  apply Safely.bind (Safely.sub64 hfirst hb)
  apply Safely.bind (Safely.sub64 (by omega) he)
  apply Safely.bind (hcut Codec.word hashes hhashes hhashBytes)
  by_cases hcoords : rd.hasCoords = true
  · rw [if_pos hcoords, if_pos hcoords, if_pos hcoords]
    exact Safely.bind (hcut pointCodec points (hpoints hcoords) (hpointBytes hcoords))
      (Safely.pure _)
  · rw [if_neg hcoords, if_neg hcoords]
    exact Safely.bind (Safely.pure []) (Safely.pure _)

/-- The headers of the patches take three times the bytes of their offsets, which the file holds. -/
theorem safely_reserveSlice (hacc : Accepted rd file) {n : ℕ} (hn : n ≤ rd.M) :
    Safely file (reserveSlice rd n) (.ok ()) := by
  have hoffsets := hacc.sections_le
  have hheaders : (Access.alloc n kVectorBytes).Safe file.length := by
    simp only [Access.Safe, kVectorBytes]
    omega
  have hids : (Access.alloc n 8).Safe file.length := by
    simp only [Access.Safe]
    omega
  apply Safely.bind (Safely.note hheaders)
  apply Safely.bind (Safely.note hids)
  by_cases hcoords : rd.hasCoords = true
  · rw [if_pos hcoords]
    exact Safely.note hheaders
  · rw [if_neg hcoords]
    exact Safely.pure ()

/-- The slice is put together from its patches. -/
theorem fileSlice_eq (first last : ℕ) :
    fileSlice rd file first last =
      { patches := ((List.range (last - first)).map fun p =>
          (patchWindow rd file (hashSection rd file) (first + p),
            if rd.hasCoords then patchWindow rd file (coordSection rd file) (first + p)
            else [])).map Prod.fst
        globalIds := (List.range (last - first)).map fun p => first + p
        coords := if rd.hasCoords then ((List.range (last - first)).map fun p =>
          (patchWindow rd file (hashSection rd file) (first + p),
            if rd.hasCoords then patchWindow rd file (coordSection rd file) (first + p)
            else [])).map Prod.snd else [] } := by
  by_cases hcoords : rd.hasCoords = true
  · simp [fileSlice, hcoords, Function.comp_def]
  · simp [fileSlice, hcoords, Function.comp_def]

/-- Every call of `readSlice` on an accepted file is safe, and only the offsets decide what it
returns. -/
theorem safely_readSlice (hacc : Accepted rd file) (hsmall : file.length < 2 ^ 63)
    (first last : ℕ) :
    Safely file (readSlice rd first last) (sliceOutcome rd file first last) := by
  rw [readSlice, sliceOutcome]
  by_cases hrange : last < first ∨ rd.M < last
  · rw [if_pos hrange, if_pos hrange]
    exact Safely.bind_error (Safely.throw _)
  rw [if_neg hrange, if_neg hrange]
  have hspan : first + (last - first) = last := by omega
  have hread := hacc.safely_readOffsets hsmall
    (show first + (last - first) ≤ rd.M by omega)
  rw [hspan] at hread
  by_cases hmono : MonotoneOn rd file first last
  case neg =>
    rw [if_pos hmono] at hread ⊢
    exact Safely.bind_error hread
  rw [if_neg (not_not.mpr hmono)] at hread ⊢
  by_cases hpast : rd.totalK < fileOffset rd file last
  case pos =>
    rw [if_pos hpast] at hread ⊢
    exact Safely.bind_error hread
  rw [if_neg hpast] at hread ⊢
  apply Safely.bind hread
  have hoffs : ∀ i, i ≤ last - first →
      ((window (offsetSection rd file) first (last + 1)).getD i 0 : ℕ) =
        fileOffset rd file (first + i) := by
    intro i hi
    rw [getD_window _ _ (by omega)]
    rfl
  have hascend := hmono.le (p := first) (q := last) (by omega) (by omega) (by omega)
  have hlast : fileOffset rd file last ≤ rd.totalK := Nat.le_of_not_lt hpast
  have hend := ((window (offsetSection rd file) first (last + 1)).getD (last - first) 0).isLt
  rw [hoffs _ (Nat.le_refl _), hspan] at hend
  rw [hoffs _ (Nat.le_refl _), hoffs 0 (by omega), hspan, Nat.add_zero]
  apply Safely.bind (Safely.sub64 hascend hend)
  apply Safely.bind (hacc.safely_readHashes hsmall hascend hlast)
  apply Safely.bind (hacc.safely_readFlatCoords hsmall hascend hlast)
  apply Safely.bind (safely_reserveSlice hacc (by omega))
  have hsections := hacc.sections_le
  apply Safely.bind
  · apply Safely.mapM (g := fun p => (patchWindow rd file (hashSection rd file) (first + p),
      if rd.hasCoords then patchWindow rd file (coordSection rd file) (first + p) else []))
    intro p hp
    apply safely_splitPatch hoffs hmono
    · rwa [length_hashSection]
    · intro _
      rwa [length_coordSection]
    · rw [length_hashSection]
      omega
    · intro hcoords
      have hpoints := hacc.coordSection_le hcoords
      rw [length_coordSection]
      omega
    · exact List.mem_range.mp hp
  · rw [fileSlice_eq]
    exact Safely.pure _

end Slices

section Open

variable {rd : StpsBinaryReader} {file : List Byte} (path : String)

/-- The magic and the three numbers after it, read from the start of the file. -/
def readHeader (path : String) : FileM (Bool × List (Fin (2 ^ 64))) := do
  let hasCoords ← readMagic path
  let header ← readEntries Codec.word path 3
  return (hasCoords, header)

def headerReader (path : String) (hasCoords : Bool) (header : List (Fin (2 ^ 64))) :
    StpsBinaryReader :=
  { path, M := header.getD 0 0, totalK := header.getD 1 0, hasCoords }

theorem openPatchFile_eq (path : String) : openPatchFile path = (do
    let header ← readHeader path
    let fileBytes ← ftellEnd
    checkHeader (headerReader path header.1 header.2) fileBytes
    checkEndpoints (headerReader path header.1 header.2)
    return headerReader path header.1 header.2) := by
  simp only [openPatchFile, readHeader, headerReader, bind_assoc, pure_bind]

/-- Before its magic is compared, eight bytes of the file have been read. -/
theorem exec_readMagic (hlen : 8 ≤ file.length) {s : Stream} (hs : s.bytes = file) :
    exec (readMagic path) s =
      (if file.take 8 = kMagicV1 then .ok false
        else if file.take 8 = kMagicV2 then .ok true
        else .error (fail path "bad magic (not a .stps patch file)"),
      { s with pos := 8, log := s.log ++ [.seek 0] ++ [.read 0 8] }) := by
  have hread := exec_readExact path (n := 8) (by decide)
    (s := { s with pos := 0, log := s.log ++ [.seek 0] }) (by simpa [hs] using hlen)
  rw [readMagic, exec_bind_ok (exec_seekTo path (by decide) s), exec_bind_ok hread]
  simp only [hs, List.drop_zero]
  by_cases hv1 : file.take 8 = kMagicV1
  · rw [if_pos hv1, if_pos hv1]
    rfl
  · rw [if_neg hv1, if_neg hv1]
    by_cases hv2 : file.take 8 = kMagicV2
    · rw [if_pos hv2, if_pos hv2]
      rfl
    · rw [if_neg hv2, if_neg hv2]
      rfl

theorem safely_readHeader (hlen : kHeaderBytes ≤ file.length) {hasCoords : Bool}
    (hmagic : file.take 8 = if hasCoords then kMagicV2 else kMagicV1) :
    Safely file (readHeader path) (.ok (hasCoords, headerSection file)) := by
  intro s hs
  have hfits : 8 + 24 ≤ file.length := hlen
  have hmagicRun : exec (readMagic path) s =
      (.ok hasCoords, { s with pos := 8, log := s.log ++ [.seek 0] ++ [.read 0 8] }) := by
    rw [exec_readMagic path (by omega) hs, hmagic]
    cases hasCoords with
    | false => rfl
    | true => rfl
  have hwords : Codec.word.decodeAll 3 ((file.drop 8).take 24) = headerSection file :=
    Codec.word.decodeAll_take 3 (by decide) _
  have hread := exec_readExact path (n := 24) (by decide)
    (s := { s with pos := 8, log := s.log ++ [.seek 0] ++ [.read 0 8] })
    (by simpa [hs] using hfits)
  have hwidth : Codec.word.width = 8 := rfl
  have hbytes : 3 * Codec.word.width % 2 ^ 64 = 24 := by simp [hwidth]
  rw [readHeader, exec_bind_ok hmagicRun, readEntries, hbytes, bind_assoc, exec_bind_ok hread]
  simp only [hs, hwords]
  refine ⟨_, [.seek 0, .read 0 8, .read 8 24], rfl, rfl, by simp, ?_⟩
  simp only [List.mem_cons, List.not_mem_nil, or_false, forall_eq_or_imp, forall_eq, Access.Safe]
  omega

theorem safely_readOffset (hsmall : file.length < 2 ^ 63) {p : ℕ}
    (hfits : kHeaderBytes + p * 8 + 8 ≤ file.length) (hp : p ≤ rd.M) :
    Safely file (readOffset path (wrap64 (kHeaderBytes + p * 8)))
      (.ok (fileOffset rd file p)) := by
  have hwidth : Codec.word.width = 8 := rfl
  have hread := safely_readAt path Codec.word (kHeaderBytes + p * 8) 1 hsmall
    (by rw [hwidth]; omega)
  have hdrop := Codec.word.decodeAll_drop (n := 1) (k := p) (m := rd.M + 1) (by omega)
    (file.drop kHeaderBytes)
  rw [List.drop_drop, hwidth] at hdrop
  have hvalue : (((Codec.word.decodeAll 1 (file.drop (kHeaderBytes + p * 8))).getD 0 0 :
      Fin (2 ^ 64)) : ℕ) = fileOffset rd file p := by
    rw [hdrop, fileOffset, offsetSection]
    have hget := getD_window (Codec.word.decodeAll (rd.M + 1) (file.drop kHeaderBytes)) 0
      (show 0 < p + 1 - p by omega)
    rw [window, Nat.add_sub_cancel_left] at hget
    exact congrArg Fin.val hget
  rw [readOffset, wrap64_eq_self (by omega), ← bind_assoc]
  apply Safely.bind hread
  rw [hvalue]
  exact Safely.pure _

/-- A file that is too short for a header or has another magic. -/
theorem exec_readHeader_error (hbad : file.length < kHeaderBytes ∨
    file.take 8 ≠ kMagicV1 ∧ file.take 8 ≠ kMagicV2) :
    ∃ what, ∀ s : Stream, s.bytes = file →
      (exec (readHeader path) s).1 = .error (fail path what) := by
  by_cases hshort : file.length < 8
  · refine ⟨"truncated file (unexpected EOF)", fun s hs => ?_⟩
    have hread := exec_readExact_short path (n := 8)
      (s := { s with pos := 0, log := s.log ++ [.seek 0] }) (by simpa [hs] using hshort)
      (Nat.zero_le _)
    rw [readHeader, readMagic, bind_assoc, exec_bind_ok (exec_seekTo path (by decide) s)]
    exact exec_bind_fst_error (exec_bind_fst_error hread)
  by_cases hother : file.take 8 ≠ kMagicV1 ∧ file.take 8 ≠ kMagicV2
  · refine ⟨"bad magic (not a .stps patch file)", fun s hs => ?_⟩
    have hmagic := exec_readMagic path (Nat.le_of_not_lt hshort) hs
    rw [if_neg hother.1, if_neg hother.2] at hmagic
    exact exec_bind_fst_error (congrArg Prod.fst hmagic)
  refine ⟨"truncated file (unexpected EOF)", fun s hs => ?_⟩
  have hmagic := exec_readMagic path (Nat.le_of_not_lt hshort) hs
  have hlen : file.length < kHeaderBytes := hbad.resolve_right hother
  obtain ⟨hasCoords, hmagicRun⟩ : ∃ hasCoords, exec (readMagic path) s =
      (.ok hasCoords, { s with pos := 8, log := s.log ++ [.seek 0] ++ [.read 0 8] }) := by
    rw [hmagic]
    by_cases hv1 : file.take 8 = kMagicV1
    · exact ⟨false, by rw [if_pos hv1]⟩
    · have hv2 : file.take 8 = kMagicV2 := by
        by_contra hv2
        exact hother ⟨hv1, hv2⟩
      exact ⟨true, by rw [if_neg hv1, if_pos hv2]⟩
  have hwidth : Codec.word.width = 8 := rfl
  have hbytes : 3 * Codec.word.width % 2 ^ 64 = 24 := by simp [hwidth]
  have hread := exec_readExact_short path (n := 24)
    (s := { s with pos := 8, log := s.log ++ [.seek 0] ++ [.read 0 8] })
    (by simpa [hs, kHeaderBytes] using hlen) (by simpa [hs] using hshort)
  rw [readHeader, exec_bind_ok hmagicRun, readEntries, hbytes]
  exact exec_bind_fst_error (exec_bind_fst_error hread)

theorem safely_ftellEnd (hsmall : file.length < 2 ^ 63) :
    Safely file ftellEnd (.ok file.length) := by
  intro s hs
  refine ⟨{ s with pos := s.bytes.length }, [], ?_, hs, (List.append_nil _).symm, by simp⟩
  have hmod : s.bytes.length % 2 ^ 64 = file.length := by
    rw [hs]
    omega
  show ((.ok (s.bytes.length % 2 ^ 64) : Except Fault ℕ), _) = _
  rw [hmod]

/-- The header asks for no more than the file has and declares exactly its length. -/
structure HeaderFits (rd : StpsBinaryReader) (fileBytes : ℕ) : Prop where
  count_lt : rd.M < fileBytes / 8
  total_le : rd.totalK ≤ fileBytes / 8
  declared : fileBytes = declaredBytes rd.M rd.totalK rd.hasCoords

theorem safely_checkHeader {n : ℕ} (h : HeaderFits rd n) :
    Safely file (checkHeader rd n) (.ok ()) := by
  have hcount := h.count_lt
  have htotal := h.total_le
  rw [checkHeader, if_neg (by omega)]
  dsimp only
  rw [if_neg (not_not.mpr h.declared)]
  exact Safely.pure ()

theorem safely_checkHeader_error (file : List Byte) {n : ℕ} (h : ¬ HeaderFits rd n) :
    ∃ what, Safely file (checkHeader rd n) (.error (fail rd.path what)) := by
  rw [checkHeader]
  by_cases hbound : n / 8 ≤ rd.M ∨ n / 8 < rd.totalK
  · rw [if_pos hbound]
    exact ⟨_, Safely.bind_error (Safely.throw _)⟩
  · rw [if_neg hbound]
    have hsize : n ≠ declaredBytes rd.M rd.totalK rd.hasCoords := by
      intro hdeclared
      exact h ⟨by omega, by omega, hdeclared⟩
    dsimp only
    rw [if_pos hsize]
    exact ⟨_, Safely.throw _⟩

/-- With the two numbers bounded by the file, their sum cannot wrap to its size. -/
theorem HeaderFits.length_eq {n : ℕ} (hsmall : n < 2 ^ 62) (h : HeaderFits rd n) :
    n = kHeaderBytes + (rd.M + 1) * 8 + rd.totalK * 8 +
      if rd.hasCoords then rd.totalK * 16 else 0 := by
  have hcount := h.count_lt
  have htotal := h.total_le
  have hdeclared := h.declared
  rw [declaredBytes, wrap64, kHeaderBytes] at hdeclared
  rw [kHeaderBytes]
  split_ifs at hdeclared ⊢ <;> omega

theorem headerFits_of_length {n : ℕ} (hsmall : n < 2 ^ 63)
    (h : n = kHeaderBytes + (rd.M + 1) * 8 + rd.totalK * 8 +
      if rd.hasCoords then rd.totalK * 16 else 0) : HeaderFits rd n := by
  rw [kHeaderBytes] at h
  constructor
  · omega
  · omega
  · rw [declaredBytes, wrap64_eq_self (by rw [kHeaderBytes, ← h]; omega), kHeaderBytes]
    exact h

/-- The endpoints are read where the header says they are. -/
theorem safely_readEndpoints (hsmall : file.length < 2 ^ 63)
    (hlen : kHeaderBytes + (rd.M + 1) * 8 ≤ file.length) :
    Safely file (readOffset path kHeaderBytes) (.ok (fileOffset rd file 0)) ∧
      Safely file (readOffset path (wrap64 (kHeaderBytes + rd.M * 8)))
        (.ok (fileOffset rd file rd.M)) := by
  constructor
  · exact safely_readOffset path hsmall (p := 0) (by omega) (Nat.zero_le _)
  · exact safely_readOffset path hsmall (by omega) (Nat.le_refl _)

theorem safely_checkEndpoints (hsmall : file.length < 2 ^ 63)
    (hlen : kHeaderBytes + (rd.M + 1) * 8 ≤ file.length) (hfirst : fileOffset rd file 0 = 0)
    (hlast : fileOffset rd file rd.M = rd.totalK) :
    Safely file (checkEndpoints rd) (.ok ()) := by
  obtain ⟨hread, hread'⟩ := safely_readEndpoints rd.path hsmall hlen
  rw [checkEndpoints]
  apply Safely.bind hread
  apply Safely.bind hread'
  rw [if_neg (by rw [hfirst, hlast]; simp)]
  exact Safely.pure ()

theorem safely_checkEndpoints_error (hsmall : file.length < 2 ^ 63)
    (hlen : kHeaderBytes + (rd.M + 1) * 8 ≤ file.length)
    (hbad : ¬ (fileOffset rd file 0 = 0 ∧ fileOffset rd file rd.M = rd.totalK)) :
    ∃ what, Safely file (checkEndpoints rd) (.error (fail rd.path what)) := by
  obtain ⟨hread, hread'⟩ := safely_readEndpoints rd.path hsmall hlen
  refine ⟨endpointsText rd (fileOffset rd file 0) (fileOffset rd file rd.M), ?_⟩
  rw [checkEndpoints]
  apply Safely.bind hread
  apply Safely.bind hread'
  rw [if_pos (by omega)]
  exact Safely.throw _

theorem Accepted.eq_headerReader (hacc : Accepted rd file) :
    rd = headerReader rd.path rd.hasCoords (headerSection file) := by
  rw [headerReader, hacc.count, hacc.total]

theorem Accepted.safely_open (hacc : Accepted rd file) (hsmall : file.length < 2 ^ 63) :
    Safely file (openPatchFile rd.path) (.ok rd) := by
  have hle := hacc.sections_le
  rw [openPatchFile_eq]
  apply Safely.bind (safely_readHeader rd.path (by omega) hacc.magic)
  apply Safely.bind (safely_ftellEnd hsmall)
  dsimp only
  rw [← hacc.eq_headerReader]
  apply Safely.bind (safely_checkHeader (headerFits_of_length hsmall hacc.length_eq))
  apply Safely.bind (safely_checkEndpoints hsmall (by omega) hacc.first hacc.last)
  exact Safely.pure rd

/-- A file is accepted, or opening it fails with a message of the reader. -/
theorem open_accepted_or_error (path : String) (hsmall : file.length < 2 ^ 62) :
    (∃ rd, Accepted rd file ∧ rd.path = path) ∨
      ∃ what, ∀ s : Stream, s.bytes = file →
        (exec (openPatchFile path) s).1 = .error (fail path what) := by
  by_cases hbad : file.length < kHeaderBytes ∨
      file.take 8 ≠ kMagicV1 ∧ file.take 8 ≠ kMagicV2
  · right
    obtain ⟨what, hwhat⟩ := exec_readHeader_error path hbad
    refine ⟨what, fun s hs => ?_⟩
    rw [openPatchFile_eq]
    exact exec_bind_fst_error (hwhat s hs)
  rw [not_or, Nat.not_lt] at hbad
  obtain ⟨hasCoords, hmagic⟩ : ∃ hasCoords : Bool,
      file.take 8 = if hasCoords then kMagicV2 else kMagicV1 := by
    by_cases hv1 : file.take 8 = kMagicV1
    · exact ⟨false, hv1⟩
    · exact ⟨true, by_contra fun hv2 => hbad.2 ⟨hv1, hv2⟩⟩
  have hheader := safely_readHeader path hbad.1 hmagic
  have hend := safely_ftellEnd (show file.length < 2 ^ 63 by omega)
  by_cases hfits : HeaderFits (headerReader path hasCoords (headerSection file)) file.length
  case neg =>
    right
    obtain ⟨what, hwhat⟩ := safely_checkHeader_error file hfits
    refine ⟨what, fun s hs => Safely.outcome_eq ?_ hs⟩
    rw [openPatchFile_eq]
    exact Safely.bind hheader (Safely.bind hend (Safely.bind_error hwhat))
  have hlen := hfits.length_eq hsmall
  by_cases hends : fileOffset (headerReader path hasCoords (headerSection file)) file 0 = 0 ∧
      fileOffset (headerReader path hasCoords (headerSection file)) file
          (headerReader path hasCoords (headerSection file)).M =
        (headerReader path hasCoords (headerSection file)).totalK
  · left
    exact ⟨_, ⟨hmagic, rfl, rfl, hlen, hends.1, hends.2⟩, rfl⟩
  · right
    obtain ⟨what, hwhat⟩ :=
      safely_checkEndpoints_error (show file.length < 2 ^ 63 by omega) (by omega) hends
    refine ⟨what, fun s hs => Safely.outcome_eq ?_ hs⟩
    rw [openPatchFile_eq]
    exact Safely.bind hheader (Safely.bind hend (Safely.bind (safely_checkHeader hfits)
      (Safely.bind_error hwhat)))

end Open

end PatternSearch.PatchFileRead
