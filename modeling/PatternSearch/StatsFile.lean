import PatternSearch.InputSlices
import PatternSearch.TextNumbers
import PatternSearch.UniqueHashes

/-!
The file of the pattern statistics: a header and one line of 90 characters per entry. The ranks
share the lines by the split rule of the input, and every rank computes from the index of its
first line where it writes. That goes well as long as the products of the split rule and the
offsets stay in their types. How a coordinate is printed is a parameter.
-/

namespace PatternSearch.StatsFile

open Machine Collectives Bytes TextNumbers PatternStats PatchFile PatchFileRead ParallelFile
  ParallelFileRun UniqueHashes InputSlices

variable {α : Type} {P : ℕ}

section Model

def kLineBytes : ℕ := 90

def tab : Byte := 9

def newline : Byte := 10

def blank : Byte := 32

/-- `coord` is the conversion `%25.17e`. -/
def formatLine (coord : α → List Byte) (e : PatternStat α) : List Byte :=
  padLeft (digitByte 0) 16 (digitsText 16 e.hash) ++ [tab] ++
    padLeft blank 20 (digitsText 10 e.count) ++ [tab] ++
    coord e.rep.x ++ [tab] ++ coord e.rep.y ++ [newline]

def lineOverflow : Fault := .throws (.runtimeError "ups-stats: fixed-width line overflow")

/-- The line, if `snprintf` counted as many characters as a line has. -/
def checkedLine (coord : α → List Byte) (e : PatternStat α) : Except Fault (List Byte) :=
  if (formatLine coord e).length ≠ kLineBytes then .error lineOverflow
  else .ok (formatLine coord e)

def headerText (k size : ℕ) : List Byte :=
  magicBytes "# ups-pattern-stats k=".toList ++ digitsText 10 k ++
    magicBytes " ranks=".toList ++ digitsText 10 size ++
    magicBytes " (hash, patch count, rep x, rep y)\n".toList

/-- The array for the header has 128 characters, and `append` reads as many as were counted. -/
def formatHeader (k size : ℕ) : Except Fault (List Byte) :=
  if (headerText k size).length = 0 then
    .error (.throws (.runtimeError "ups-stats: header format failed"))
  else if 128 ≤ (headerText k size).length then .error .outOfBounds
  else .ok (headerText k size)

/-- `a - b` on 64-bit unsigned integers. -/
def sub64 (a b : ℕ) : ℕ := wrap64 (a + 2 ^ 64 - b)

/-- `std::string::reserve`. A string holds at most 2 ^ 63 - 1 characters. -/
def reserve (bytes : ℕ) : Except Fault Unit :=
  if 2 ^ 63 ≤ bytes then .error (.throws .lengthError) else .ok ()

/-- The sum of two off_t. -/
def addOff (a b : ℤ) : Except Fault ℤ :=
  if -(2 ^ 63) ≤ a + b ∧ a + b < 2 ^ 63 then .ok (a + b) else .error .overflow

/-- The offset of a line, counted from the first one. -/
def lineOffset (line : ℕ) : ℤ := toInt64 (wrap64 (line * kLineBytes))

/-- Rank 0 starts with the header. -/
def rankOffset (header : List Byte) (first rank : ℕ) : Except Fault ℤ :=
  if rank = 0 then .ok 0 else addOff header.length (lineOffset first)

/-- What a rank passes to `write_shared_file`. -/
structure RankPart where
  buf : List Byte
  myOff : ℤ
  total : ℤ

def rankPart (coord : α → List Byte) (stats : List (PatternStat α)) (size rank : ℕ) :
    Except Fault RankPart := do
  let k := stats.length
  let header ← formatHeader k size
  let first := wrap64 (k * rank) / size
  let last := wrap64 (k * (rank + 1)) / size
  reserve (wrap64 (sub64 last first * kLineBytes + if rank = 0 then header.length else 0))
  let lines ← (List.range' first (last - first)).mapM fun i => do
    checkedLine coord (← elementAt stats i)
  let myOff ← rankOffset header first rank
  let total ← addOff header.length (lineOffset k)
  return { buf := (if rank = 0 then header else []) ++ lines.flatten, myOff, total }

/-- The collective write. Only rank 0 sets the length of the file. -/
def writePatternStatsFile (path : String) (coord : α → List Byte) (stats : List (PatternStat α)) :
    Except Fault (Call P) := do
  let parts ← onRanks fun r : Fin P => rankPart coord stats P r
  return { label := "ups-stats", path, data := fun r => (parts r).buf,
           offset := fun r => (parts r).myOff,
           totalSize := ((List.ofFn parts).head?.map RankPart.total).getD 0, head := [] }

/-- The hash and the count of a line, as `%lx %lu` reads them. -/
def parseRecord (line : List Byte) : Option (ℕ × ℕ) := do
  let (hash, rest) ← scanUnsigned 16 line
  let (count, _) ← scanUnsigned 10 rest
  return (hash, count)

end Model

section Lines

variable {coord : α → List Byte} {stats : List (PatternStat α)}

/-- A count of 64 bits and coordinates of 25 characters. -/
structure Printable (coord : α → List Byte) (e : PatternStat α) : Prop where
  count_lt : e.count < 2 ^ 64
  length_x : (coord e.rep.x).length = 25
  length_y : (coord e.rep.y).length = 25

theorem length_formatLine {e : PatternStat α} (h : Printable coord e) :
    (formatLine coord e).length = kLineBytes := by
  have hhash : (padLeft (digitByte 0) 16 (digitsText 16 e.hash)).length = 16 :=
    length_padLeft _ (length_digitsText_le (by decide) (by decide) e.hash.isLt)
  have hcount : (padLeft blank 20 (digitsText 10 e.count)).length = 20 :=
    length_padLeft _ (length_digitsText_le (by decide) (by decide)
      (lt_trans h.count_lt (by decide)))
  simp only [formatLine, List.length_append, List.length_singleton, hhash, hcount, h.length_x,
    h.length_y, kLineBytes]

/-- The exception is out of reach. -/
theorem checkedLine_eq_ok {e : PatternStat α} (h : Printable coord e) :
    checkedLine coord e = .ok (formatLine coord e) :=
  if_neg (not_not.mpr (length_formatLine h))

theorem length_of_checkedLine {e : PatternStat α} {line : List Byte}
    (h : checkedLine coord e = .ok line) : line.length = kLineBytes := by
  unfold checkedLine at h
  split_ifs at h with hlen
  obtain rfl := Except.ok.inj h
  exact not_not.mp hlen

theorem parseRecord_formatLine (coord : α → List Byte) (e : PatternStat α) :
    parseRecord (formatLine coord e) = some (e.hash.val, e.count) := by
  have hhash : ∀ rest, scanUnsigned 16
      (padLeft (digitByte 0) 16 (digitsText 16 e.hash) ++ tab :: rest) =
        some (e.hash.val, tab :: rest) := fun rest =>
    scanUnsigned_zeroPadded (by decide) (by decide) 16 (by simp [tab, isDigit, digitValue])
  have hcount : ∀ rest, scanUnsigned 10
      ([tab] ++ padLeft blank 20 (digitsText 10 e.count) ++ tab :: rest) =
        some (e.count, tab :: rest) := fun rest =>
    scanUnsigned_blankPadded (by decide) (by decide) (by simp [tab, isSpace])
      (by simp [blank, isSpace]) 20 (by simp [tab, isDigit, digitValue])
  simp only [List.cons_append, List.nil_append] at hcount
  simp only [parseRecord, formatLine, List.append_assoc, List.cons_append, List.nil_append, hhash,
    Option.bind_eq_bind, Option.bind_some, hcount, Option.pure_def]

/-- The part of the file after the header. -/
def records (coord : α → List Byte) (stats : List (PatternStat α)) : List Byte :=
  stats.flatMap (formatLine coord)

theorem length_flatten_lines {lines : List (List Byte)}
    (h : ∀ line ∈ lines, line.length = kLineBytes) :
    lines.flatten.length = lines.length * kLineBytes := by
  have hlen : ∀ len ∈ lines.map List.length, len = kLineBytes := by simpa using h
  rw [List.length_flatten, List.sum_eq_card_nsmul _ _ hlen, List.length_map, smul_eq_mul]

theorem length_records (h : ∀ e ∈ stats, (formatLine coord e).length = kLineBytes) :
    (records coord stats).length = stats.length * kLineBytes := by
  have hlines : ∀ line ∈ stats.map (formatLine coord), line.length = kLineBytes := by
    simpa using h
  rw [records, List.flatMap_def, length_flatten_lines hlines, List.length_map]

/-- The record of an entry lies at the offset of its line. -/
theorem record_at (h : ∀ e ∈ stats, (formatLine coord e).length = kLineBytes) (i : ℕ)
    (hi : i < stats.length) :
    ((records coord stats).drop (i * kLineBytes)).take kLineBytes =
      formatLine coord stats[i] := by
  induction stats generalizing i with
  | nil => cases hi
  | cons e stats ih =>
    have hlen := h e (List.mem_cons_self ..)
    have hcons : records coord (e :: stats) = formatLine coord e ++ records coord stats :=
      List.flatMap_cons
    rw [hcons]
    cases i with
    | zero => simp [List.take_left' hlen]
    | succ i =>
      rw [Nat.succ_mul, Nat.add_comm, ← List.drop_drop, List.drop_left' hlen]
      exact ih (fun e' he' => h e' (List.mem_cons_of_mem e he')) i (Nat.lt_of_succ_lt_succ hi)

end Lines

section Header

theorem headerText_ne_nil (k size : ℕ) : headerText k size ≠ [] := by
  simp [headerText, magicBytes]

/-- The header of fewer than 2 ^ 64 entries and an int of ranks fits its array. -/
theorem length_headerText_lt {k size : ℕ} (hk : k < 2 ^ 64) (hsize : size ≤ intMax) :
    (headerText k size).length < 128 := by
  unfold intMax at hsize
  have hcount : (digitsText 10 k).length ≤ 20 :=
    length_digitsText_le (by decide) (by decide) (lt_trans hk (by decide))
  have hranks : (digitsText 10 size).length ≤ 10 :=
    length_digitsText_le (by decide) (by decide) (by omega)
  simp [headerText, magicBytes]
  omega

theorem formatHeader_eq_ok {k size : ℕ} (hlen : (headerText k size).length < 128) :
    formatHeader k size = .ok (headerText k size) := by
  have hpos := List.length_pos_iff.mpr (headerText_ne_nil k size)
  unfold formatHeader
  rw [if_neg hpos.ne', if_neg (not_le.mpr hlen)]

theorem of_formatHeader {k size : ℕ} {header : List Byte}
    (h : formatHeader k size = .ok header) : header = headerText k size := by
  unfold formatHeader at h
  split_ifs at h
  exact (Except.ok.inj h).symm

theorem of_addOff {a b c : ℤ} (h : addOff a b = .ok c) : c = a + b ∧ c < 2 ^ 63 := by
  unfold addOff at h
  split_ifs at h with hfit
  obtain rfl := Except.ok.inj h
  exact ⟨rfl, hfit.2⟩

theorem lineOffset_eq {line : ℕ} (h : line * kLineBytes < 2 ^ 63) :
    lineOffset line = (line * kLineBytes : ℕ) := by
  have hwrap : wrap64 (line * kLineBytes) = line * kLineBytes := wrap64_eq_self (by omega)
  unfold lineOffset
  rw [hwrap]
  exact toInt64_eq_self (by omega) (by exact_mod_cast h)

theorem addOff_lineOffset {header line : ℕ} (h : header + line * kLineBytes < 2 ^ 63) :
    addOff header (lineOffset line) = .ok ((header + line * kLineBytes : ℕ) : ℤ) := by
  have hline := lineOffset_eq (show line * kLineBytes < 2 ^ 63 by omega)
  unfold addOff
  rw [hline, ← Nat.cast_add]
  exact if_pos ⟨by omega, by exact_mod_cast h⟩

end Header

section NoOverflow

variable {coord : α → List Byte} {stats : List (PatternStat α)}

/-- The products of the split rule and the offsets stay in their types. -/
structure Fits (k size : ℕ) : Prop where
  split : k * size < 2 ^ 64
  length : (headerText k size).length + k * kLineBytes < 2 ^ 63

variable (hpos : 0 < P) (hsize : P ≤ intMax) (hprint : ∀ e ∈ stats, Printable coord e)
  (hfits : Fits stats.length P)

theorem sub64_eq {a b : ℕ} (hle : b ≤ a) (ha : a < 2 ^ 64) : sub64 a b = a - b := by
  unfold sub64 wrap64
  omega

theorem reserve_eq_ok {bytes : ℕ} (h : bytes < 2 ^ 63) : reserve (wrap64 bytes) = .ok () := by
  have hwrap : wrap64 bytes = bytes := wrap64_eq_self (by omega)
  unfold reserve
  rw [hwrap]
  exact if_neg (not_le.mpr h)

/-- The lines of a rank. -/
def rankLines (coord : α → List Byte) (stats : List (PatternStat α)) (size rank : ℕ) :
    List (List Byte) :=
  window (stats.map (formatLine coord)) (rankBegin stats.length size rank)
    (rankBegin stats.length size (rank + 1))

/-- Where the bytes of a rank start. -/
def partStart (k size rank : ℕ) : ℕ :=
  if rank = 0 then 0 else (headerText k size).length + rankBegin k size rank * kLineBytes

/-- The part of a rank as it should be. -/
def exactPart (coord : α → List Byte) (stats : List (PatternStat α)) (size rank : ℕ) :
    RankPart where
  buf := (if rank = 0 then headerText stats.length size else []) ++
    (rankLines coord stats size rank).flatten
  myOff := partStart stats.length size rank
  total := ((headerText stats.length size).length + stats.length * kLineBytes : ℕ)

include hprint in
theorem mapM_checkedLine (first : ℕ) {last : ℕ} (hlast : last ≤ stats.length) :
    ((List.range' first (last - first)).mapM fun i => do
      checkedLine coord (← elementAt stats i)) =
      .ok (window (stats.map (formatLine coord)) first last) := by
  have hlen : last ≤ (stats.map (formatLine coord)).length := by simpa using hlast
  rw [window_eq_map_range' _ [] hlen]
  apply mapM_eq_ok
  intro i hi
  have hi' : i < stats.length := by
    have hmem := List.mem_range'_1.mp hi
    omega
  have helem : elementAt stats i = .ok stats[i] := by
    rw [elementAt, List.getElem?_eq_getElem hi']
  rw [helem, ok_bind, checkedLine_eq_ok (hprint _ (List.getElem_mem hi'))]
  simp [hi']

include hpos hsize hprint hfits in
theorem rankPart_eq_ok {rank : ℕ} (hrank : rank < P) :
    rankPart coord stats P rank = .ok (exactPart coord stats P rank) := by
  have hmono := rankBegin_mono stats.length P (Nat.le_add_right rank 1)
  have hlast := rankBegin_succ_le (M := stats.length) hpos hrank
  have hlen := hfits.length
  have hk : stats.length < 2 ^ 64 := by
    unfold kLineBytes at hlen
    omega
  have hheader := formatHeader_eq_ok (length_headerText_lt hk hsize)
  have hbegin := wrap64_split hfits.split hrank.le
  have hend := wrap64_split (r := rank + 1) hfits.split hrank
  have hlines := mapM_checkedLine hprint (rankBegin stats.length P rank) hlast
  have hsub := sub64_eq hmono (show rankBegin stats.length P (rank + 1) < 2 ^ 64 by omega)
  have hbytes : (rankBegin stats.length P (rank + 1) - rankBegin stats.length P rank) *
      kLineBytes + (if rank = 0 then (headerText stats.length P).length else 0) < 2 ^ 63 := by
    have hle : (rankBegin stats.length P (rank + 1) - rankBegin stats.length P rank) *
        kLineBytes ≤ stats.length * kLineBytes := Nat.mul_le_mul_right _ (by omega)
    split_ifs <;> omega
  have hreserve := reserve_eq_ok hbytes
  have hmyOff : rankOffset (headerText stats.length P) (rankBegin stats.length P rank) rank =
      .ok ((partStart stats.length P rank : ℕ) : ℤ) := by
    unfold rankOffset partStart
    split_ifs
    · rfl
    · apply addOff_lineOffset
      have hle : rankBegin stats.length P rank * kLineBytes ≤ stats.length * kLineBytes :=
        Nat.mul_le_mul_right _ (hmono.trans hlast)
      omega
  have htotal := addOff_lineOffset hlen
  simp only [rankPart, hheader, ok_bind, hbegin, hend, hsub, hreserve, hlines, hmyOff, htotal,
    pure_eq_ok]
  rfl

/-- The write as it should be. -/
def exactCall (path : String) (coord : α → List Byte) (stats : List (PatternStat α)) :
    Call P where
  label := "ups-stats"
  path
  data r := (exactPart coord stats P r).buf
  offset r := (exactPart coord stats P r).myOff
  totalSize := ((headerText stats.length P).length + stats.length * kLineBytes : ℕ)
  head := []

include hpos hsize hprint hfits in
theorem writePatternStatsFile_eq_ok (path : String) :
    writePatternStatsFile path coord stats = .ok (exactCall path coord stats : Call P) := by
  have hparts := onRanks_eq_ok fun r : Fin P => rankPart_eq_ok hpos hsize hprint hfits r.isLt
  unfold writePatternStatsFile
  rw [hparts]
  obtain ⟨p, rfl⟩ := Nat.exists_eq_add_one.mpr hpos
  simp only [ok_bind, List.ofFn_succ, List.head?_cons, Option.map_some, Option.getD_some]
  rfl

include hpos hprint in
/-- The parts follow one another without a gap. -/
theorem partStart_succ {rank : ℕ} (hrank : rank < P) :
    partStart stats.length P rank + (exactPart coord stats P rank).buf.length =
      partStart stats.length P (rank + 1) := by
  have hmono := rankBegin_mono stats.length P (Nat.le_add_right rank 1)
  have hlast := rankBegin_succ_le (M := stats.length) hpos hrank
  have hcount : (rankLines coord stats P rank).length =
      rankBegin stats.length P (rank + 1) - rankBegin stats.length P rank :=
    length_window _ (by simpa using hlast)
  have hwidth : ∀ line ∈ rankLines coord stats P rank, line.length = kLineBytes := by
    intro line hline
    obtain ⟨e, he, rfl⟩ := List.mem_map.mp (List.mem_of_mem_drop (List.mem_of_mem_take hline))
    exact length_formatLine (hprint e he)
  have hbuf : (exactPart coord stats P rank).buf.length =
      (if rank = 0 then (headerText stats.length P).length else 0) +
        (rankBegin stats.length P (rank + 1) - rankBegin stats.length P rank) * kLineBytes := by
    rw [exactPart, List.length_append, length_flatten_lines hwidth, hcount, apply_ite List.length,
      List.length_nil]
  have hzero : rankBegin stats.length P 0 = 0 := by simp [rankBegin]
  rw [hbuf, partStart, partStart, if_neg (Nat.succ_ne_zero rank)]
  unfold kLineBytes
  split_ifs with hrank0
  · subst hrank0
    omega
  · omega

include hpos hprint in
theorem displacement_buf (rank : ℕ) (hrank : rank ≤ P) :
    displacement (fun s : Fin P => (exactPart coord stats P s).buf.length) rank =
      partStart stats.length P rank := by
  induction rank with
  | zero => rfl
  | succ rank ih =>
    have hstep := displacement_succ
      (fun s : Fin P => (exactPart coord stats P s).buf.length) ⟨rank, hrank⟩
    rw [hstep, ih (Nat.le_of_succ_le hrank)]
    exact partStart_succ hpos hprint hrank

include hpos hprint in
theorem contiguous_exactCall (path : String) :
    Contiguous (exactCall path coord stats : Call P) := by
  have hlast : partStart stats.length P P =
      (headerText stats.length P).length + stats.length * kLineBytes := by
    rw [partStart, if_neg hpos.ne', rankBegin_size _ hpos]
  constructor
  · intro r
    have hstart := displacement_buf hpos hprint (r : ℕ) r.isLt.le
    simp only [exactCall, List.length_nil, Nat.zero_add, hstart]
    rfl
  · have hend := displacement_buf hpos hprint P le_rfl
    simp only [exactCall, List.length_nil, Nat.zero_add, hend, hlast]

include hpos in
/-- The buffers of all ranks are the header and every record once. -/
theorem gather_exactCall (path : String) :
    gather (exactCall path coord stats : Call P).data =
      headerText stats.length P ++ records coord stats := by
  have hlines : gather (fun r : Fin P => (rankLines coord stats P r).flatten) =
      records coord stats := by
    have hall := flatMap_windows (stats.map (formatLine coord)) hpos
    rw [List.length_map] at hall
    have hrecords : records coord stats = (stats.map (formatLine coord)).flatten :=
      List.flatMap_def
    rw [gather_eq_flatMap_range fun r => (rankLines coord stats P r).flatten, hrecords, ← hall]
    simp only [List.flatMap_def, List.flatten_flatten, List.map_map]
    rfl
  obtain ⟨p, rfl⟩ := Nat.exists_eq_add_one.mpr hpos
  rw [gather_succ] at hlines
  rw [gather_succ, ← hlines, ← List.append_assoc]
  rfl

end NoOverflow

section Layout

variable {coord : α → List Byte} {stats : List (PatternStat α)}

/-- The parts of the ranks tile the file, it consists of the header and the records whatever was
there before, and every record gives the hash and the count of its entry back. -/
def WritesStats (P : ℕ) (path : String) (coord : α → List Byte) (stats : List (PatternStat α)) :
    Prop :=
  ∃ c : Call P, writePatternStatsFile path coord stats = .ok c ∧ c.Tiles ∧
    c.IsContent (headerText stats.length P ++ records coord stats) ∧
    Leaves c (headerText stats.length P ++ records coord stats) ∧
    (∀ e ∈ stats, (formatLine coord e).length = kLineBytes) ∧
    ∀ i, ∀ hi : i < stats.length,
      parseRecord (((headerText stats.length P ++ records coord stats).drop
        ((headerText stats.length P).length + i * kLineBytes)).take kLineBytes) =
        some (stats[i].hash.val, stats[i].count)

theorem writesStats_of_fits (path : String) (hpos : 0 < P) (hsize : P ≤ intMax)
    (hprint : ∀ e ∈ stats, Printable coord e) (hfits : Fits stats.length P) :
    WritesStats P path coord stats := by
  have hcontiguous := contiguous_exactCall hpos hprint path
  have hcontent : (exactCall path coord stats : Call P).head ++
      gather (exactCall path coord stats : Call P).data =
        headerText stats.length P ++ records coord stats := gather_exactCall hpos path
  have hisContent := hcontiguous.isContent
  rw [hcontent] at hisContent
  have hwidth : ∀ e ∈ stats, (formatLine coord e).length = kLineBytes := fun e he =>
    length_formatLine (hprint e he)
  refine ⟨exactCall path coord stats, writePatternStatsFile_eq_ok hpos hsize hprint hfits path,
    hcontiguous.tiles, hisContent, leaves_of_legal fun _ => ⟨hcontiguous.tiles, hisContent⟩,
    hwidth, ?_⟩
  intro i hi
  rw [List.drop_length_add_append, record_at hwidth i hi]
  exact parseRecord_formatLine coord stats[i]

theorem of_rankOffset {header : List Byte} {first rank : ℕ} {off : ℤ}
    (h : rankOffset header first rank = .ok off) :
    off = if rank = 0 then 0 else header.length + lineOffset first := by
  unfold rankOffset at h
  split_ifs at h with hzero
  · rw [if_pos hzero, Except.ok.inj h]
  · rw [if_neg hzero]
    exact (of_addOff h).1

/-- What a rank passes on if it gets that far. -/
theorem of_rankPart {size rank : ℕ} {part : RankPart}
    (h : rankPart coord stats size rank = .ok part) :
    ∃ header lines, header = (headerText stats.length size).length ∧
      part.buf.length = (if rank = 0 then header else 0) + lines * kLineBytes ∧
      lines = wrap64 (stats.length * (rank + 1)) / size - wrap64 (stats.length * rank) / size ∧
      part.myOff = (if rank = 0 then 0 else
        header + lineOffset (wrap64 (stats.length * rank) / size)) ∧
      part.total = header + lineOffset stats.length ∧ part.total < 2 ^ 63 := by
  unfold rankPart at h
  obtain ⟨header, hheader, h⟩ := bind_eq_ok.mp h
  obtain ⟨_, -, h⟩ := bind_eq_ok.mp h
  obtain ⟨lines, hlines, h⟩ := bind_eq_ok.mp h
  obtain ⟨myOff, hmyOff, h⟩ := bind_eq_ok.mp h
  obtain ⟨total, htotal, h⟩ := bind_eq_ok.mp h
  obtain rfl := Except.ok.inj h
  obtain rfl := of_formatHeader hheader
  have hwidth : ∀ line ∈ lines, line.length = kLineBytes := by
    intro line hline
    obtain ⟨i, -, hi⟩ := exists_of_mem_mapM hlines hline
    obtain ⟨e, -, he⟩ := bind_eq_ok.mp hi
    exact length_of_checkedLine he
  refine ⟨_, lines.length, rfl, ?_, ?_, ?_, (of_addOff htotal).1, (of_addOff htotal).2⟩
  · rw [List.length_append, length_flatten_lines hwidth, apply_ite List.length, List.length_nil]
  · have hcount := length_of_mapM hlines
    rw [hcount, List.length_range']
  · exact of_rankOffset hmyOff

/-- Once a product of the split rule wraps around, every rank stops before the last line. -/
theorem wrap64_div_lt {k size : ℕ} (hwrap : 2 ^ 64 ≤ k * size) (n : ℕ) :
    wrap64 n / size < k := by
  have hlt : wrap64 n < 2 ^ 64 := Nat.mod_lt _ (Nat.two_pow_pos 64)
  exact Nat.div_lt_of_lt_mul (hlt.trans_le (hwrap.trans_eq (Nat.mul_comm k size)))

/-- The end of what a rank writes. -/
theorem rankPart_end_le {size rank : ℕ} (hwrap : 2 ^ 64 ≤ stats.length * size)
    (hlen : (headerText stats.length size).length + stats.length * kLineBytes < 2 ^ 63)
    {part : RankPart} (h : rankPart coord stats size rank = .ok part) :
    part.myOff.toNat + part.buf.length + kLineBytes ≤
      (headerText stats.length size).length + stats.length * kLineBytes := by
  obtain ⟨header, lines, rfl, hbuf, hlines, hmyOff, -, -⟩ := of_rankPart h
  have hfirst := wrap64_div_lt hwrap (stats.length * rank)
  have hlast := wrap64_div_lt hwrap (stats.length * (rank + 1))
  generalize wrap64 (stats.length * rank) / size = first at *
  generalize wrap64 (stats.length * (rank + 1)) / size = last at *
  have hline : first * kLineBytes < 2 ^ 63 := by
    unfold kLineBytes at *
    omega
  rw [lineOffset_eq hline] at hmyOff
  unfold kLineBytes at *
  split_ifs at hbuf hmyOff with hzero
  · rw [hmyOff, hbuf]
    omega
  · rw [hmyOff, hbuf]
    omega

theorem fits_of_writesStats {path : String} (hpos : 0 < P) (h : WritesStats P path coord stats) :
    Fits stats.length P := by
  obtain ⟨c, hwrite, htiles, hcontent, -, hwidth, -⟩ := h
  unfold writePatternStatsFile at hwrite
  obtain ⟨parts, hparts, hwrite⟩ := bind_eq_ok.mp hwrite
  obtain rfl := Except.ok.inj hwrite
  rw [onRanks_eq_ok_iff] at hparts
  have htotal : ((List.ofFn parts).head?.map RankPart.total).getD 0 = (parts ⟨0, hpos⟩).total := by
    obtain ⟨p, rfl⟩ := Nat.exists_eq_add_one.mpr hpos
    rw [List.ofFn_succ]
    rfl
  obtain ⟨_, _, -, -, -, -, -, hsmall⟩ := of_rankPart (hparts ⟨0, hpos⟩)
  have hsize := hcontent.length_eq
  simp only [htotal, List.length_append, length_records hwidth] at hsize
  have hlen : (headerText stats.length P).length + stats.length * kLineBytes < 2 ^ 63 := by omega
  refine ⟨?_, hlen⟩
  by_contra hwrap
  -- The last byte of the last record is nobody's.
  have hnonempty : 0 < (headerText stats.length P).length :=
    List.length_pos_iff.mpr (headerText_ne_nil _ _)
  obtain hhead | ⟨r, hlow, hhigh⟩ := (htiles.covered
    ((headerText stats.length P).length + stats.length * kLineBytes - 1)).mp (by
      simp only [htotal]
      omega)
  · cases hhead
  · have hend := rankPart_end_le (not_lt.mp hwrap) hlen (hparts r)
    have hstart : (parts r).myOff.toNat + (parts r).buf.length >
        (headerText stats.length P).length + stats.length * kLineBytes - 1 := hhigh
    unfold kLineBytes at *
    omega

theorem noThrow_formatHeader (k size : ℕ) : NoThrow (formatHeader k size) := by
  have hpos := List.length_pos_iff.mpr (headerText_ne_nil k size)
  intro thrown h
  unfold formatHeader at h
  rw [if_neg hpos.ne'] at h
  split_ifs at h
  cases h

theorem noThrow_addOff (a b : ℤ) : NoThrow (addOff a b) := by
  intro thrown h
  unfold addOff at h
  split_ifs at h
  cases h

/-- No line is too long, whatever lines a rank takes. -/
theorem noThrow_mapM_checkedLine (hprint : ∀ e ∈ stats, Printable coord e) (ids : List ℕ) :
    NoThrow (ids.mapM fun i => do checkedLine coord (← elementAt stats i)) := by
  intro thrown h
  obtain ⟨i, -, hi⟩ := exists_error_of_mapM h
  cases helem : stats[i]? with
  | none =>
    simp only [elementAt, helem, error_bind] at hi
    cases hi
  | some e =>
    simp only [elementAt, helem, ok_bind,
      checkedLine_eq_ok (hprint e (List.mem_of_getElem? helem))] at hi
    cases hi

/-- The reservation is the only call that may throw. -/
theorem rankPart_ne_lineOverflow (hprint : ∀ e ∈ stats, Printable coord e) (size rank : ℕ) :
    rankPart coord stats size rank ≠ .error lineOverflow := by
  have hreserve : ∀ bytes, reserve bytes ≠ .error lineOverflow := by
    intro bytes h
    unfold reserve at h
    split_ifs at h
    cases h
  have hoffset : ∀ header first, NoThrow (rankOffset header first rank) := by
    intro header first
    unfold rankOffset
    split_ifs
    · exact NoThrow.ok 0
    · exact noThrow_addOff _ _
  have hrest : ∀ header first last, NoThrow (do
      let lines ← (List.range' first (last - first)).mapM fun i => do
        checkedLine coord (← elementAt stats i)
      let myOff ← rankOffset header first rank
      let total ← addOff header.length (lineOffset stats.length)
      return ({ buf := (if rank = 0 then header else []) ++ lines.flatten, myOff, total } :
        RankPart)) := fun header first last =>
    (noThrow_mapM_checkedLine hprint _).bind fun lines => (hoffset _ _).bind fun myOff =>
      (noThrow_addOff _ _).bind fun total => NoThrow.ok _
  unfold rankPart
  exact bind_ne_error (noThrow_formatHeader _ _ _) fun header =>
    bind_ne_error (hreserve _) fun _ => hrest header _ _ _

end Layout

/-- No line is ever too long, and the file is right just when the products of the split rule and
the offsets fit. -/
theorem stats_file_layout (path : String) (coord : α → List Byte) (stats : List (PatternStat α))
    (hpos : 0 < P) (hsize : P ≤ intMax) (hprint : ∀ e ∈ stats, Printable coord e) :
    (writePatternStatsFile path coord stats : Except Fault (Call P)) ≠ .error lineOverflow ∧
      (WritesStats P path coord stats ↔ Fits stats.length P) := by
  constructor
  · exact bind_ne_error (onRanks_ne_error fun r : Fin P => rankPart_ne_lineOverflow hprint P r)
      fun _ => NoThrow.ok _ _
  · exact ⟨fits_of_writesStats hpos, writesStats_of_fits path hpos hsize hprint⟩

scoped instance instNeZeroDigitCount : NeZero 10 := ⟨Nat.succ_ne_zero 9⟩

/-- `%25.17e` of a number with one digit. -/
def oneDigit (x : Fin 10) : List Byte :=
  [blank, blank, digitByte x] ++ magicBytes ".00000000000000000e+00".toList

theorem printable_oneDigit (e : PatternStat (Fin 10)) (hcount : e.count < 2 ^ 64) :
    Printable oneDigit e where
  count_lt := hcount
  length_x := by simp [oneDigit, magicBytes]
  length_y := by simp [oneDigit, magicBytes]

/-- Two entries on three ranks. -/
theorem stats_file_layout_three_ranks :
    WritesStats 3 "stats.txt" oneDigit [⟨255, 2, ⟨1, 2⟩⟩, ⟨7, 1, ⟨0, 9⟩⟩] := by
  have hheader := length_headerText_lt (show 2 < 2 ^ 64 by decide) (show 3 ≤ intMax by decide)
  refine (stats_file_layout (P := 3) "stats.txt" oneDigit [⟨255, 2, ⟨1, 2⟩⟩, ⟨7, 1, ⟨0, 9⟩⟩]
    (by decide) (by decide) ?_).2.mpr ⟨by decide, ?_⟩
  · intro e he
    apply printable_oneDigit
    rcases List.mem_cons.mp he with rfl | he
    · decide
    · rcases List.mem_singleton.mp he with rfl
      decide
  · change (headerText 2 3).length + 2 * 90 < 2 ^ 63
    omega

/-- With 2 ^ 34 entries on 2 ^ 30 ranks the share of the last rank ends at line 0. -/
theorem not_writesStats_at_scale :
    ¬ WritesStats (2 ^ 30) "stats.txt" oneDigit (List.replicate (2 ^ 34) ⟨7, 1, ⟨0, 9⟩⟩) := by
  intro h
  have hsplit := (fits_of_writesStats (Nat.two_pow_pos 30) h).split
  rw [List.length_replicate] at hsplit
  omega

end PatternSearch.StatsFile
