import PatternSearch.FileStream
import PatternSearch.PatternStats

/-!
The .stps patch file: a header, the offsets of the patches, their hashes one after another
and, in the second version, the coordinates of the hashes. The reader computes every
position and size on 64-bit unsigned integers from what the file itself declares.
-/

namespace PatternSearch.PatchFile

open Csr Machine Bytes FileStream PatternStats

/-- A double, by its 64 bits. -/
abbrev Double := Fin (2 ^ 64)

structure PatchSlice where
  patches : List (List Hash)
  globalIds : List PatchId
  coords : List (List (Point Double))
  deriving DecidableEq, Repr

def pointEquiv : Double × Double ≃ Point Double where
  toFun p := ⟨p.1, p.2⟩
  invFun p := (p.x, p.y)
  left_inv _ := rfl
  right_inv _ := rfl

def pointCodec : Codec (Point Double) := (Codec.word.pair Codec.word).transport pointEquiv

def magicBytes (text : List Char) : List Byte := text.map fun c => Fin.ofNat 256 c.toNat

def kMagicV1 : List Byte := magicBytes ['S', 'T', 'P', 'S', 'P', 'A', 'T', '1']

def kMagicV2 : List Byte := magicBytes ['S', 'T', 'P', 'S', 'P', 'A', 'T', '2']

def kHeaderBytes : ℕ := 32

def fail (path what : String) : Fault := .throws (.runtimeError ("stps: " ++ path ++ ": " ++ what))

section Reader

def seekTo (path : String) (pos : ℕ) : FileM Unit :=
  fseek (fail path "seek failed: Invalid argument") pos

def readExact (path : String) (bytes : ℕ) : FileM (List Byte) := do
  if bytes = 0 then return []
  let dst ← fread bytes
  if dst.length ≠ bytes then throw (fail path "truncated file (unexpected EOF)")
  return dst

/-- `n` entries of an array, from where the stream stands. -/
def readEntries {α : Type} (c : Codec α) (path : String) (n : ℕ) : FileM (List α) := do
  let bytes ← readExact path (n * c.width % 2 ^ 64)
  return c.decodeAll n bytes

/-- A sum of positions and sizes on 64-bit unsigned integers. -/
def wrap64 (n : ℕ) : ℕ := n % 2 ^ 64

structure StpsBinaryReader where
  path : String
  M : ℕ
  totalK : ℕ
  hasCoords : Bool
  deriving DecidableEq, Repr

def readMagic (path : String) : FileM Bool := do
  seekTo path 0
  let magic ← readExact path 8
  if magic = kMagicV1 then return false
  if magic = kMagicV2 then return true
  throw (fail path "bad magic (not a .stps patch file)")

/-- The size of the file that a header declares. -/
def declaredBytes (M totalK : ℕ) (hasCoords : Bool) : ℕ :=
  wrap64 (kHeaderBytes + (M + 1) * 8 + totalK * 8 + if hasCoords then totalK * 16 else 0)

def checkHeader (rd : StpsBinaryReader) (fileBytes : ℕ) : FileM Unit := do
  if fileBytes / 8 ≤ rd.M ∨ fileBytes / 8 < rd.totalK then
    throw (fail rd.path ("corrupt header (M=" ++ toString rd.M ++ ", total_K=" ++
      toString rd.totalK ++ " exceed file size " ++ toString fileBytes ++ ")"))
  let want := declaredBytes rd.M rd.totalK rd.hasCoords
  if fileBytes ≠ want then
    throw (fail rd.path ("size mismatch: header declares " ++ toString want ++
      " bytes, file has " ++ toString fileBytes))

def readOffset (path : String) (pos : ℕ) : FileM ℕ := do
  seekTo path pos
  let words ← readEntries Codec.word path 1
  return words.getD 0 0

def endpointsText (rd : StpsBinaryReader) (first last : ℕ) : String :=
  "corrupt offsets (offsets[0]=" ++ toString first ++ ", offsets[M]=" ++ toString last ++
    ", want 0 and total_K=" ++ toString rd.totalK ++ ")"

def checkEndpoints (rd : StpsBinaryReader) : FileM Unit := do
  let first ← readOffset rd.path kHeaderBytes
  let last ← readOffset rd.path (wrap64 (kHeaderBytes + rd.M * 8))
  if first ≠ 0 ∨ last ≠ rd.totalK then
    throw (fail rd.path (endpointsText rd first last))

def openPatchFile (path : String) : FileM StpsBinaryReader := do
  let hasCoords ← readMagic path
  let header ← readEntries Codec.word path 3
  let rd : StpsBinaryReader :=
    { path, M := header.getD 0 0, totalK := header.getD 1 0, hasCoords }
  let fileBytes ← ftellEnd
  checkHeader rd fileBytes
  checkEndpoints rd
  return rd

def StpsBinaryReader.patchCount (rd : StpsBinaryReader) : ℕ := rd.M

def rangeError (rd : StpsBinaryReader) (first last : ℕ) : Fault :=
  fail rd.path ("slice [" ++ toString first ++ ", " ++ toString last ++ ") out of range (M=" ++
    toString rd.M ++ ")")

def monotoneError (rd : StpsBinaryReader) : Fault :=
  fail rd.path "corrupt offsets (not monotone)"

def pastHashesError (rd : StpsBinaryReader) : Fault :=
  fail rd.path "corrupt offsets (past hash section)"

/-- The offsets window of the patches from `first` on: `n + 1` entries. -/
def readOffsets (rd : StpsBinaryReader) (first n : ℕ) : FileM (List (Fin (2 ^ 64))) := do
  allocate (n + 1) 8
  seekTo rd.path (wrap64 (kHeaderBytes + first * 8))
  let offs ← readEntries Codec.word rd.path (n + 1)
  if ¬ ∀ i < n, offs.getD i 0 ≤ offs.getD (i + 1) 0 then throw (monotoneError rd)
  if rd.totalK < offs.getD n 0 then throw (pastHashesError rd)
  return offs

def hashBase (rd : StpsBinaryReader) : ℕ := wrap64 (kHeaderBytes + (rd.M + 1) * 8)

def coordBase (rd : StpsBinaryReader) : ℕ := wrap64 (hashBase rd + rd.totalK * 8)

/-- `size` entries of a section whose window starts at the entry `first`. -/
def readWindow {α : Type} (c : Codec α) (rd : StpsBinaryReader) (base first size : ℕ) :
    FileM (List α) := do
  allocate size c.width
  seekTo rd.path (wrap64 (base + first * c.width))
  readEntries c rd.path size

/-- The same window of the coordinates, in the second version. -/
def readFlatCoords (rd : StpsBinaryReader) (first size : ℕ) : FileM (List (Point Double)) :=
  if rd.hasCoords then readWindow pointCodec rd (coordBase rd) first size else pure []

/-- The size of a std::vector, without what it points to. -/
def kVectorBytes : ℕ := 24

/-- `emplace_back(buf.begin() + b, buf.begin() + e)`. -/
def emplaceRange {α : Type} (c : Codec α) (buf : List α) (b e : ℕ) : FileM (List α) := do
  let part ← copyRange buf b e
  allocate part.length c.width
  return part

/-- Patch `p` of the slice and, in the second version, its coordinates. -/
def splitPatch (rd : StpsBinaryReader) (offs : List (Fin (2 ^ 64))) (flat : List Hash)
    (flatCoords : List (Point Double)) (p : ℕ) : FileM (List Hash × List (Point Double)) := do
  let b ← sub64 (offs.getD p 0) (offs.getD 0 0)
  let e ← sub64 (offs.getD (p + 1) 0) (offs.getD 0 0)
  let patch ← emplaceRange Codec.word flat b e
  let coords ← if rd.hasCoords then emplaceRange pointCodec flatCoords b e else pure []
  return (patch, coords)

/-- Room for the patches, their ids and, in the second version, their coordinates. -/
def reserveSlice (rd : StpsBinaryReader) (n : ℕ) : FileM Unit := do
  allocate n kVectorBytes
  allocate n 8
  if rd.hasCoords then allocate n kVectorBytes

def readSlice (rd : StpsBinaryReader) (first last : ℕ) : FileM PatchSlice := do
  if last < first ∨ rd.M < last then throw (rangeError rd first last)
  let n := last - first
  let offs ← readOffsets rd first n
  let size ← sub64 (offs.getD n 0) (offs.getD 0 0)
  let flat ← readWindow Codec.word rd (hashBase rd) (offs.getD 0 0) size
  let flatCoords ← readFlatCoords rd (offs.getD 0 0) size
  reserveSlice rd n
  let parts ← (List.range n).mapM (splitPatch rd offs flat flatCoords)
  return { patches := parts.map Prod.fst
           globalIds := (List.range n).map fun p => first + p
           coords := if rd.hasCoords then parts.map Prod.snd else [] }

end Reader

section Writer

/-- `fwrite` to a file that cannot grow to 2^63 bytes, the range of off_t. -/
def writeExact (path : String) (out bytes : List Byte) : Except Fault (List Byte) :=
  if bytes ≠ [] ∧ 2 ^ 63 ≤ out.length + bytes.length then
    .error (fail path "write failed: File too large")
  else .ok (out ++ bytes)

/-- The prefix sums of the patch sizes. -/
def offsetsOf (patches : List (List Hash)) : List (Fin (2 ^ 64)) :=
  patches.scanl (fun offset p => offset + Fin.ofNat (2 ^ 64) p.length) 0

def checkShape (path : String) (patches : List (List Hash))
    (coords : List (List (Point Double))) : Except Fault Unit := do
  if coords.length ≠ patches.length then throw (fail path "coords/patches shape mismatch")
  (List.range patches.length).forM fun p =>
    if (coords.getD p []).length ≠ (patches.getD p []).length then
      throw (fail path ("coords/patches shape mismatch at patch " ++ toString p))
    else pure ()

/-- The bytes of the file that is left at the path. -/
def writePatchFileImpl (path : String) (patches : List (List Hash))
    (coords : Option (List (List (Point Double)))) : Except Fault (List Byte) := do
  let offsets := offsetsOf patches
  let totalK := offsets.getD patches.length 0
  (coords.elim (.ok ()) (checkShape path patches) : Except Fault Unit)
  let out ← writeExact path [] (if coords.isSome then kMagicV2 else kMagicV1)
  let out ← writeExact path out
    (Codec.word.encodeAll [Fin.ofNat (2 ^ 64) patches.length, totalK, 0])
  let out ← writeExact path out (Codec.word.encodeAll offsets)
  let out ← patches.foldlM (fun out p => writeExact path out (Codec.word.encodeAll p)) out
  (coords.getD []).foldlM (fun out c => writeExact path out (pointCodec.encodeAll c)) out

/-- The first version of the file carries no coordinates. -/
def writePatchFile (path : String) (patches : List (List Hash)) : Except Fault (List Byte) :=
  writePatchFileImpl path patches none

def writePatchFileCoords (path : String) (patches : List (List Hash))
    (coords : List (List (Point Double))) : Except Fault (List Byte) :=
  writePatchFileImpl path patches (some coords)

end Writer

end PatternSearch.PatchFile
