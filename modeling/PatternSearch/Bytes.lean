import Mathlib.Data.Nat.Digits.Lemmas
import Mathlib.Data.List.GetD

/-!
Values of a fixed width in bytes. A codec turns every value into exactly its width of bytes
and every such byte string into a value; both directions are inverse. Arrays are the
concatenated encodings of their entries, and reading a window of an array is taking a window
of its values. Numbers are stored with the least significant byte first.
-/

namespace PatternSearch.Bytes

abbrev Byte := Fin 256

instance instNeZeroByteCount : NeZero 256 := ⟨Nat.succ_ne_zero 255⟩

section Numbers

/-- The low bytes of a number. -/
def numberBytes : ℕ → ℕ → List Byte
  | 0, _ => []
  | width + 1, n => Fin.ofNat 256 n :: numberBytes width (n / 256)

def bytesNumber (bytes : List Byte) : ℕ := Nat.ofDigits 256 (bytes.map Fin.val)

theorem length_numberBytes (width n : ℕ) : (numberBytes width n).length = width := by
  induction width generalizing n with
  | zero => rfl
  | succ width ih => rw [numberBytes, List.length_cons, ih]

theorem bytesNumber_cons (b : Byte) (bytes : List Byte) :
    bytesNumber (b :: bytes) = b + 256 * bytesNumber bytes := by
  rw [bytesNumber, List.map_cons, Nat.ofDigits_cons]
  rfl

theorem bytesNumber_lt (bytes : List Byte) : bytesNumber bytes < 256 ^ bytes.length := by
  induction bytes with
  | nil => simp [bytesNumber]
  | cons b bytes ih =>
    have hb := b.isLt
    rw [bytesNumber_cons, List.length_cons, Nat.pow_succ]
    omega

theorem bytesNumber_numberBytes (width : ℕ) {n : ℕ} (hn : n < 256 ^ width) :
    bytesNumber (numberBytes width n) = n := by
  induction width generalizing n with
  | zero =>
    have hzero : n = 0 := by simpa using hn
    rw [hzero]
    rfl
  | succ width ih =>
    rw [Nat.pow_succ] at hn
    rw [numberBytes, bytesNumber_cons, ih (by omega), Fin.val_ofNat]
    omega

theorem numberBytes_bytesNumber (bytes : List Byte) :
    numberBytes bytes.length (bytesNumber bytes) = bytes := by
  induction bytes with
  | nil => rfl
  | cons b bytes ih =>
    have hb := b.isLt
    have hlow : Fin.ofNat 256 (b + 256 * bytesNumber bytes) = b := by
      apply Fin.ext
      rw [Fin.val_ofNat]
      omega
    have hhigh : (b + 256 * bytesNumber bytes) / 256 = bytesNumber bytes := by omega
    rw [List.length_cons, bytesNumber_cons, numberBytes, hlow, hhigh, ih]

end Numbers

/-- An encoding of all values of a type as all byte strings of one width. -/
structure Codec (α : Type) where
  width : ℕ
  encode : α → List Byte
  decode : List Byte → α
  length_encode : ∀ a, (encode a).length = width
  decode_encode : ∀ a, decode (encode a) = a
  encode_decode : ∀ bytes, bytes.length = width → encode (decode bytes) = bytes

namespace Codec

/-- A 64-bit unsigned integer. -/
def word : Codec (Fin (2 ^ 64)) where
  width := 8
  encode n := numberBytes 8 n
  decode bytes := Fin.ofNat (2 ^ 64) (bytesNumber bytes)
  length_encode n := length_numberBytes 8 n
  decode_encode n := by
    rw [bytesNumber_numberBytes 8 n.isLt]
    exact Fin.ofNat_val_eq_self n
  encode_decode bytes hlen := by
    have hlt := bytesNumber_lt bytes
    have hpow : 256 ^ 8 = 2 ^ 64 := rfl
    rw [hlen, hpow] at hlt
    rw [Fin.val_ofNat, Nat.mod_eq_of_lt hlt, ← hlen, numberBytes_bytesNumber]

/-- Two values next to each other. -/
def pair {α β : Type} (c : Codec α) (d : Codec β) : Codec (α × β) where
  width := c.width + d.width
  encode x := c.encode x.1 ++ d.encode x.2
  decode bytes := (c.decode (bytes.take c.width), d.decode (bytes.drop c.width))
  length_encode x := by rw [List.length_append, c.length_encode, d.length_encode]
  decode_encode x := by
    rw [List.take_left' (c.length_encode x.1), List.drop_left' (c.length_encode x.1),
      c.decode_encode, d.decode_encode]
  encode_decode bytes hlen := by
    rw [c.encode_decode _ (by rw [List.length_take]; omega),
      d.encode_decode _ (by rw [List.length_drop]; omega), List.take_append_drop]

/-- The same bytes for another type. -/
def transport {α β : Type} (c : Codec α) (e : α ≃ β) : Codec β where
  width := c.width
  encode b := c.encode (e.symm b)
  decode bytes := e (c.decode bytes)
  length_encode b := c.length_encode _
  decode_encode b := by rw [c.decode_encode, e.apply_symm_apply]
  encode_decode bytes hlen := by rw [e.symm_apply_apply, c.encode_decode bytes hlen]

variable {α : Type} (c : Codec α)

def encodeAll (l : List α) : List Byte := l.flatMap c.encode

def decodeAll : ℕ → List Byte → List α
  | 0, _ => []
  | n + 1, bytes => c.decode (bytes.take c.width) :: decodeAll n (bytes.drop c.width)

theorem encodeAll_append (l l' : List α) :
    c.encodeAll (l ++ l') = c.encodeAll l ++ c.encodeAll l' :=
  List.flatMap_append

theorem length_encodeAll (l : List α) : (c.encodeAll l).length = l.length * c.width := by
  induction l with
  | nil => simp [encodeAll]
  | cons a l ih =>
    have hcons : c.encodeAll (a :: l) = c.encode a ++ c.encodeAll l := List.flatMap_cons
    rw [hcons, List.length_append, c.length_encode, ih, List.length_cons, Nat.succ_mul]
    omega

@[simp] theorem length_decodeAll (n : ℕ) (bytes : List Byte) :
    (c.decodeAll n bytes).length = n := by
  induction n generalizing bytes with
  | zero => rfl
  | succ n ih => rw [decodeAll, List.length_cons, ih]

/-- Whatever follows the array is not looked at. -/
theorem decodeAll_encodeAll_append (l : List α) (rest : List Byte) :
    c.decodeAll l.length (c.encodeAll l ++ rest) = l := by
  induction l with
  | nil => rfl
  | cons a l ih =>
    have hcons : c.encodeAll (a :: l) = c.encode a ++ c.encodeAll l := List.flatMap_cons
    rw [hcons, List.append_assoc, List.length_cons, decodeAll,
      List.take_left' (c.length_encode a), List.drop_left' (c.length_encode a),
      c.decode_encode, ih]

theorem encodeAll_decodeAll (n : ℕ) (bytes : List Byte) (hlen : n * c.width ≤ bytes.length) :
    c.encodeAll (c.decodeAll n bytes) = bytes.take (n * c.width) := by
  induction n generalizing bytes with
  | zero => simp [decodeAll, encodeAll]
  | succ n ih =>
    rw [Nat.succ_mul] at hlen ⊢
    have hcons : c.encodeAll (c.decodeAll (n + 1) bytes) =
        c.encode (c.decode (bytes.take c.width)) ++
          c.encodeAll (c.decodeAll n (bytes.drop c.width)) := List.flatMap_cons
    rw [hcons, c.encode_decode _ (by rw [List.length_take]; omega),
      ih _ (by rw [List.length_drop]; omega), Nat.add_comm, List.take_add]

/-- Reading from inside an array reads a window of its values. -/
theorem decodeAll_drop {n k m : ℕ} (h : k + n ≤ m) (bytes : List Byte) :
    c.decodeAll n (bytes.drop (k * c.width)) = ((c.decodeAll m bytes).drop k).take n := by
  induction k generalizing m bytes with
  | zero =>
    rw [Nat.zero_mul, List.drop_zero, List.drop_zero]
    induction n generalizing m bytes with
    | zero => rfl
    | succ n ih =>
      obtain ⟨m, rfl⟩ : ∃ m', m = m' + 1 := ⟨m - 1, by omega⟩
      rw [decodeAll, decodeAll, List.take_succ_cons, ih (m := m) (by omega)]
  | succ k ih =>
    obtain ⟨m, rfl⟩ : ∃ m', m = m' + 1 := ⟨m - 1, by omega⟩
    rw [Nat.succ_mul, Nat.add_comm, ← List.drop_drop, ih (m := m) (by omega), decodeAll,
      List.drop_succ_cons]

/-- Only the bytes of the array matter. -/
theorem decodeAll_take (n : ℕ) {len : ℕ} (h : n * c.width ≤ len) (bytes : List Byte) :
    c.decodeAll n (bytes.take len) = c.decodeAll n bytes := by
  induction n generalizing len bytes with
  | zero => rfl
  | succ n ih =>
    rw [Nat.succ_mul] at h
    rw [decodeAll, decodeAll, List.take_take, Nat.min_eq_left (by omega), List.drop_take,
      ih (by omega)]

end Codec

end PatternSearch.Bytes
