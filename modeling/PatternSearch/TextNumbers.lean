import Mathlib.Data.Nat.Digits.Lemmas
import PatternSearch.Bytes

/-!
Numbers as text. A number is written with digits of a base up to 16, padded on the left to the
width of its field, and scanned back from a text that starts with blanks: blanks are skipped and
the longest run of digits is the number, whatever follows it.
-/

namespace PatternSearch.TextNumbers

open Bytes

section Format

/-- '0' to '9' and 'a' to 'f'. -/
def digitByte (d : ℕ) : Byte := Fin.ofNat 256 (if d < 10 then 48 + d else 87 + d)

/-- The digits of a number, the highest first. -/
def digitsText (base n : ℕ) : List Byte :=
  if n = 0 then [digitByte 0] else ((Nat.digits base n).map digitByte).reverse

def padLeft (pad : Byte) (width : ℕ) (text : List Byte) : List Byte :=
  List.replicate (width - text.length) pad ++ text

theorem length_padLeft (pad : Byte) {width : ℕ} {text : List Byte} (h : text.length ≤ width) :
    (padLeft pad width text).length = width := by
  rw [padLeft, List.length_append, List.length_replicate, Nat.sub_add_cancel h]

theorem length_digitsText_le {base n width : ℕ} (hbase : 1 < base) (hwidth : 0 < width)
    (hn : n < base ^ width) : (digitsText base n).length ≤ width := by
  rw [digitsText]
  split_ifs with hzero
  · exact hwidth
  · rw [List.length_reverse, List.length_map]
    exact (Nat.digits_length_le_iff hbase n).mpr hn

theorem digitsText_ne_nil {base n : ℕ} : digitsText base n ≠ [] := by
  rw [digitsText]
  split_ifs with hzero
  · exact List.cons_ne_nil _ _
  · intro hnil
    have hdigits := List.map_eq_nil_iff.mp (List.reverse_eq_nil_iff.mp hnil)
    exact hzero (Nat.digits_eq_nil_iff_eq_zero.mp hdigits)

end Format

section Scan

def isSpace (c : Byte) : Bool := c.val = 32 ∨ 9 ≤ c.val ∧ c.val ≤ 13

/-- The value of a digit or letter, and 36 for anything else. -/
def digitValue (c : Byte) : ℕ :=
  if 48 ≤ c.val ∧ c.val ≤ 57 then c.val - 48
  else if 97 ≤ c.val ∧ c.val ≤ 122 then c.val - 87
  else if 65 ≤ c.val ∧ c.val ≤ 90 then c.val - 55
  else 36

def isDigit (base : ℕ) (c : Byte) : Bool := digitValue c < base

/-- The number that a run of digits, the highest first, stands for. -/
def digitsValue (base : ℕ) (ds : List Byte) : ℕ := Nat.ofDigits base (ds.reverse.map digitValue)

/-- A number without sign or prefix after white space, and the text behind it. -/
def scanUnsigned (base : ℕ) (text : List Byte) : Option (ℕ × List Byte) :=
  let field := text.dropWhile isSpace
  let ds := field.takeWhile (isDigit base)
  if ds = [] then none else some (digitsValue base ds, field.drop ds.length)

theorem digitValue_digitByte {d : ℕ} (hd : d < 16) : digitValue (digitByte d) = d := by
  have hall : ∀ d < 16, digitValue (digitByte d) = d := by decide
  exact hall d hd

/-- No digit is white space. -/
theorem isSpace_eq_false {base : ℕ} (hbase : base ≤ 36) {c : Byte} (hc : isDigit base c = true) :
    isSpace c = false := by
  have hlt : digitValue c < base := of_decide_eq_true hc
  unfold digitValue at hlt
  unfold isSpace
  rw [decide_eq_false_iff_not]
  split_ifs at hlt <;> omega

/-- Blanks, digits, and something that is no digit. -/
theorem scanUnsigned_append {base : ℕ} (hbase : base ≤ 36) {blanks ds rest : List Byte}
    (hblanks : ∀ c ∈ blanks, isSpace c = true) (hne : ds ≠ [])
    (hds : ∀ c ∈ ds, isDigit base c = true) (hrest : ∀ c ∈ rest.head?, isDigit base c = false) :
    scanUnsigned base (blanks ++ ds ++ rest) = some (digitsValue base ds, rest) := by
  have hfield : (blanks ++ ds ++ rest).dropWhile isSpace = ds ++ rest := by
    obtain ⟨d, ds', rfl⟩ := List.exists_cons_of_ne_nil hne
    have hd := isSpace_eq_false hbase (hds d (List.mem_cons_self ..))
    rw [List.append_assoc, List.dropWhile_append_of_pos hblanks, List.cons_append,
      List.dropWhile_cons_of_neg (by simp [hd])]
  have htake : (ds ++ rest).takeWhile (isDigit base) = ds := by
    rw [List.takeWhile_append_of_pos hds]
    cases rest with
    | nil => simp
    | cons c rest =>
      have hc := hrest c rfl
      rw [List.takeWhile_cons_of_neg (by simp [hc]), List.append_nil]
  rw [scanUnsigned, hfield, htake, if_neg hne, List.drop_left]

end Scan

section RoundTrip

variable {base n : ℕ}

theorem isDigit_digitsText (hlow : 1 < base) (hhigh : base ≤ 16) :
    ∀ c ∈ digitsText base n, isDigit base c = true := by
  intro c hc
  rw [digitsText] at hc
  split_ifs at hc
  · rw [List.mem_singleton.mp hc, isDigit, digitValue_digitByte (by omega)]
    exact decide_eq_true (by omega)
  · obtain ⟨d, hd, rfl⟩ := List.mem_map.mp (List.mem_reverse.mp hc)
    have hlt := Nat.digits_lt_base hlow hd
    rw [isDigit, digitValue_digitByte (by omega)]
    exact decide_eq_true hlt

/-- The digits of a number stand for it. -/
theorem digitsValue_digitsText (hlow : 1 < base) (hhigh : base ≤ 16) :
    digitsValue base (digitsText base n) = n := by
  rw [digitsText]
  split_ifs with hzero
  · rw [hzero]
    simp [digitsValue, digitValue_digitByte]
  · have hdigits : ((Nat.digits base n).map digitByte).map digitValue = Nat.digits base n := by
      rw [List.map_map]
      refine (List.map_congr_left fun d hd => ?_).trans (List.map_id _)
      have hlt := Nat.digits_lt_base hlow hd
      exact digitValue_digitByte (by omega)
    rw [digitsValue, List.reverse_reverse, hdigits, Nat.ofDigits_digits]

/-- Leading zeros do not count. -/
theorem digitsValue_zeros (ds : List Byte) (zeros : ℕ) :
    digitsValue base (List.replicate zeros (digitByte 0) ++ ds) = digitsValue base ds := by
  have hzero : digitValue (digitByte 0) = 0 := digitValue_digitByte (by decide)
  rw [digitsValue, List.reverse_append, List.map_append, List.reverse_replicate,
    List.map_replicate, hzero, Nat.ofDigits_append_replicate_zero, digitsValue]

/-- A field padded with zeros is read back. -/
theorem scanUnsigned_zeroPadded (hlow : 1 < base) (hhigh : base ≤ 16) (width : ℕ)
    {rest : List Byte} (hrest : ∀ c ∈ rest.head?, isDigit base c = false) :
    scanUnsigned base (padLeft (digitByte 0) width (digitsText base n) ++ rest) =
      some (n, rest) := by
  have hds : ∀ c ∈ padLeft (digitByte 0) width (digitsText base n), isDigit base c = true := by
    intro c hc
    rcases List.mem_append.mp hc with hc | hc
    · rw [(List.mem_replicate.mp hc).2, isDigit, digitValue_digitByte (by decide)]
      exact decide_eq_true (by omega)
    · exact isDigit_digitsText hlow hhigh c hc
  have hvalue : digitsValue base (padLeft (digitByte 0) width (digitsText base n)) = n := by
    rw [padLeft, digitsValue_zeros, digitsValue_digitsText hlow hhigh]
  have hne : padLeft (digitByte 0) width (digitsText base n) ≠ [] :=
    List.append_ne_nil_of_right_ne_nil _ digitsText_ne_nil
  have hblanks : ∀ c ∈ ([] : List Byte), isSpace c = true := fun c hc => by cases hc
  have hscan := scanUnsigned_append (by omega) hblanks hne hds hrest
  rw [List.nil_append, hvalue] at hscan
  exact hscan

/-- A field padded with blanks is read back, also after further blanks. -/
theorem scanUnsigned_blankPadded (hlow : 1 < base) (hhigh : base ≤ 16) {blanks : List Byte}
    {pad : Byte} (hblanks : ∀ c ∈ blanks, isSpace c = true) (hpad : isSpace pad = true)
    (width : ℕ) {rest : List Byte} (hrest : ∀ c ∈ rest.head?, isDigit base c = false) :
    scanUnsigned base (blanks ++ padLeft pad width (digitsText base n) ++ rest) =
      some (n, rest) := by
  have hall : ∀ c ∈ blanks ++ List.replicate (width - (digitsText base n).length) pad,
      isSpace c = true := by
    intro c hc
    rcases List.mem_append.mp hc with hc | hc
    · exact hblanks c hc
    · rw [(List.mem_replicate.mp hc).2]
      exact hpad
  rw [padLeft, ← List.append_assoc blanks, scanUnsigned_append (by omega) hall
    digitsText_ne_nil (isDigit_digitsText hlow hhigh) hrest, digitsValue_digitsText hlow hhigh]

end RoundTrip

end PatternSearch.TextNumbers
