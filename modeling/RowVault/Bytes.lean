/-!
# Byte strings

Identifiers, labels, insertion keys, row ids, formulas and encoded fields are all finite byte
strings. They are ordered lexicographically by unsigned byte, a proper prefix first, which is
the order of `List UInt8`. This module fixes the type, the bytes of a text, and the big-endian
digits of a number; its main statements are that reading `width` digits back gives the number modulo
`span width`, and that every byte string is the digits of the number that it spells.
-/

namespace RowVault

/-- A finite byte string, compared lexicographically by unsigned byte. -/
abbrev Bytes := List UInt8

namespace Bytes

/-- The UTF-8 bytes of a text. -/
def ofText (text : String) : Bytes := text.toUTF8.data.toList

/-- The text whose UTF-8 bytes these are, if they are valid UTF-8. -/
def toText? (bytes : Bytes) : Option String := String.fromUTF8? ⟨bytes.toArray⟩

/-- How many numbers `width` digits can tell apart: `256` for each. -/
def span : (width : Nat) → Nat
  | 0 => 1
  | width + 1 => 256 * span width

/-- Some number has so many digits. -/
theorem span_pos (width : Nat) : 0 < span width := by
  induction width with
  | zero => decide
  | succ width ih => exact Nat.mul_pos (by decide) ih

/-- The last `width` base-256 digits of a number, most significant first. -/
def toBE : (width : Nat) → Nat → Bytes
  | 0, _ => []
  | width + 1, n => UInt8.ofNat (n / span width) :: toBE width n

/-- The number whose base-256 digits these are, most significant first. -/
def ofBE (bytes : Bytes) : Nat := bytes.foldl (fun n b ↦ n * 256 + b.toNat) 0

/-- A number always gets the requested number of digits. -/
@[simp] theorem length_toBE (width n : Nat) : (toBE width n).length = width := by
  induction width with
  | zero => rfl
  | succ width ih => simp [toBE, ih]

private theorem foldl_toBE (width n start : Nat) :
    (toBE width n).foldl (fun n b ↦ n * 256 + b.toNat) start =
      start * span width + n % span width := by
  induction width generalizing start with
  | zero => simp [toBE, span, Nat.mod_one]
  | succ width ih =>
    rw [toBE, List.foldl_cons, ih, span, Nat.mul_comm 256, Nat.mod_mul, UInt8.toNat_ofNat']
    rw [Nat.add_mul, Nat.mul_assoc, Nat.mul_comm 256 (span width)]
    have : n / span width % 2 ^ 8 * span width = span width * (n / span width % 256) :=
      Nat.mul_comm _ _
    omega

/-- Reading the digits back gives the number, as far as the digits can hold it. -/
theorem ofBE_toBE (width n : Nat) : ofBE (toBE width n) = n % span width := by
  simp [ofBE, foldl_toBE]

private theorem foldl_ofBE (bytes : Bytes) (start : Nat) :
    bytes.foldl (fun n b ↦ n * 256 + b.toNat) start = start * span bytes.length + ofBE bytes := by
  unfold ofBE
  induction bytes generalizing start with
  | nil => simp [span]
  | cons b bytes ih =>
    rw [List.foldl_cons, List.foldl_cons, ih, ih (0 * 256 + b.toNat), List.length_cons, span,
      Nat.zero_mul, Nat.zero_add, Nat.add_mul, Nat.mul_assoc, Nat.add_assoc]

/-- The first digit counts for as many numbers as the digits that follow can tell apart. -/
theorem ofBE_cons (b : UInt8) (bytes : Bytes) :
    ofBE (b :: bytes) = b.toNat * span bytes.length + ofBE bytes := by
  rw [ofBE, List.foldl_cons, foldl_ofBE, Nat.zero_mul, Nat.zero_add]

/-- A number is below the span of its digits. -/
theorem ofBE_lt (bytes : Bytes) : ofBE bytes < span bytes.length := by
  induction bytes with
  | nil => decide
  | cons b bytes ih =>
    rw [ofBE_cons, List.length_cons, span]
    have := Nat.mul_le_mul_right (span bytes.length) (Nat.succ_le_of_lt b.toNat_lt)
    rw [Nat.succ_mul] at this
    omega

private theorem toBE_add_mul (width n k : Nat) :
    toBE width (n + k * span width) = toBE width n := by
  induction width generalizing k with
  | zero => rfl
  | succ width ih =>
    have h : k * span (width + 1) = k * 256 * span width := by
      rw [span, Nat.mul_assoc]
    rw [toBE, toBE, h, ih, Nat.add_mul_div_right _ _ (span_pos width)]
    congr 1
    rw [← UInt8.toNat_inj, UInt8.toNat_ofNat', UInt8.toNat_ofNat']
    omega

/-- Writing a number in as many digits as it was read from gives the digits back. -/
theorem toBE_ofBE (bytes : Bytes) : toBE bytes.length (ofBE bytes) = bytes := by
  induction bytes with
  | nil => rfl
  | cons b bytes ih =>
    rw [List.length_cons, toBE, ofBE_cons, Nat.add_comm, toBE_add_mul, ih,
      Nat.add_mul_div_right _ _ (span_pos bytes.length), Nat.div_eq_of_lt (ofBE_lt bytes),
      Nat.zero_add, UInt8.ofNat_toNat]

end Bytes

end RowVault
