import RowVault.Bytes
import RowVault.Error

/-!
# Row ids

A row id names the insertion key of a row, the entry and the adapter it comes from, and how many
further rows the entry has. It is encoded as the three byte strings, the big-endian lengths of the
second and third one, and the number of duplicates. The key leads, so that row ids sort by key, and
the trailer of fixed size makes decoding unambiguous: the key is what is left.

The identity of a row is its encoding without the number of duplicates.
-/

namespace RowVault

/-- A segment of a row id whose length is written. -/
inductive RowSegment where
  | data
  | adapter
  deriving DecidableEq, Repr

/-- The segment as messages name it. -/
def RowSegment.label : RowSegment → String
  | data => "data_id"
  | adapter => "adapter_id"

/-- Why bytes are no row id, or why a row id has no encoding. -/
inductive RowIdError where
  | tooShort (length min : Nat)
  | segmentOverflow (data adapter available : Nat)
  | segmentTooLong (segment : RowSegment) (length : Nat)
  deriving DecidableEq, Repr

namespace RowIdError

/-- The text of an error. -/
def message : RowIdError → String
  | tooShort length min => s!"malformed row id: {length} bytes, trailer needs {min}"
  | segmentOverflow data adapter available =>
    s!"malformed row id: segments of {data} + {adapter} bytes exceed {available} available"
  | segmentTooLong segment length =>
    s!"row id segment '{segment.label}' is {length} bytes; segments are limited to u32 lengths"

/-- Malformed bytes are damage; a segment that is too long is not supported. -/
def toFailure (e : RowIdError) : Failure :=
  match e with
  | tooShort _ _ => ⟨.corruption, .rowId, e.message⟩
  | segmentOverflow _ _ _ => ⟨.corruption, .rowId, e.message⟩
  | segmentTooLong _ _ => ⟨.unsupported, .rowId, e.message⟩

end RowIdError

/-- The parts of a row id. -/
structure RowId where
  key : Bytes
  data : Bytes
  adapter : Bytes
  /-- The number of further rows of the entry, or `noDeduplication`. -/
  duplicates : Int32
  deriving DecidableEq, Repr

namespace RowId

/-- The number of duplicates of rows that opt out of deduplication. -/
def noDeduplication : Int32 := -1

/-- The size of the trailer: two lengths and the number of duplicates. -/
def trailerSize : Nat := 12

/-- The size of the number of duplicates. -/
def duplicatesSize : Nat := 4

/-- The bound of segment lengths. -/
def segmentBound : Nat := Bytes.span 4

/-- Whether duplicates of the row may be dropped. -/
def isDeduplicated (r : RowId) : Bool := decide (0 ≤ r.duplicates)

/-- The bytes of a row id up to the number of duplicates. -/
def identity (r : RowId) : Bytes :=
  r.key ++ r.data ++ r.adapter ++ Bytes.toBE 4 r.data.length ++ Bytes.toBE 4 r.adapter.length

/-- The bytes of a row id whose segments are short enough. -/
def bytes (r : RowId) : Bytes :=
  r.identity ++ Bytes.toBE duplicatesSize r.duplicates.toUInt32.toNat

/-- The encoding of a row id. -/
def encode (r : RowId) : Except RowIdError Bytes :=
  if r.data.length ≥ segmentBound then .error (.segmentTooLong .data r.data.length)
  else if r.adapter.length ≥ segmentBound then .error (.segmentTooLong .adapter r.adapter.length)
  else .ok r.bytes

/-- The row id of an encoding. -/
def decode (raw : Bytes) : Except RowIdError RowId :=
  if raw.length < trailerSize then .error (.tooShort raw.length trailerSize)
  else
    let body := raw.take (raw.length - trailerSize)
    let trailer := raw.drop (raw.length - trailerSize)
    let data := Bytes.ofBE (trailer.take 4)
    let adapter := Bytes.ofBE ((trailer.drop 4).take 4)
    if data + adapter > body.length then .error (.segmentOverflow data adapter body.length)
    else
      let rest := body.drop (body.length - (data + adapter))
      .ok {
        key := body.take (body.length - (data + adapter))
        data := rest.take data
        adapter := rest.drop data
        duplicates := (UInt32.ofNat (Bytes.ofBE (trailer.drop 8))).toInt32 }

/-- The identity of an encoded row id: all but the number of duplicates. -/
def identityOf (raw : Bytes) : Bytes := raw.take (raw.length - duplicatesSize)

/-- The trailing number of duplicates has a fixed size, so the identity can be read off. -/
theorem identityOf_bytes (r : RowId) : identityOf r.bytes = r.identity := by
  rw [identityOf, bytes, List.length_append, Bytes.length_toBE, Nat.add_sub_cancel, List.take_left]

/-- A row id has an encoding if its two segments of written length are short enough. -/
theorem encode_eq_ok_iff {r : RowId} {raw : Bytes} :
    r.encode = .ok raw ↔
      r.data.length < segmentBound ∧ r.adapter.length < segmentBound ∧ r.bytes = raw := by
  unfold encode
  by_cases hd : r.data.length < segmentBound
  · rw [if_neg (Nat.not_le.mpr hd)]
    by_cases ha : r.adapter.length < segmentBound
    · simp [Nat.not_le.mpr ha, ha, hd]
    · simp [ha, Nat.not_lt.mp ha]
  · simp [hd, Nat.not_lt.mp hd]

end RowId

end RowVault
