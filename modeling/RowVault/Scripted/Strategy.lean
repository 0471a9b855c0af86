import RowVault.Bytes.Hex
import RowVault.Model.Index

/-!
# Two index strategies

The integer strategy gives a key for each integer that the interval of a field meets, unless there
are too many. Keys are 32-bit integers with the sign bit flipped, so that they sort as numbers. The
listing strategy takes its keys from a text, and its ranges are fixed.
-/

namespace RowVault.Scripted

/-- The nearest 32-bit signed integer. -/
def clamp32 (n : Int) : Int := max (-0x80000000) (min 0x7FFFFFFF n)

/-- The floor of a number as a 32-bit integer; a NaN counts as zero. -/
def floor32 (x : Binary64) : Int := if x.isNaN then 0 else clamp32 x.floor

/-- The ceiling of a number as a 32-bit integer; a NaN counts as zero. -/
def ceil32 (x : Binary64) : Int := if x.isNaN then 0 else clamp32 x.ceil

/-- The key of a 32-bit integer. -/
def integerKey (n : Int) : Bytes := Bytes.toBE 4 (n + 0x80000000).toNat

/-- The keys of the integers from one to another. -/
def integerKeys (low high : Int) : List Bytes :=
  (List.range (high + 1 - low).toNat).map fun (i : Nat) ↦ integerKey (low + i)

/-- Keys for the integers that a field's interval meets, at most `maxSpan + 1` of them. -/
def integerStrategy (id field : Bytes) (maxSpan : Int) : Strategy where
  id
  insertionKeys common :=
    match (common.get? field).bind (·.numericRange?) with
    | none => []
    | some r =>
      if floor32 r.max - floor32 r.min > maxSpan then []
      else integerKeys (floor32 r.min) (floor32 r.max)
  queryRanges constraints max :=
    let chosen := match max with
      | none => constraints
      | some n => constraints.take n
    chosen.map fun (r : NumericRange) ↦ ⟨integerKey (floor32 r.min), integerKey (ceil32 r.max)⟩

/-- Keys listed in a text field, in hexadecimal digits and separated by commas, and fixed ranges. -/
def listingStrategy (id field : Bytes) (ranges : List KeyRange) : Strategy where
  id
  insertionKeys common :=
    match (common.get? field).bind (·.text?) with
    | none => []
    | some text =>
      if text.isEmpty then []
      else (text.splitOn ",").map fun (s : String) ↦ (Bytes.ofHex? s).getD []
  queryRanges _ max :=
    match max with
    | none => ranges
    | some n => ranges.take n

end RowVault.Scripted
