import RowVault.Cbor.Head
import RowVault.Value.Basic

/-!
# Field values in CBOR

The null value is the text of its kind; any other value is a map of one entry, from the text of
its kind to its content. Integers take the shortest head, a blob is an array of its bytes as
integers, a range is a map of its two ends, and a number takes the narrowest of the three
floating-point formats that holds it exactly.
-/

namespace RowVault

/-- The kinds of field value. -/
inductive ValueKind where
  | null
  | bool
  | int
  | uint
  | float
  | text
  | blob
  | range
  deriving DecidableEq, Repr

/-- The kinds in the order of their numbers. -/
def ValueKind.all : List ValueKind := [null, bool, int, uint, float, text, blob, range]

/-- The text that stands for a kind. -/
def ValueKind.label : ValueKind → String
  | null => "Null"
  | bool => "Bool"
  | int => "Int"
  | uint => "Uint"
  | float => "Float"
  | text => "Text"
  | blob => "Blob"
  | range => "Range"

namespace Cbor

/-- A text item. -/
def writeText (text : String) : Bytes :=
  let bytes := Bytes.ofText text
  writeHead 3 bytes.length ++ bytes

/-- An integer item. -/
def writeInt (n : Int) : Bytes :=
  if 0 ≤ n then writeHead 0 n.toNat else writeHead 1 (-1 - n).toNat

/-- A floating-point item in the narrowest format that is exact. A NaN loses its payload. -/
def writeFloat (x : Binary64) : Bytes :=
  if x.isNaN then [0xF9, 0x7E, 0x00]
  else
    match NarrowFormat.binary16.narrow? x, NarrowFormat.binary32.narrow? x with
    | some half, _ => 0xF9 :: Bytes.toBE 2 half
    | none, some single => 0xFA :: Bytes.toBE 4 single
    | none, none => 0xFB :: Bytes.toBE 8 x.bits.toNat

/-- The content of a value, without its kind. -/
def writeContent : Value → Bytes
  | .null => []
  | .bool b => [if b then 0xF5 else 0xF4]
  | .int n => writeInt n.toInt
  | .uint n => writeHead 0 n.toNat
  | .float x => writeFloat x
  | .text s => writeText s
  | .blob bytes => writeHead 4 bytes.length ++ bytes.flatMap fun b ↦ writeHead 0 b.toNat
  | .range r => writeHead 5 2 ++ writeText "min" ++ writeFloat r.min ++
      writeText "max" ++ writeFloat r.max

/-- The kind of a value. -/
def kindOf : Value → ValueKind
  | .null => .null
  | .bool _ => .bool
  | .int _ => .int
  | .uint _ => .uint
  | .float _ => .float
  | .text _ => .text
  | .blob _ => .blob
  | .range _ => .range

/-- The item of a field value. -/
def writeValue (v : Value) : Bytes :=
  if v.isNull then writeText (kindOf v).label
  else writeHead 5 1 ++ writeText (kindOf v).label ++ writeContent v

end Cbor

end RowVault
