import RowVault.Bytes.Lossy
import RowVault.Error
import RowVault.Cbor.Reader

/-!
# Field codecs

A writer turns a field value into bytes and states the visibility formula that the value carries by
itself. A reader turns the bytes back. `ValueCodec` does both for every value, in CBOR, and states
one formula for all of them; it reads no field of more than `maxFieldSize` bytes.
-/

namespace RowVault

/-- The size of the largest field that is read. -/
def maxFieldSize : Nat := 4194304

/-- Why a field could not be read. -/
inductive FieldReadError where
  | malformed (field : Bytes) (reason : String)
  | tooLarge (field : Bytes) (size : Nat)
  | noReader (field : Bytes)
  deriving DecidableEq, Repr

namespace FieldReadError

/-- The text of an error. -/
def message : FieldReadError → String
  | malformed field reason => s!"field '{field.display}' could not be read: {reason}"
  | tooLarge field size =>
    s!"field '{field.display}' is {size} bytes; fields are limited to {maxFieldSize}"
  | noReader field => s!"no reader registered for field '{field.display}'"

/-- Bytes that cannot be read are damage; a field without reader is not supported. -/
def toFailure (e : FieldReadError) : Failure :=
  match e with
  | malformed _ _ => ⟨.corruption, .decode, e.message⟩
  | tooLarge _ _ => ⟨.corruption, .decode, e.message⟩
  | noReader _ => ⟨.unsupported, .decode, e.message⟩

end FieldReadError

/-- Writes the values of a field. -/
structure FieldWriter where
  write : Value → Except Failure Bytes
  /-- The formula of a value of a field; the empty one asks for nothing. -/
  visibility : (field : Bytes) → Value → Bytes := fun _ _ ↦ []

/-- Reads the values of a field. -/
structure FieldReader where
  read : (field : Bytes) → Bytes → Except FieldReadError Value

/-- A codec for values of every kind, all of which carry the same formula. -/
structure ValueCodec where
  visibility : Bytes := []
  deriving DecidableEq, Repr

namespace ValueCodec

/-- The writing side. -/
def writer (c : ValueCodec) : FieldWriter where
  write v := .ok (Cbor.writeValue v)
  visibility _ _ := c.visibility

/-- The reading side. The size is looked at before the content. -/
def reader (_ : ValueCodec) : FieldReader where
  read field bytes :=
    if bytes.length > maxFieldSize then .error (.tooLarge field bytes.length)
    else
      match Cbor.readValue bytes with
      | some v => .ok v
      | none => .error (.malformed field "the bytes encode no value")

end ValueCodec

end RowVault
