import RowVault.Key.Window
import RowVault.Model.Codec
import RowVault.Value.Dataset

/-!
# Indices

An index is a strategy, which turns the indexed fields of an entry into insertion keys and the
constraints of a query into ranges of keys, and a model, which lists the fields that take part and
their codecs. Its identifier is made of the identifiers of the two.
-/

namespace RowVault

/-- A field of an index, with its codec. -/
structure IndexField where
  id : Bytes
  writer : FieldWriter
  reader : FieldReader

/-- A field that one codec writes and reads. -/
def IndexField.ofCodec (id : Bytes) (codec : ValueCodec) : IndexField :=
  ⟨id, codec.writer, codec.reader⟩

/-- The fields that take part in an index. -/
structure IndexModel where
  id : Bytes
  fields : List IndexField

namespace IndexModel

/-- The first field of an identifier. -/
def field? (m : IndexModel) (id : Bytes) : Option IndexField := m.fields.find? (·.id == id)

/-- Whether a field takes part. -/
def contains (m : IndexModel) (id : Bytes) : Bool := (m.field? id).isSome

/-- The writer of a field. -/
def writer? (m : IndexModel) (id : Bytes) : Option FieldWriter := (m.field? id).map (·.writer)

/-- The reader of a field. -/
def reader? (m : IndexModel) (id : Bytes) : Option FieldReader := (m.field? id).map (·.reader)

end IndexModel

/-- How entries and queries are mapped to insertion keys. Keys are only compared, never read. -/
structure Strategy where
  id : Bytes
  insertionKeys : (common : Dataset) → List Bytes
  /-- The ranges of constraints, one interval per dimension, and at most so many. -/
  queryRanges : List NumericRange → (max : Option Nat) → List KeyRange

/-- A strategy with its model. -/
structure Index where
  strategy : Strategy
  model : IndexModel

/-- The byte between the two parts of an index identifier. -/
def Index.separator : UInt8 := 0x5F

/-- The identifier of an index: that of the strategy and that of the model. -/
def Index.id (i : Index) : Bytes := i.strategy.id ++ separator :: i.model.id

end RowVault
