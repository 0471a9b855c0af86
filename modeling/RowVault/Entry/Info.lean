import RowVault.Row.Key
import RowVault.Value.Basic

/-!
# Encoded entries

Encoding an entry for an index gives a row id for each of its insertion keys, and its persisted
fields, which all its rows share.
-/

namespace RowVault

/-- A row id beside its encoding. -/
structure EncodedRow where
  id : RowId
  raw : Bytes
  deriving DecidableEq, Repr

/-- The place of the row in its index. -/
def EncodedRow.place (r : EncodedRow) : RowKey := .ofRow r.id r.raw

/-- A persisted field: its value, the bytes that stand for it, and its visibility formula. -/
structure FieldInfo where
  value : FieldValue
  written : Bytes
  visibility : Bytes
  deriving DecidableEq, Repr

/-- The identifier of the field. -/
def FieldInfo.field (f : FieldInfo) : Bytes := f.value.field

/-- The rows and fields of one entry in one index. -/
structure EntryInfo where
  rows : List EncodedRow
  fields : List FieldInfo
  deriving DecidableEq, Repr

namespace EntryInfo

/-- An entry that cannot be indexed has no rows and no fields. -/
def empty : EntryInfo := ⟨[], []⟩

/-- Whether there is no row. -/
def isEmpty (i : EntryInfo) : Bool := i.rows.isEmpty

/-- The encoded row ids. -/
def rowIds (i : EntryInfo) : List Bytes := i.rows.map (·.raw)

/-- The value of a field. -/
def value? (i : EntryInfo) (field : Bytes) : Option Value :=
  (i.fields.find? (·.field == field)).map (·.value.value)

/-- The formulas of all fields. -/
def visibilities (i : EntryInfo) : List Bytes := i.fields.map (·.visibility)

end EntryInfo

end RowVault
