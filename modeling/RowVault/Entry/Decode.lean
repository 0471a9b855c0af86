import RowVault.Entry.Info
import RowVault.Model.Index

/-!
# Decoded rows

Filters see a row as its identifiers and its fields, split again into those that the index model
reads and the others. Values are used as they were stored.
-/

namespace RowVault

/-- A row as filters see it. -/
structure DecodedRow where
  adapter : Bytes
  data : Bytes
  key : Bytes
  duplicates : Int32
  common : Dataset
  extended : Dataset
  deriving DecidableEq, Repr

/-- The row of an id and persisted fields, split by an index model. -/
def DecodedRow.ofRow (model : IndexModel) (id : RowId) (fields : List FieldInfo) : DecodedRow where
  adapter := id.adapter
  data := id.data
  key := id.key
  duplicates := id.duplicates
  common := .ofList ((fields.filter fun f ↦ (model.reader? f.field).isSome).map (·.value))
  extended := .ofList ((fields.filter fun f ↦ !(model.reader? f.field).isSome).map (·.value))

end RowVault
