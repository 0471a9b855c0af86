import RowVault.Model.Index
import RowVault.Statistic.Kind

/-!
# Adapters

An adapter turns the entries of one domain type into fields. For an index it splits them into
common fields, which the index model knows, and extended ones, which the adapter writes itself. A
visibility writer gives the formula that the caller wants on each field.
-/

namespace RowVault

/-- What an adapter makes of an entry for one index. -/
structure Encoding where
  adapter : Bytes
  data : Bytes
  common : Dataset
  extended : Dataset
  deduplicated : Bool := true
  deriving DecidableEq, Repr

/-- How the entries of one type become fields. -/
structure Adapter (T : Type) where
  id : Bytes
  encode : T → IndexModel → Encoding
  /-- The writer of an extended field; without one, the field is not kept. -/
  writer? : (field : Bytes) → Option FieldWriter
  reader? : (field : Bytes) → Option FieldReader
  statisticKinds : List StatisticKind := [.count]

/-- The caller's formulas, by entry, field and value. -/
structure VisibilityWriter (T : Type) where
  formula : T → (field : Bytes) → Value → Bytes

namespace VisibilityWriter

/-- One formula for every field. -/
def uniform {T : Type} (formula : Bytes) : VisibilityWriter T := ⟨fun _ _ _ ↦ formula⟩

/-- Nothing is asked of anyone. -/
def unconstrained {T : Type} : VisibilityWriter T := uniform []

end VisibilityWriter

end RowVault
