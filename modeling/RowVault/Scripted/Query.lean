import RowVault.Query.Basic

/-!
# Queries and filters given by data

A condition looks at a single decoded row. It serves as a filter of the host, which remembers
nothing.
-/

namespace RowVault.Scripted

/-- A condition on decoded rows. -/
inductive Condition where
  | constant (b : Bool)
  /-- The row has this common field. -/
  | common (field : Bytes)
  /-- The row has this extended field. -/
  | extended (field : Bytes)
  | duplicates (n : Int)
  /-- The insertion key begins like this. -/
  | keyStart (start : Bytes)
  /-- The interval of a common field overlaps the given one, with more than an end in common. -/
  | overlaps (field : Bytes) (min max : Binary64)
  deriving DecidableEq, Repr

namespace Condition

/-- Whether a row meets a condition. -/
def holds (row : DecodedRow) : Condition → Bool
  | constant b => b
  | common field => (row.common.get? field).isSome
  | extended field => (row.extended.get? field).isSome
  | duplicates n => row.duplicates.toInt == n
  | keyStart start => start.isPrefixOf row.key
  | overlaps field min max =>
    match (row.common.get? field).bind (·.numericRange?) with
    | none => false
    | some r => !(max.atMost r.min || r.max.below min)

/-- The filter of a condition. -/
def filter (c : Condition) : Filter := .host (fun _ row ↦ c.holds row) []

end Condition

/-- A query on some indices, or on all, with fresh filters and fixed constraints. -/
def query (supported : Option (List Bytes)) (filters : List Filter)
    (constraints : Option (List NumericRange)) : Query where
  supports index := supported.all (·.contains index.id)
  filters _ := filters
  constraints _ := constraints

end RowVault.Scripted
