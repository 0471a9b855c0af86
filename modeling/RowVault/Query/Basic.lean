import RowVault.Query.Filter
import RowVault.Visibility.Formula

/-!
# Queries

A query says which indices it can be evaluated on, which filters rows must pass there, and which
constraints narrow a scan to ranges of insertion keys. The options of a call say whose rows are
asked for, in which index, how many, for whom, and which further filters apply.
-/

namespace RowVault

/-- A predicate over stored rows. -/
structure Query where
  supports : Index → Bool
  /-- Fresh filters for an index. -/
  filters : IndexModel → List Filter
  /-- The intervals that rows must meet, one per dimension; without any, all rows are scanned. -/
  constraints : Strategy → Option (List NumericRange) := fun _ ↦ none

/-- The query for all rows of all indices. -/
def Query.everything : Query where
  supports _ := true
  filters _ := []

/-- The scope of one call. -/
structure QueryOptions where
  /-- The adapters whose rows are wanted; none stands for all. -/
  adapters : List Bytes := []
  /-- The index to look in; without one, in all. -/
  index : Option Bytes := none
  limit : Option Nat := none
  labels : Labels := ∅
  filters : List Filter := []

namespace QueryOptions

/-- The limit of a call, or else the default one. A limit of zero is none. -/
def effectiveLimit (o : QueryOptions) (default : Option Nat) : Option Nat :=
  (o.limit.or default).filter (0 < ·)

/-- The filters of a call. The adapters come first. -/
def clientFilters (o : QueryOptions) : List Filter :=
  if o.adapters.isEmpty then o.filters else .adapters o.adapters :: o.filters

end QueryOptions

end RowVault
