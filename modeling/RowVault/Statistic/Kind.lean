import Std.Data.ExtTreeMap
import RowVault.Bytes.Lossy

/-!
# Kinds of statistic

An adapter's entries are counted, or the extents of one of their fields are collected. Kinds are
ordered: the count first, then the extents by field.
-/

namespace RowVault

/-- What a statistic is about. -/
inductive StatisticKind where
  | count
  | extent (field : Bytes)
  deriving DecidableEq, Repr

namespace StatisticKind

/-- The field that a kind is about, if it is about one. -/
def field? : StatisticKind → Option Bytes
  | count => none
  | extent field => some field

/-- A kind is known by its field. -/
theorem eq_of_field? : {k l : StatisticKind} → k.field? = l.field? → k = l
  | count, count, _ => rfl
  | extent _, extent _, h => congrArg extent (Option.some.inj h)

/-- The kind as messages show it. -/
def label : StatisticKind → String
  | count => "count"
  | extent field => s!"numeric_range({field.display})"

/-- Kinds are compared by their fields, the count first. -/
instance : Ord StatisticKind := ⟨compareOn field?⟩

/-- Comparing by fields is transitive. -/
instance : Std.TransOrd StatisticKind := inferInstanceAs (Std.TransCmp (compareOn field?))

/-- Kinds that compare as equal are equal. -/
instance : Std.LawfulEqOrd StatisticKind where
  eq_of_compare h := eq_of_field? (Std.LawfulEqOrd.eq_of_compare (α := Option Bytes) h)

end StatisticKind

end RowVault
