import Std.Data.ExtTreeMap
import RowVault.Row.Id

/-!
# Row keys

The rows of an index are kept in the order of their insertion keys, and rows of one key in the
order of their identities. Ordering on the bare key first keeps the rows of one key together,
whatever its length.
-/

namespace RowVault

/-- The place of a row in its index. -/
structure RowKey where
  key : Bytes
  identity : Bytes
  deriving DecidableEq, Repr

namespace RowKey

/-- Row keys compare by insertion key, then by identity. -/
instance : Ord RowKey := ⟨compareLex (compareOn RowKey.key) (compareOn RowKey.identity)⟩

/-- Comparing by key and then by identity is transitive. -/
instance : Std.TransOrd RowKey := inferInstanceAs (Std.TransCmp (compareLex _ _))

/-- A comparison of row keys is decided by the identities where the keys are equal. -/
theorem compare_def (a b : RowKey) :
    compare a b = (compare a.key b.key).then (compare a.identity b.identity) := rfl

/-- Only equal row keys compare as equal. -/
theorem eq_of_compare {a b : RowKey} (h : compare a b = .eq) : a = b := by
  rw [compare_def, Ordering.then_eq_eq] at h
  have hk := Std.LawfulEqOrd.eq_of_compare h.1
  have hi := Std.LawfulEqOrd.eq_of_compare h.2
  cases a
  cases b
  simp_all

/-- Row keys that compare as equal are equal. -/
instance : Std.LawfulEqOrd RowKey := ⟨eq_of_compare⟩

/-- The place of a row with a given encoding. -/
def ofRow (row : RowId) (raw : Bytes) : RowKey := ⟨row.key, RowId.identityOf raw⟩

/-- The place of an encoded row id, if it decodes. -/
def decode? (raw : Bytes) : Option RowKey :=
  match RowId.decode raw with
  | .ok row => some (ofRow row raw)
  | .error _ => none

/-- The least place of an insertion key. -/
def floor (key : Bytes) : RowKey := ⟨key, []⟩

end RowKey

end RowVault
