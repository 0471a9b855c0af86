import RowVault.Bytes
import RowVault.Binary64

/-!
# Field values

A field holds one of eight kinds of value. Equality of `Value` is equality of bits; `Value.same`
is numeric equality, under which a value that holds a NaN differs from itself. Numbers and
ranges have an extent on the number line, which statistics and range filters look at.
-/

namespace RowVault

/-- A closed interval of numbers. Nothing is asked of the order of its ends. -/
structure NumericRange where
  min : Binary64
  max : Binary64
  deriving DecidableEq, Repr

namespace NumericRange

/-- The interval of one number. -/
def point (x : Binary64) : NumericRange := ⟨x, x⟩

/-- The middle of the interval. -/
def centroid (r : NumericRange) : Binary64 := r.min.mean r.max

/-- Two intervals meet if each begins no later than the other ends. -/
def intersects (r s : NumericRange) : Bool := r.min.atMost s.max && s.min.atMost r.max

/-- Numeric equality of both ends. -/
def same (r s : NumericRange) : Bool := r.min.same s.min && r.max.same s.max

end NumericRange

/-- The value of a field. -/
inductive Value where
  | null
  | bool (b : Bool)
  | int (n : Int64)
  | uint (n : UInt64)
  | float (x : Binary64)
  | text (s : String)
  | blob (bytes : Bytes)
  | range (r : NumericRange)
  deriving DecidableEq, Repr

namespace Value

/-- Whether a value is the null value. -/
def isNull : Value → Bool
  | null => true
  | _ => false

/-- The interval that a number or a range covers. -/
def numericRange? : Value → Option NumericRange
  | int n => some (.point (.ofInt n.toInt))
  | uint n => some (.point (.ofNat n.toNat))
  | float x => some (.point x)
  | range r => some r
  | null | bool _ | text _ | blob _ => none

/-- The text of a text value. -/
def text? : Value → Option String
  | text s => some s
  | _ => none

/-- Equality in which floating-point parts are compared numerically. -/
def same : Value → Value → Bool
  | float x, float y => x.same y
  | range r, range s => r.same s
  | v, w => v == w

end Value

/-- A value with the identifier of the field it belongs to. -/
structure FieldValue where
  field : Bytes
  value : Value
  deriving DecidableEq, Repr

end RowVault
