import RowVault.Bytes

/-!
# Ranges and windows of insertion keys

A strategy names the keys that a query needs by ranges whose ends are inclusive and whose last end
also stands for all keys that begin with it. A scan walks windows, whose upper bound is exclusive.
The upper bound of the keys that begin with a byte string is `nextPrefix` of that string.

`KeyRange.coalesce` turns ranges in any order into windows in ascending order that share no key, so
that a scan over them meets each row once.
-/

namespace RowVault

/-- The least byte string above all that begin with the given one. There is none above the empty
string and above a string of the largest byte only. -/
def Bytes.nextPrefix : Bytes → Option Bytes
  | [] => none
  | b :: rest =>
    match nextPrefix rest with
    | some upper => some (b :: upper)
    | none => if b < 255 then some [b + 1] else none

/-- The keys from the first one to the last one and all that begin with the last one. -/
structure KeyRange where
  first : Bytes
  last : Bytes
  deriving DecidableEq, Repr

/-- The keys from a lower bound up to, but not including, an upper one, if there is one. -/
structure Window where
  lower : Bytes
  upper : Option Bytes
  deriving DecidableEq, Repr

namespace Window

/-- Whether a key lies in a window. -/
def holds (w : Window) (key : Bytes) : Bool :=
  decide (w.lower ≤ key) && w.upper.all fun upper ↦ decide (key < upper)

/-- The window of a single key. -/
def exactly (key : Bytes) : Window := ⟨key, some (key ++ [0])⟩

/-- The window of all keys that begin with a byte string. -/
def beginningWith (start : Bytes) : Window := ⟨start, start.nextPrefix⟩

/-- Whether a window overlaps or touches what starts at a key. -/
def reaches (w : Window) (key : Bytes) : Bool := w.upper.all fun upper ↦ decide (key ≤ upper)

/-- The later one of two upper bounds; no bound is the latest. -/
def laterBound : Option Bytes → Option Bytes → Option Bytes
  | some u, some v => some (if v ≤ u then u else v)
  | _, _ => none

/-- The window with its upper bound moved to the later one of two. -/
def extend (w : Window) (upper : Option Bytes) : Window := ⟨w.lower, laterBound w.upper upper⟩

end Window

namespace KeyRange

/-- Whether a range names a key. -/
def covers (r : KeyRange) (key : Bytes) : Bool :=
  decide (r.first ≤ key) && (decide (key ≤ r.last) || r.last.isPrefixOf key)

/-- Whether a range has one end only. -/
def isSingle (r : KeyRange) : Bool := r.first == r.last

/-- The window of a range. -/
def window (r : KeyRange) : Window := ⟨r.first, r.last.nextPrefix⟩

/-- A window followed by the windows of ranges, each joined to the window before it where the two
overlap or touch. -/
def join (w : Window) : List KeyRange → List Window
  | [] => [w]
  | r :: rest =>
    if w.reaches r.first then join (w.extend r.window.upper) rest
    else w :: join r.window rest

/-- The windows of ranges that are sorted by their first key. -/
def joinSorted : List KeyRange → List Window
  | [] => []
  | r :: rest => join r.window rest

/-- The windows of ranges, in ascending order and without common keys. -/
def coalesce (ranges : List KeyRange) : List Window :=
  joinSorted (ranges.mergeSort fun r s ↦ decide (r.first ≤ s.first))

end KeyRange

end RowVault
