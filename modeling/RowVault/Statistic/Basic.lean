import RowVault.Entry.Info
import RowVault.Error
import RowVault.Statistic.Kind

/-!
# Statistics

A statistic is a total or a signed change of one; both are merged in the same way, and the order of
merging does not matter as long as no number leaves its range. A count is a 64-bit integer that
stops at either end. An extent collects every lower and every upper bound of a field's intervals
with its multiplicity, so that a deletion takes back exactly what the matching ingest has added.
Multiplicities are kept in the total order of bit patterns, and a multiplicity of zero is not kept.
-/

namespace RowVault

/-- The nearest 64-bit signed integer. -/
def saturate (n : Int) : Int := max (-0x8000000000000000) (min 0x7FFFFFFFFFFFFFFF n)

/-- How often each bit pattern occurs, by its key in the total order. -/
abbrev Multiplicities := Std.ExtTreeMap UInt64 Int

namespace Multiplicities

/-- The multiplicity of a number. -/
def get (m : Multiplicities) (x : Binary64) : Int := m.getD x.orderKey 0

/-- Change the multiplicity of a number. -/
def bump (m : Multiplicities) (x : Binary64) (delta : Int) : Multiplicities :=
  if saturate (m.get x + delta) = 0 then m.erase x.orderKey
  else m.insert x.orderKey (saturate (m.get x + delta))

/-- Add all multiplicities of the second one to the first. -/
def merge (m n : Multiplicities) : Multiplicities :=
  n.toList.foldl (fun m (key, delta) ↦ m.bump (.ofOrderKey key) delta) m

/-- The first number that occurs. -/
def least? (m : Multiplicities) : Option Binary64 :=
  (m.toList.find? fun (_, n) ↦ decide (0 < n)).map fun (key, _) ↦ .ofOrderKey key

/-- The last number that occurs. -/
def greatest? (m : Multiplicities) : Option Binary64 :=
  (m.toList.reverse.find? fun (_, n) ↦ decide (0 < n)).map fun (key, _) ↦ .ofOrderKey key

/-- Nothing occurs at first. -/
theorem get_empty (x : Binary64) : get ∅ x = 0 := Std.ExtTreeMap.getD_empty

/-- A change concerns one number only. -/
theorem get_bump (m : Multiplicities) (x y : Binary64) (delta : Int) :
    (m.bump x delta).get y = if x = y then saturate (m.get x + delta) else m.get y := by
  unfold bump
  have e : compare x.orderKey y.orderKey = .eq ↔ x = y := by
    rw [Std.LawfulEqOrd.compare_eq_iff_eq, Binary64.orderKey_inj]
  split
  · next hz =>
    rw [hz]
    simp only [get, Std.ExtTreeMap.getD_erase, e]
  · simp only [get, Std.ExtTreeMap.getD_insert, e]

end Multiplicities

/-- The bounds of a field's intervals. -/
structure Extent where
  field : Bytes
  mins : Multiplicities := ∅
  maxes : Multiplicities := ∅
  deriving DecidableEq

namespace Extent

/-- The least lower bound. -/
def min? (e : Extent) : Option Binary64 := e.mins.least?

/-- The greatest upper bound. -/
def max? (e : Extent) : Option Binary64 := e.maxes.greatest?

/-- The interval from the least lower bound to the greatest upper bound. -/
def range? (e : Extent) : Option NumericRange :=
  match e.min?, e.max? with
  | some min, some max => some ⟨min, max⟩
  | _, _ => none

/-- Change the multiplicity of an interval. -/
def bump (e : Extent) (r : NumericRange) (delta : Int) : Extent :=
  ⟨e.field, e.mins.bump r.min delta, e.maxes.bump r.max delta⟩

end Extent

/-- Why a statistic was not merged. -/
inductive StatisticsError where
  | kindMismatch (expected found : StatisticKind)
  | unavailable (reason : String)
  deriving DecidableEq, Repr

namespace StatisticsError

/-- The text of an error. -/
def message : StatisticsError → String
  | kindMismatch expected found =>
    s!"statistic kind mismatch: expected {expected.label}, found {found.label}"
  | unavailable reason => s!"statistics store unavailable: {reason}"

/-- A mismatch breaks an invariant; a store that is unavailable is an internal matter. -/
def toFailure (e : StatisticsError) : Failure :=
  match e with
  | kindMismatch _ _ => ⟨.invariantViolation, .statistics, e.message⟩
  | unavailable _ => ⟨.internal, .statistics, e.message⟩

end StatisticsError

/-- A total or a change of one. -/
inductive Statistic where
  | count (n : Int)
  | extent (e : Extent)
  deriving DecidableEq

namespace Statistic

/-- The statistic of no entries. -/
def empty : StatisticKind → Statistic
  | .count => count 0
  | .extent field => extent { field }

/-- What a statistic is about. -/
def kind : Statistic → StatisticKind
  | count _ => .count
  | extent e => .extent e.field

/-- Whether merging the statistic changes nothing. -/
def isEmpty : Statistic → Bool
  | count n => n == 0
  | extent e => e.mins.isEmpty && e.maxes.isEmpty

/-- Change a statistic by an entry: one more for `1`, one less for `-1`. -/
def observe (sign : Int) (info : EntryInfo) : Statistic → Statistic
  | count n => count (saturate (n + sign))
  | extent e =>
    match (info.value? e.field).bind (·.numericRange?) with
    | some r => extent (e.bump r sign)
    | none => extent e

/-- The statistic with one more entry. -/
def ingested (info : EntryInfo) (s : Statistic) : Statistic := s.observe 1 info

/-- The statistic with one entry less. -/
def deleted (info : EntryInfo) (s : Statistic) : Statistic := s.observe (-1) info

/-- The sum of two statistics of one kind. -/
def merge : Statistic → Statistic → Except StatisticsError Statistic
  | count m, count n => .ok (count (saturate (m + n)))
  | extent d, extent e =>
    if d.field = e.field then .ok (extent ⟨d.field, d.mins.merge e.mins, d.maxes.merge e.maxes⟩)
    else .error (.kindMismatch (.extent d.field) (.extent e.field))
  | count _, extent e => .error (.kindMismatch .count (.extent e.field))
  | extent e, count _ => .error (.kindMismatch (.extent e.field) .count)

/-- The statistic of no entries is of the kind asked for. -/
@[simp] theorem kind_empty (k : StatisticKind) : (empty k).kind = k := by
  cases k <;> rfl

/-- Observing an entry keeps the kind. -/
@[simp] theorem kind_observe (sign : Int) (info : EntryInfo) (s : Statistic) :
    (s.observe sign info).kind = s.kind := by
  cases s with
  | count n => rfl
  | extent e =>
    unfold observe
    dsimp only
    split <;> rfl

/-- Statistics are merged exactly if they are of one kind. -/
theorem merge_eq_error_iff {s t : Statistic} {e : StatisticsError} :
    s.merge t = .error e ↔ s.kind ≠ t.kind ∧ e = .kindMismatch s.kind t.kind := by
  cases s <;> cases t <;> simp [merge, kind, eq_comm]
  split <;> simp_all

/-- The sum is of the same kind. -/
theorem kind_of_merge {s t u : Statistic} (h : s.merge t = .ok u) : u.kind = s.kind := by
  cases s <;> cases t <;> simp only [merge] at h
  · cases h; rfl
  · cases h
  · cases h
  · split at h
    · cases h; rfl
    · cases h

end Statistic

end RowVault
