import RowVault.Statistic.Basic

/-!
# Statistics stores

A statistics store keeps a total for each adapter and kind, and merges the changes that it is
handed. The totals themselves refuse only a change of another kind. The host decides on each call
whether the change is merged, refused for now, or rejected; it may look at the calls before. The
store remembers the calls, and a call that is not merged changes no total.
-/

namespace RowVault

/-- What a total belongs to. -/
structure StatisticKey where
  adapter : Bytes
  kind : StatisticKind
  deriving DecidableEq, Repr

namespace StatisticKey

/-- Keys compare by adapter, then by kind. -/
instance : Ord StatisticKey := ⟨compareLex (compareOn adapter) (compareOn kind)⟩

/-- Comparing by adapter and then by kind is transitive. -/
instance : Std.TransOrd StatisticKey := inferInstanceAs (Std.TransCmp (compareLex _ _))

/-- A comparison of keys is decided by the kinds where the adapters are equal. -/
theorem compare_def (a b : StatisticKey) :
    compare a b = (compare a.adapter b.adapter).then (compare a.kind b.kind) := rfl

/-- Only equal keys compare as equal. -/
theorem eq_of_compare {a b : StatisticKey} (h : compare a b = .eq) : a = b := by
  rw [compare_def, Ordering.then_eq_eq] at h
  have ha := Std.LawfulEqOrd.eq_of_compare h.1
  have hk := Std.LawfulEqOrd.eq_of_compare h.2
  cases a
  cases b
  simp_all

/-- Keys that compare as equal are equal. -/
instance : Std.LawfulEqOrd StatisticKey := ⟨eq_of_compare⟩

end StatisticKey

/-- A change that is handed to a store. -/
structure StatisticCall where
  key : StatisticKey
  delta : Statistic
  deriving DecidableEq

/-- The totals of a store. -/
abbrev Totals := Std.ExtTreeMap StatisticKey Statistic

/-- The totals with one more change. The first change of a key starts from nothing. -/
def Totals.merge (t : Totals) (c : StatisticCall) : Except StatisticsError Totals :=
  if c.delta.kind = c.key.kind then
    ((t.getD c.key (.empty c.key.kind)).merge c.delta).map fun total ↦ t.insert c.key total
  else .error (.kindMismatch c.key.kind c.delta.kind)

/-- What a host makes of a call. -/
inductive Verdict where
  | merge
  /-- Not now; the change may be handed in again. -/
  | refuse (reason : String)
  | reject (expected found : StatisticKind)
  deriving DecidableEq, Repr

/-- Totals under the control of a host. -/
structure StatisticsStore where
  totals : Totals := ∅
  /-- The calls so far, last first. -/
  calls : List StatisticCall := []
  verdict : (before : List StatisticCall) → StatisticCall → Verdict := fun _ _ ↦ .merge

namespace StatisticsStore

/-- Hand a change to the store. -/
def apply (s : StatisticsStore) (c : StatisticCall) :
    Except StatisticsError Unit × StatisticsStore :=
  match s.verdict s.calls c with
  | .refuse reason => (.error (.unavailable reason), { s with calls := c :: s.calls })
  | .reject expected found =>
    (.error (.kindMismatch expected found), { s with calls := c :: s.calls })
  | .merge =>
    match s.totals.merge c with
    | .ok totals => (.ok (), { s with totals, calls := c :: s.calls })
    | .error e => (.error e, { s with calls := c :: s.calls })

/-- The total of an adapter and a kind, if there has been a change. -/
def get? (s : StatisticsStore) (adapter : Bytes) (kind : StatisticKind) : Option Statistic :=
  s.totals[(⟨adapter, kind⟩ : StatisticKey)]?

/-- All totals with their adapters, ordered by adapter and kind. -/
def all (s : StatisticsStore) : List (Bytes × Statistic) :=
  s.totals.toList.map fun (key, total) ↦ (key.adapter, total)

end StatisticsStore

end RowVault
