import RowVault.Statistic.Ledger

/-!
# Statistics given by data

A statistics store may be down for all changes or for some kinds, or reject every change. A session
is a tally that is opened on a ledger, runs through some steps and is closed; it may fail on the
way, and is closed all the same.
-/

namespace RowVault.Scripted

/-- How a statistics store behaves. -/
inductive Availability where
  | up
  | down
  | downForCounts
  | downForExtents
  | rejecting
  deriving DecidableEq, Repr

/-- What a store makes of a call. -/
def Availability.verdict (a : Availability) (c : StatisticCall) : Verdict :=
  match a, c.key.kind with
  | up, _ => .merge
  | down, _ => .refuse "offline"
  | downForCounts, .count => .refuse "count offline"
  | downForCounts, .extent _ => .merge
  | downForExtents, .count => .merge
  | downForExtents, .extent _ => .refuse "range offline"
  | rejecting, kind => .reject kind c.delta.kind

/-- The ledger whose store behaves in a given way from now on. -/
def setAvailability (l : Ledger) (a : Availability) : Ledger :=
  { l with store := { l.store with verdict := fun _ c ↦ a.verdict c } }

/-- The entry of a list of fields, without rows. -/
def entryOf (fields : List FieldValue) : EntryInfo := ⟨[], fields.map (⟨·, [], []⟩)⟩

/-- The statistic of entries that came and entries that went. -/
def statisticOf (kind : StatisticKind) (ingested deleted : List (List FieldValue)) : Statistic :=
  deleted.foldl (fun s fields ↦ s.deleted (entryOf fields))
    (ingested.foldl (fun s fields ↦ s.ingested (entryOf fields)) (.empty kind))

/-- Merge a statistic into another one a number of times; the first failure ends it. -/
def mergeTimes (into other : Statistic) : Nat → Except StatisticsError Statistic
  | 0 => .ok into
  | n + 1 =>
    match into.merge other with
    | .ok s => mergeTimes s other n
    | .error e => .error e

/-- Merge a statistic into itself a number of times; the first failure ends it. -/
def doubleTimes (s : Statistic) : Nat → Except StatisticsError Statistic
  | 0 => .ok s
  | n + 1 =>
    match s.merge s with
    | .ok s => doubleTimes s n
    | .error e => .error e

/-- A step of a session. -/
inductive SessionStep where
  | ingest (fields : List FieldValue)
  | delete (fields : List FieldValue)
  | flush
  | become (availability : Availability)
  /-- The session fails here. -/
  | fail
  deriving DecidableEq, Repr

/-- Where a session stands. -/
structure Session where
  ledger : Ledger
  tally : Tally
  /-- What came of each flush that was asked for. -/
  flushes : List (Option StatisticsError) := []
  failed : Bool := false

namespace Session

/-- Run through steps up to a failure. -/
def run (s : Session) : List SessionStep → Traced Session
  | [] => pure s
  | .ingest fields :: rest => { s with tally := s.tally.ingested (entryOf fields) }.run rest
  | .delete fields :: rest => { s with tally := s.tally.deleted (entryOf fields) }.run rest
  | .become availability :: rest =>
    { s with ledger := setAvailability s.ledger availability }.run rest
  | .fail :: _ => pure { s with failed := true }
  | .flush :: rest => do
    let f ← s.tally.flush s.ledger
    { s with ledger := f.ledger, tally := f.tally, flushes := s.flushes ++ [f.error] }.run rest

/-- Open a session, run through its steps and close it. -/
def perform (l : Ledger) (adapter : Bytes) (kinds : List StatisticKind) (steps : List SessionStep) :
    Traced Session := do
  let (ledger, tally) ← Tally.openOn l adapter kinds
  let s ← run { ledger, tally } steps
  let ledger ← s.tally.close s.ledger
  pure { s with ledger }

end Session

end RowVault.Scripted
