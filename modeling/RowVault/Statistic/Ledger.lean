import RowVault.Signal
import RowVault.Statistic.Totals

/-!
# The statistics ledger

A ledger is a statistics store with the changes that the store has refused for now. They are handed
in again when work on an adapter begins. A tally collects the changes of one adapter's statistics
while entries come and go, and hands them to the ledger once, at the latest when it is closed.

A change that the store refuses for now is parked; a change that it rejects is reported and dropped.
-/

namespace RowVault

/-- A change that waits for the store. -/
structure ParkedDelta where
  adapter : Bytes
  delta : Statistic
  deriving DecidableEq

/-- A statistics store and the changes that wait for it, in the order in which they were parked. -/
structure Ledger where
  store : StatisticsStore := {}
  backlog : List ParkedDelta := []

namespace Ledger

/-- Hand a change to the store, and park it if the store refuses it for now. -/
def applyOrPark (l : Ledger) (adapter : Bytes) (delta : Statistic) :
    Except StatisticsError Unit × Ledger :=
  match l.store.apply ⟨⟨adapter, delta.kind⟩, delta⟩ with
  | (.ok (), store) => (.ok (), { l with store })
  | (.error (.unavailable reason), store) =>
    (.error (.unavailable reason), { store, backlog := l.backlog ++ [⟨adapter, delta⟩] })
  | (.error (.kindMismatch expected found), store) =>
    (.error (.kindMismatch expected found), { l with store })

/-- Hand parked changes in again, one after the other. -/
def retryEach (l : Ledger) : List ParkedDelta → Traced Ledger
  | [] => pure l
  | p :: rest =>
    match l.applyOrPark p.adapter p.delta with
    | (.error (.kindMismatch expected found), l) => do
      .log [⟨.error, "parked statistic rejected on retry; dropping it",
        [("adapter", p.adapter.display),
          ("error", (StatisticsError.kindMismatch expected found).message)]⟩]
      .notify (.statisticsFlushFailed p.adapter)
      l.retryEach rest
    | (_, l) => l.retryEach rest

/-- Hand all parked changes in again. Those that are refused once more stay parked. -/
def retryBacklog (l : Ledger) : Traced Ledger := do
  let l ← { l with backlog := [] }.retryEach l.backlog
  if l.backlog ≠ [] then
    .log [⟨.warn, "statistics store still refusing parked deltas",
      [("pending", toString l.backlog.length)]⟩]
  pure l

end Ledger

/-- The changes of one adapter's statistics, one for each kind. -/
structure Tally where
  adapter : Bytes
  deltas : List Statistic
  deriving DecidableEq

/-- What is left after a tally was handed in: the first error, and where things stand. -/
structure Flushed where
  error : Option StatisticsError
  ledger : Ledger
  tally : Tally

/-- The outcome of handing in changes one after the other. -/
structure HandedIn where
  applied : Nat
  error : Option StatisticsError
  ledger : Ledger

namespace Tally

/-- The tally of no entries. -/
def start (adapter : Bytes) (kinds : List StatisticKind) : Tally := ⟨adapter, kinds.map .empty⟩

/-- Begin a tally. Parked changes are handed in first. -/
def openOn (l : Ledger) (adapter : Bytes) (kinds : List StatisticKind) :
    Traced (Ledger × Tally) := do
  let l ← if l.backlog = [] then pure l else l.retryBacklog
  pure (l, start adapter kinds)

/-- One more entry. -/
def ingested (t : Tally) (info : EntryInfo) : Tally :=
  ⟨t.adapter, t.deltas.map (·.ingested info)⟩

/-- One entry less. -/
def deleted (t : Tally) (info : EntryInfo) : Tally :=
  ⟨t.adapter, t.deltas.map (·.deleted info)⟩

/-- Hand changes to a ledger; empty ones are passed over. -/
def handIn (adapter : Bytes) : Ledger → List Statistic → HandedIn
  | l, [] => ⟨0, none, l⟩
  | l, delta :: rest =>
    if delta.isEmpty then handIn adapter l rest
    else
      match l.applyOrPark adapter delta with
      | (.ok (), l) =>
        let r := handIn adapter l rest
        ⟨r.applied + 1, r.error, r.ledger⟩
      | (.error e, l) =>
        let r := handIn adapter l rest
        ⟨r.applied, some e, r.ledger⟩

/-- Hand the changes in and begin anew. -/
def flush (l : Ledger) (t : Tally) : Traced Flushed := do
  let r := handIn t.adapter l t.deltas
  if 0 < r.applied then .notify (.statisticsFlushed t.adapter r.applied)
  if r.error.isSome then .notify (.statisticsFlushFailed t.adapter)
  pure ⟨r.error, r.ledger, start t.adapter (t.deltas.map (·.kind))⟩

/-- Hand the changes in for the last time. A failure is logged; the rows stay as they are. -/
def close (l : Ledger) (t : Tally) : Traced Ledger := do
  let r ← t.flush l
  match r.error with
  | none => pure r.ledger
  | some e => do
    .log [⟨.error, "statistics flush failed; rows were kept",
      [("adapter", t.adapter.display), ("error", e.message)]⟩]
    pure r.ledger

end Tally

end RowVault
