import RowVault.Query.Basic
import RowVault.Store.Basic

/-!
# Scans

A scan evaluates a query lazily, index by index. In an index it walks the rows in order, or, where
the strategy narrows the query to ranges, those in the windows of the ranges. Rows that are not
visible to the caller are passed over before any filter is asked; then the filters of the call are
asked, whose state lasts from index to index, and then those that the query made for the index.

When a scan leaves an index, at its end or because the caller has stopped, the sink is told how many
rows it has met and yielded there, and how many were hidden. An index that is never reached is not
reported. Accepted rows are counted against the limit.
-/

namespace RowVault

/-- The scan of one index. -/
structure IndexScan (T : Type) where
  index : Index
  /-- The rows that are still to be met. -/
  ahead : List (StoredRow T)
  /-- The filters that the query made for the index. -/
  filters : List Filter
  scanned : Nat := 0
  hidden : Nat := 0
  yielded : Nat := 0

/-- A row that a scan yields. -/
structure Hit (T : Type) where
  index : Bytes
  row : StoredRow T

/-- Where the scan of an index stands after it has looked for a row. -/
structure Sought (T : Type) where
  row : Option (StoredRow T)
  scan : IndexScan T
  client : List Filter

/-- The windows to which a query narrows the scan of an index, if it does. -/
def Query.windows? (q : Query) (config : Config) (index : Index) : Option (List Window) :=
  if config.rangeScan then
    match q.constraints index.strategy with
    | none => none
    | some constraints =>
      match index.strategy.queryRanges constraints config.maxQueryRanges with
      | [] => none
      | range :: ranges => some (KeyRange.coalesce (range :: ranges))
  else none

/-- The rows that the scan of an index meets. -/
def Store.rowsFor {T : Type} (s : Store T) (q : Query) (index : Index) : List (StoredRow T) :=
  match q.windows? s.config index with
  | none => (s.rowsOf index.id).all
  | some windows => (s.rowsOf index.id).withinEach windows

namespace IndexScan

variable {T : Type}

/-- The scan of an index at its beginning. An index that the query does not support has no rows. -/
def start (s : Store T) (q : Query) (index : Index) : IndexScan T :=
  if q.supports index then { index, ahead := s.rowsFor q index, filters := q.filters index.model }
  else { index, ahead := [], filters := [] }

/-- Look for the next accepted row among the rows ahead, which are given once more. -/
def seek (labels : Labels) (scan : IndexScan T) (client : List Filter) :
    List (StoredRow T) → Traced (Sought T)
  | [] => pure ⟨none, { scan with ahead := [] }, client⟩
  | r :: rest => do
    let scan := { scan with ahead := rest, scanned := scan.scanned + 1 }
    if ← r.decideVisible labels then
      let row := DecodedRow.ofRow scan.index.model r.row.id r.filing.info.fields
      let (accepted, client) ← Filter.askEvery row client
      if accepted then
        let (accepted, filters) ← Filter.askEvery row scan.filters
        let scan := { scan with filters }
        if accepted then pure ⟨some r, { scan with yielded := scan.yielded + 1 }, client⟩
        else seek labels scan client rest
      else seek labels scan client rest
    else seek labels { scan with hidden := scan.hidden + 1 } client rest

/-- Tell the sink what the scan of an index has met. -/
def report (scan : IndexScan T) : Traced Unit := do
  .notify (.rowsScanned scan.index.id scan.scanned scan.yielded)
  if 0 < scan.hidden then .notify (.rowsHidden scan.index.id scan.hidden)

end IndexScan

/-- A scan over indices. -/
structure Scan (T : Type) where
  labels : Labels
  client : List Filter
  /-- How many rows may still be yielded, if there is a limit. -/
  remaining : Option Nat
  /-- The index that has been reached. -/
  current : Option (IndexScan T)
  /-- The indices that have not been reached. -/
  pending : List (IndexScan T)

namespace Scan

variable {T : Type}

/-- Look for the next row in an index and in those after it. -/
def walk (s : Scan T) (client : List Filter) (scan : IndexScan T) (pending : List (IndexScan T)) :
    Traced (Option (Hit T) × Scan T) := do
  let found ← scan.seek s.labels client scan.ahead
  match found.row with
  | some r =>
    pure (some ⟨scan.index.id, r⟩, { s with
      client := found.client
      remaining := s.remaining.map (· - 1)
      current := some found.scan
      pending })
  | none => do
    found.scan.report
    match pending with
    | [] => pure (none, { s with client := found.client, current := none, pending := [] })
    | next :: rest => s.walk found.client next rest

/-- The next row, if there is one and the limit is not reached. -/
def next (s : Scan T) : Traced (Option (Hit T) × Scan T) :=
  if s.remaining = some 0 then pure (none, s)
  else
    match s.current, s.pending with
    | some scan, pending => s.walk s.client scan pending
    | none, scan :: pending => s.walk s.client scan pending
    | none, [] => pure (none, s)

/-- The next rows, at most so many. -/
def pull (s : Scan T) : Nat → Traced (List (Hit T) × Scan T)
  | 0 => pure ([], s)
  | n + 1 => do
    match ← s.next with
    | (none, s) => pure ([], s)
    | (some hit, s) => do
      let (hits, s) ← s.pull n
      pure (hit :: hits, s)

/-- The number of rows that are still to be met. -/
def ahead (s : Scan T) : Nat := ((s.current.toList ++ s.pending).flatMap (·.ahead)).length

/-- Leave the index that has been reached. -/
def close (s : Scan T) : Traced Unit :=
  match s.current with
  | some scan => scan.report
  | none => pure ()

/-- The rows of a scan, all or the first ones; then the scan is closed. -/
def run (s : Scan T) (take : Option Nat := none) : Traced (List (Hit T)) := do
  let (hits, s) ← s.pull (take.getD (s.ahead + 1))
  s.close
  pure hits

end Scan

namespace Store

variable {T : Type}

/-- The indices that a call looks in, in order. An index that is not registered is logged. -/
def targets (s : Store T) (index : Option Bytes) : Traced (List Index) :=
  match index with
  | none => pure s.indices.values
  | some id =>
    match s.indices.find id with
    | .ok i => pure [i]
    | .error e => do
      .log [⟨.debug, "query targets an unknown index", [("error", e.message)]⟩]
      pure []

/-- The scan of a query at its beginning. -/
def scan (s : Store T) (q : Query) (options : QueryOptions) : Traced (Scan T) := do
  let indices ← s.targets options.index
  pure {
    labels := options.labels
    client := options.clientFilters
    remaining := options.effectiveLimit s.config.defaultLimit
    current := none
    pending := indices.map (IndexScan.start s q) }

/-- The rows of a query, all or the first ones. -/
def query (s : Store T) (q : Query) (options : QueryOptions) (take : Option Nat := none) :
    Traced (List (Hit T)) := do
  let scan ← s.scan q options
  scan.run take

end Store

end RowVault
