import RowVault.Bytes.Lossy
import RowVault.Log

/-!
# Events

What happens to rows, entries and statistics is told to a sink as events. Every event also has a
record for the log. A report adds events up; its counters stop at the largest 64-bit number.
-/

namespace RowVault

/-- Something that happened in a store. -/
inductive Event where
  | rowsInserted (index : Bytes) (rows : Nat)
  | rowsRemoved (index : Bytes) (rows : Nat)
  | rowsScanned (index : Bytes) (scanned yielded : Nat)
  | rowsHidden (index : Bytes) (rows : Nat)
  | entryUnindexable (adapter data : Bytes)
  | fieldSkipped (adapter field : Bytes)
  | statisticsFlushed (adapter : Bytes) (statistics : Nat)
  | statisticsFlushFailed (adapter : Bytes)
  deriving DecidableEq, Repr

/-- The record of an event in the log. -/
def Event.logRecord : Event → LogRecord
  | rowsInserted index rows =>
    ⟨.debug, "rows inserted", [("index", index.display), ("rows", toString rows)]⟩
  | rowsRemoved index rows =>
    ⟨.debug, "rows removed", [("index", index.display), ("rows", toString rows)]⟩
  | rowsScanned index scanned yielded =>
    ⟨.debug, "scan finished",
      [("index", index.display), ("rows_scanned", toString scanned),
        ("rows_yielded", toString yielded)]⟩
  | rowsHidden index rows =>
    ⟨.debug, "rows hidden by visibility", [("index", index.display), ("rows", toString rows)]⟩
  | entryUnindexable adapter data =>
    ⟨.debug, "entry unindexable", [("adapter", adapter.display), ("data_id", data.display)]⟩
  | fieldSkipped adapter field =>
    ⟨.debug, "field skipped", [("adapter", adapter.display), ("field", field.display)]⟩
  | statisticsFlushed adapter statistics =>
    ⟨.debug, "statistics flushed",
      [("adapter", adapter.display), ("statistics", toString statistics)]⟩
  | statisticsFlushFailed adapter =>
    ⟨.debug, "statistics flush failed", [("adapter", adapter.display)]⟩

/-- The sums of what events tell. -/
structure Report where
  rowsInserted : Nat := 0
  rowsRemoved : Nat := 0
  rowsScanned : Nat := 0
  rowsYielded : Nat := 0
  rowsHidden : Nat := 0
  entriesUnindexable : Nat := 0
  fieldsSkipped : Nat := 0
  statisticsFlushed : Nat := 0
  statisticsFlushFailures : Nat := 0
  deriving DecidableEq, Repr

namespace Report

/-- The largest value of a counter. -/
def counterMax : Nat := UInt64.size - 1

/-- A sum that stops at the largest value of a counter. -/
def count (m n : Nat) : Nat := min (m + n) counterMax

/-- The report with one more event. -/
def record (r : Report) : Event → Report
  | .rowsInserted _ n => { r with rowsInserted := count r.rowsInserted n }
  | .rowsRemoved _ n => { r with rowsRemoved := count r.rowsRemoved n }
  | .rowsScanned _ scanned yielded =>
    { r with
      rowsScanned := count r.rowsScanned scanned
      rowsYielded := count r.rowsYielded yielded }
  | .rowsHidden _ n => { r with rowsHidden := count r.rowsHidden n }
  | .entryUnindexable _ _ => { r with entriesUnindexable := count r.entriesUnindexable 1 }
  | .fieldSkipped _ _ => { r with fieldsSkipped := count r.fieldsSkipped 1 }
  | .statisticsFlushed _ n => { r with statisticsFlushed := count r.statisticsFlushed n }
  | .statisticsFlushFailed _ =>
    { r with statisticsFlushFailures := count r.statisticsFlushFailures 1 }

/-- The counters by name, in the order of their names. -/
def counters (r : Report) : List (String × Nat) :=
  [("entries_unindexable", r.entriesUnindexable),
    ("fields_skipped", r.fieldsSkipped),
    ("rows_hidden", r.rowsHidden),
    ("rows_inserted", r.rowsInserted),
    ("rows_removed", r.rowsRemoved),
    ("rows_scanned", r.rowsScanned),
    ("rows_yielded", r.rowsYielded),
    ("statistics_flush_failures", r.statisticsFlushFailures),
    ("statistics_flushed", r.statisticsFlushed)]

end Report

end RowVault
