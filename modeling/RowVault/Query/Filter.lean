import RowVault.Entry.Decode
import RowVault.Signal

/-!
# Row filters

A filter is asked about decoded rows, one after the other, and may change with each. A filter of the
host answers by the rows that it has been shown before and the row at hand, which is all that a
deterministic filter with a state of its own can depend on.

Deduplication lets the first row of each entry pass among rows that have duplicates; rows without
duplicates, or that opt out, always pass.
-/

namespace RowVault

/-- A filter with its state. -/
inductive Filter where
  /-- Rows of these adapters. -/
  | adapters (ids : List Bytes)
  /-- Rows of entries with these data ids. -/
  | entries (ids : List Bytes)
  /-- One row of each entry; the entries whose row has passed, last first. -/
  | dedupe (passed : List (Bytes × Bytes))
  /-- Rows that every filter accepts, asked in order up to the first that does not. -/
  | every (filters : List Filter)
  /-- A filter of the host, and the rows that it has been shown, last first. -/
  | host (accepts : List DecodedRow → DecodedRow → Bool) (shown : List DecodedRow)

namespace Filter

mutual

/-- Whether a filter accepts a row, and the filter afterwards. -/
def ask (row : DecodedRow) : Filter → Traced (Bool × Filter)
  | adapters ids => pure (ids.contains row.adapter, adapters ids)
  | entries ids => pure (ids.contains row.data, entries ids)
  | dedupe passed =>
    if row.duplicates ≤ 0 then pure (true, dedupe passed)
    else if passed.contains (row.adapter, row.data) then pure (false, dedupe passed)
    else pure (true, dedupe ((row.adapter, row.data) :: passed))
  | every filters => do
    let (accepted, filters) ← askEvery row filters
    pure (accepted, every filters)
  | host accepts shown => do
    .tell [.question]
    pure (accepts shown row, host accepts (row :: shown))

/-- Whether every filter of a list accepts a row, and the filters afterwards. Filters behind the
first that does not accept are not asked. -/
def askEvery (row : DecodedRow) : List Filter → Traced (Bool × List Filter)
  | [] => pure (true, [])
  | f :: rest => do
    let (accepted, f) ← ask row f
    if accepted then
      let (accepted, rest) ← askEvery row rest
      pure (accepted, f :: rest)
    else pure (false, f :: rest)

end

end Filter

end RowVault
