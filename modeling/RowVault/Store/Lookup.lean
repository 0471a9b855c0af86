import RowVault.Store.Basic

/-!
# Lookups

An entry is found by the row id of one of its rows, by its data id and adapter, or by the bytes that
the ids of its rows begin with. Only rows that are visible to the caller are found. A row id begins
with its insertion key, so rows that begin with a byte string have a key that begins with it, or a
key that is shorter and begins the byte string.
-/

namespace RowVault

namespace StoredRow

variable {T : Type}

/-- The first visible row of a list that is wanted, and the rows behind it. -/
def nextVisible (labels : Labels) (wanted : StoredRow T → Bool) :
    List (StoredRow T) → Traced (Option (StoredRow T × List (StoredRow T)))
  | [] => pure none
  | r :: rest =>
    if wanted r then do
      if ← r.decideVisible labels then pure (some (r, rest)) else nextVisible labels wanted rest
    else nextVisible labels wanted rest

/-- The first visible rows of a list that are wanted, at most so many. -/
def takeVisible (labels : Labels) (wanted : StoredRow T → Bool) :
    Nat → List (StoredRow T) → Traced (List (StoredRow T))
  | 0, _ => pure []
  | n + 1, rows => do
    match ← nextVisible labels wanted rows with
    | none => pure []
    | some (r, rest) => do
      let more ← takeVisible labels wanted n rest
      pure (r :: more)

end StoredRow

/-- The windows of keys of row ids that begin with a byte string: its proper prefixes, in ascending
order, and the keys that begin with it. -/
def Window.ofRowIdStart (start : Bytes) : List Window :=
  ((List.range start.length).map fun n ↦ exactly (start.take n)) ++ [beginningWith start]

namespace Store

variable {T : Type}

/-- The entry whose row has exactly this row id. -/
def getByRowId (s : Store T) (index raw : Bytes) (labels : Labels) : Traced (Option T) :=
  match RowKey.decode? raw with
  | none => pure none
  | some place =>
    match (s.rowsOf index)[place]? with
    | none => pure none
    | some r =>
      if r.row.raw = raw then do
        if ← r.decideVisible labels then pure (some r.filing.entry) else pure none
      else pure none

/-- The entry of the first visible row that comes from an adapter's entry with a data id. -/
def getEntry (s : Store T) (index data adapter : Bytes) (labels : Labels) : Traced (Option T) := do
  let found ← StoredRow.nextVisible labels (·.belongsTo data adapter) (s.rowsOf index).all
  pure (found.map fun (r, _) ↦ r.filing.entry)

/-- The rows among which those with row ids of a given beginning are. -/
def rowsBeginning (s : Store T) (index start : Bytes) : List (StoredRow T) :=
  (s.rowsOf index).withinEach (Window.ofRowIdStart start)

/-- The entries of visible rows whose row id begins with a byte string: all, or the first ones. -/
def entriesBeginning (s : Store T) (index start : Bytes) (labels : Labels)
    (take : Option Nat := none) : Traced (List T) := do
  let rows := s.rowsBeginning index start
  let found ← StoredRow.takeVisible labels (start.isPrefixOf ·.row.raw)
    (take.getD (rows.length + 1)) rows
  pure (found.map (·.filing.entry))

end Store

end RowVault
