import RowVault.Store.Scan

/-!
# Deletion

All visible rows of one entry are removed from one index, or every entry of which a query yields a
row, with all of its rows. The statistics of each adapter are collected in a tally of their own and
take back every removed entry once for each index.
-/

namespace RowVault

/-- What has come of a deletion. -/
structure Deleted (T : Type) where
  /-- The number of entries removed, counted once for each index. -/
  entries : Nat
  store : Store T

/-- An entry that is to be removed from an index. -/
structure Victim (T : Type) where
  index : Bytes
  filing : Filing T

/-- Whether two victims are the same filing in the same index. -/
def Victim.same {T : Type} (v w : Victim T) : Bool :=
  v.index == w.index && v.filing.number == w.filing.number

/-- The victims of each adapter, in the order in which they were found. -/
abbrev Doomed (T : Type) := Std.ExtTreeMap Bytes (List (Victim T))

/-- Note the filing of a row that a query yields, unless it is known. -/
def Doomed.note {T : Type} (known : List (Victim T) × Doomed T) (h : Hit T) :
    List (Victim T) × Doomed T :=
  let victim : Victim T := ⟨h.index, h.row.filing⟩
  if known.1.any victim.same then known
  else
    let adapter := h.row.row.id.adapter
    (victim :: known.1, known.2.insert adapter (known.2.getD adapter [] ++ [victim]))

/-- The victims of the rows that a query yields, by adapter. -/
def Doomed.ofHits {T : Type} (hits : List (Hit T)) : List (Bytes × List (Victim T)) :=
  (hits.foldl note ([], (∅ : Std.ExtTreeMap Bytes (List (Victim T))))).2.toList

/-- How far a deletion has come. -/
structure Deletion (T : Type) where
  rows : Std.ExtTreeMap Bytes (RowSet T)
  tally : Tally
  entries : Nat

namespace Deletion

variable {T : Type}

/-- Remove a victim, if it still has rows. -/
def remove (d : Deletion T) (v : Victim T) : Traced (Deletion T) :=
  match d.rows[v.index]? with
  | none => pure d
  | some rows =>
    let removed := rows.removeFiling v.filing
    if 0 < removed.2 then do
      .notify (.rowsRemoved v.index removed.2)
      pure ⟨d.rows.insert v.index removed.1, d.tally.deleted v.filing.info, d.entries + 1⟩
    else pure d

/-- Remove victims, one after the other. -/
def removeEach (d : Deletion T) : List (Victim T) → Traced (Deletion T)
  | [] => pure d
  | v :: rest => do
    let d ← d.remove v
    d.removeEach rest

end Deletion

namespace Store

variable {T : Type}

/-- Remove the victims of adapters, each adapter with a tally of its own. -/
def removeDoomed (s : Store T) (entries : Nat) :
    List (Bytes × List (Victim T)) → Traced (Deleted T)
  | [] => pure ⟨entries, s⟩
  | (adapter, victims) :: rest => do
    let (ledger, tally) ← Tally.openOn s.ledger adapter (s.kindsOf adapter)
    let d ← Deletion.removeEach ⟨s.rows, tally, entries⟩ victims
    let ledger ← d.tally.close ledger
    { s with rows := d.rows, ledger }.removeDoomed d.entries rest

/-- Remove every entry of which a query yields a row. -/
def delete (s : Store T) (q : Query) (options : QueryOptions) : Traced (Deleted T) := do
  let hits ← s.query q options
  s.removeDoomed 0 (Doomed.ofHits hits)

/-- The visible rows among those that come from an adapter's entry with a data id. -/
def visibleRowsOf (data adapter : Bytes) (labels : Labels) :
    List (StoredRow T) → Traced (List (StoredRow T))
  | [] => pure []
  | r :: rest =>
    if r.belongsTo data adapter then do
      let visible ← r.decideVisible labels
      let more ← visibleRowsOf data adapter labels rest
      pure (if visible then r :: more else more)
    else visibleRowsOf data adapter labels rest

/-- Remove rows by place, and note the filings of those that were there. -/
def erasePlaces : RowSet T → List (Filing T) → List RowKey → RowSet T × List (Filing T) × Nat
  | rows, filings, [] => (rows, filings, 0)
  | rows, filings, place :: rest =>
    match rows[place]? with
    | none => erasePlaces rows filings rest
    | some stored =>
      let erased := erasePlaces (rows.erase place) (RowSet.noteFiling stored.filing filings) rest
      (erased.1, erased.2.1, erased.2.2 + 1)

/-- Remove the visible rows that come from an adapter's entry with a data id from an index, and tell
whether there were any. -/
def deleteEntry (s : Store T) (index data adapter : Bytes) (labels : Labels) :
    Traced (Bool × Store T) := do
  let rows := s.rowsOf index
  let doomed ← visibleRowsOf data adapter labels rows.all
  if doomed.isEmpty then pure (false, s)
  else do
    let (ledger, tally) ← Tally.openOn s.ledger adapter (s.kindsOf adapter)
    let erased := erasePlaces rows [] (doomed.map (·.place))
    .notify (.rowsRemoved index erased.2.2)
    let ledger ← (erased.2.1.foldl (fun t f ↦ t.deleted f.info) tally).close ledger
    pure (decide (0 < erased.2.2), { s with rows := s.rows.insert index erased.1, ledger })

end Store

end RowVault
