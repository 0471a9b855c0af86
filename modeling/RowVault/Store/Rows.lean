import RowVault.Entry.Info
import RowVault.Key.Window
import RowVault.Signal
import RowVault.Visibility.Decision

/-!
# The rows of an index

An entry is filed in an index under a number that no other filing of the store has. Each of its rows
is stored with the filing, so that rows of one entry are told from rows of another one with the same
contents. A row is visible to a caller whom the formulas of all its fields admit.
-/

namespace RowVault

/-- An entry as it is filed in an index. -/
structure Filing (T : Type) where
  number : Nat
  info : EntryInfo
  entry : T
  deriving DecidableEq, Repr

/-- One row of a filed entry. -/
structure StoredRow (T : Type) where
  row : EncodedRow
  filing : Filing T
  deriving DecidableEq, Repr

namespace StoredRow

variable {T : Type}

/-- The place of the row in its index. -/
def place (r : StoredRow T) : RowKey := r.row.place

/-- Whether the row comes from an adapter's entry with a data id. -/
def belongsTo (r : StoredRow T) (data adapter : Bytes) : Bool :=
  r.row.id.data == data && r.row.id.adapter == adapter

/-- Whether every field admits a caller. -/
def isVisible (labels : Labels) (r : StoredRow T) : Bool :=
  r.filing.info.visibilities.all fun formula ↦ Visibility.permits formula labels

/-- What deciding about formulas leaves in the log; the first that does not admit the caller is the
last that is decided about. -/
def decisionLog (labels : Labels) : List Bytes → List LogRecord
  | [] => []
  | formula :: rest =>
    Visibility.permitsLog formula ++
      if Visibility.permits formula labels then decisionLog labels rest else []

/-- Decide whether a row is visible. -/
def decideVisible (labels : Labels) (r : StoredRow T) : Traced Bool := do
  .log (decisionLog labels r.filing.info.visibilities)
  pure (r.isVisible labels)

end StoredRow

/-- The rows of one index, by place. -/
abbrev RowSet (T : Type) := Std.ExtTreeMap RowKey (StoredRow T)

namespace RowSet

variable {T : Type}

/-- All rows, in order. -/
def all (rows : RowSet T) : List (StoredRow T) := rows.toList.map (·.2)

/-- The rows from a place up to, but not including, another one, if there is one. -/
def between (rows : RowSet T) (lower : RowKey) (upper : Option RowKey) : List (StoredRow T) :=
  (rows.toList.filter fun (place, _) ↦
    (compare lower place).isLE && upper.all fun u ↦ compare place u == .lt).map (·.2)

/-- The places from which and up to which rows of a window lie. A window that ends before it begins
gives the empty interval at its beginning. -/
def interval (w : Window) : RowKey × Option RowKey :=
  (.floor w.lower, w.upper.map fun upper ↦ .floor (if w.lower < upper then upper else w.lower))

/-- The rows whose insertion key lies in a window, in order. -/
def within (rows : RowSet T) (w : Window) : List (StoredRow T) :=
  rows.between (interval w).1 (interval w).2

/-- The rows of windows, one window after the other. -/
def withinEach (rows : RowSet T) (windows : List Window) : List (StoredRow T) :=
  windows.flatMap rows.within

/-- Remove the rows that are listed and still belong to a filing, and count them. -/
def removeListed (number : Nat) : RowSet T → List EncodedRow → RowSet T × Nat
  | rows, [] => (rows, 0)
  | rows, r :: rest =>
    match rows[r.place]? with
    | some stored =>
      if stored.filing.number = number then
        let removed := removeListed number (rows.erase r.place) rest
        (removed.1, removed.2 + 1)
      else removeListed number rows rest
    | none => removeListed number rows rest

/-- Remove the rows that belong to a filing, and count them. -/
def removeFiling (rows : RowSet T) (f : Filing T) : RowSet T × Nat :=
  rows.removeListed f.number f.info.rows

/-- Add a filing to a list, unless it is there. -/
def noteFiling (f : Filing T) (filings : List (Filing T)) : List (Filing T) :=
  if filings.any (·.number == f.number) then filings else filings ++ [f]

/-- Note the filing of a row that is displaced, if there is one. -/
def noteDisplaced (displaced : List (Filing T)) : Option (StoredRow T) → List (Filing T)
  | none => displaced
  | some stored => noteFiling stored.filing displaced

/-- Put rows of a filing in their places, and note the filings whose rows they displace. -/
def placeListed (f : Filing T) :
    RowSet T → List (Filing T) → List EncodedRow → RowSet T × List (Filing T)
  | rows, displaced, [] => (rows, displaced)
  | rows, displaced, r :: rest =>
    placeListed f (rows.insert r.place ⟨r, f⟩) (noteDisplaced displaced rows[r.place]?) rest

/-- Remove filings, one after the other. -/
def removeEach (rows : RowSet T) (filings : List (Filing T)) : RowSet T :=
  filings.foldl (fun rows f ↦ (rows.removeFiling f).1) rows

end RowSet

end RowVault
