import RowVault.Config
import RowVault.Model.Adapter
import RowVault.Statistic.Ledger
import RowVault.Store.Rows

/-!
# Stores

A store holds the adapters and indices that have been registered, the rows of each index, and the
statistics ledger. The first registration of an identifier stands. Filings are numbered in the order
in which entries are filed.
-/

namespace RowVault

/-- Why something registered was not found. -/
inductive RegistryError where
  | adapterNotFound (id : Bytes)
  | indexNotFound (id : Bytes)
  deriving DecidableEq, Repr

namespace RegistryError

/-- The text of an error. -/
def message : RegistryError → String
  | adapterNotFound id => s!"adapter '{id.display}' not registered"
  | indexNotFound id => s!"index '{id.display}' not registered"

/-- What is not registered is not found. -/
def toFailure (e : RegistryError) : Failure := ⟨.notFound, .store, e.message⟩

end RegistryError

/-- Adapters by identifier. -/
abbrev Adapters (T : Type) := Std.ExtTreeMap Bytes (Adapter T)

/-- Register an adapter, unless its identifier is taken. -/
def Adapters.add {T : Type} (adapters : Adapters T) (a : Adapter T) : Adapters T :=
  adapters.insertIfNew a.id a

/-- The adapter of an identifier. -/
def Adapters.find {T : Type} (adapters : Adapters T) (id : Bytes) :
    Except RegistryError (Adapter T) :=
  match adapters[id]? with
  | some a => .ok a
  | none => .error (.adapterNotFound id)

/-- Indices by identifier. -/
abbrev Indices := Std.ExtTreeMap Bytes Index

/-- Register an index, unless its identifier is taken. -/
def Indices.add (indices : Indices) (i : Index) : Indices := indices.insertIfNew i.id i

/-- The index of an identifier. -/
def Indices.find (indices : Indices) (id : Bytes) : Except RegistryError Index :=
  match indices[id]? with
  | some i => .ok i
  | none => .error (.indexNotFound id)

/-- Entries of one type, in rows by index, with their statistics. -/
structure Store (T : Type) where
  config : Config := {}
  adapters : Adapters T := ∅
  indices : Indices := ∅
  rows : Std.ExtTreeMap Bytes (RowSet T) := ∅
  ledger : Ledger := {}
  /-- The number of filings so far. -/
  filed : Nat := 0

namespace Store

variable {T : Type}

/-- The rows of an index; none if it is not registered. -/
def rowsOf (s : Store T) (index : Bytes) : RowSet T := s.rows.getD index ∅

/-- The number of rows of an index. -/
def rowCount (s : Store T) (index : Bytes) : Nat := (s.rowsOf index).size

/-- The statistic kinds of a registered adapter; none if it is not registered. -/
def kindsOf (s : Store T) (adapter : Bytes) : List StatisticKind :=
  match s.adapters[adapter]? with
  | some a => a.statisticKinds
  | none => []

/-- The number of changes that wait for the statistics store. -/
def pendingStatistics (s : Store T) : Nat := s.ledger.backlog.length

/-- The adapter that is registered under an adapter's identifier, once it has been registered. -/
def registered (s : Store T) (a : Adapter T) : Adapter T := s.adapters.getD a.id a

/-- Register an adapter and an index. -/
def register (s : Store T) (adapter : Adapter T) (index : Index) : Traced (Store T) := do
  if !s.indices.contains index.id then
    .log [⟨.debug, "index registered", [("index", index.id.display)]⟩]
  pure { s with
    adapters := s.adapters.add adapter
    indices := s.indices.add index
    rows := s.rows.insertIfNew index.id ∅ }

end Store

end RowVault
