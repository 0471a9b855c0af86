import RowVault.Entry.Encode
import RowVault.Store.Basic

/-!
# Ingest

The entries of a batch are encoded and filed one after the other. An entry that cannot be encoded,
or that has no insertion key, is left out. Rows that a filing displaces take the whole entry that
they belong to with them, and its statistics are taken back once. Then the sink and the caller are
told of the new entry, and the statistics observe it.

The host may fail while the batch runs. What has been filed stays, and the tally is closed, so that
the changes it has collected reach the statistics store.
-/

namespace RowVault

/-- Where the host fails at an entry of a batch. -/
inductive HostFault where
  /-- While the entry is fetched and encoded. -/
  | encoding
  /-- While the sink is told of the rows. -/
  | sink
  /-- While the caller is told of the entry. -/
  | callback
  deriving DecidableEq, Repr

/-- How far a batch has come. -/
structure Batch (T : Type) where
  rows : RowSet T
  tally : Tally
  filed : Nat
  /-- The row ids written. -/
  written : List Bytes := []
  /-- The filings that the caller was told of. -/
  told : List (Filing T) := []
  fault : Option HostFault := none

namespace Batch

variable {T : Type}

/-- Put the rows of a filing in their places and remove the entries that they displace. -/
def store (b : Batch T) (f : Filing T) : Batch T :=
  let placed := RowSet.placeListed f b.rows [] f.info.rows
  { b with
    rows := placed.1.removeEach placed.2
    tally := placed.2.foldl (fun t d ↦ t.deleted d.info) b.tally
    filed := b.filed + 1 }

/-- File an entry, as far as the host does not fail. -/
def file (b : Batch T) (index : Bytes) (f : Filing T) (fault : Option HostFault) :
    Traced (Batch T) := do
  let b := b.store f
  if fault = some .sink then pure { b with fault }
  else do
    .notify (.rowsInserted index f.info.rows.length)
    let b := { b with written := b.written ++ f.info.rowIds, told := b.told ++ [f] }
    if fault = some .callback then pure { b with fault }
    else pure { b with tally := b.tally.ingested f.info }

/-- Run the entries of a batch from a position on. The fault at a position, if there is one, ends
the batch; it may also lie behind the last entry, where the host finds that there is no more. -/
def run (adapter : Adapter T) (index : Index) (visibility : VisibilityWriter T)
    (fault : Nat → Option HostFault) (position : Nat) (b : Batch T) (entries : List T) :
    Traced (Batch T) :=
  if fault position = some .encoding then pure { b with fault := fault position }
  else
    match entries with
    | [] => pure b
    | entry :: rest => do
      match ← encodeEntry adapter index visibility entry with
      | .error e => do
        .log [⟨.warn, "entry failed to encode; skipping",
          [("adapter", adapter.id.display), ("index", index.id.display), ("error", e.message)]⟩]
        run adapter index visibility fault (position + 1) b rest
      | .ok info =>
        if info.isEmpty then run adapter index visibility fault (position + 1) b rest
        else do
          let b ← b.file index.id ⟨b.filed, info, entry⟩ (fault position)
          if b.fault.isSome then pure b
          else run adapter index visibility fault (position + 1) b rest

end Batch

/-- What has come of a batch. -/
structure Ingested (T : Type) where
  /-- The row ids written. -/
  written : List Bytes
  /-- The filings that the caller was told of. -/
  told : List (Filing T)
  /-- Where the host failed, if it did. -/
  fault : Option HostFault
  store : Store T

/-- Register an adapter and an index, and ingest a batch of entries. Entries are encoded for the
index that is given; `fault` says at which positions of the batch the host fails. -/
def Store.ingest {T : Type} (s : Store T) (adapter : Adapter T) (index : Index)
    (visibility : VisibilityWriter T) (entries : List T)
    (fault : (position : Nat) → Option HostFault := fun _ ↦ none) : Traced (Ingested T) := do
  let s ← s.register adapter index
  let adapter := s.registered adapter
  let (ledger, tally) ← Tally.openOn s.ledger adapter.id adapter.statisticKinds
  let start : Batch T := { rows := s.rowsOf index.id, tally, filed := s.filed }
  let b ← start.run adapter index visibility fault 0 entries
  let ledger ← b.tally.close ledger
  pure {
    written := b.written
    told := b.told
    fault := b.fault
    store := { s with rows := s.rows.insert index.id b.rows, ledger, filed := b.filed } }

end RowVault
