import RowVault.Entry.Info
import RowVault.Model.Adapter
import RowVault.Signal
import RowVault.Visibility.Decision

/-!
# Encoding entries

The adapter splits an entry into common and extended fields, and the strategy turns the common ones
into insertion keys. An entry without keys is left out with a warning. Otherwise each key gives a
row; common fields are written by the index model, and extended ones, null values apart, by the
adapter. A field without writer is left out with a warning, and a writer that fails fails the entry.

The formula of a field is what its writer asks for and what the caller asks for, together.
-/

namespace RowVault

/-- The number of duplicates of each row of an entry with this many rows. -/
def Encoding.duplicates (e : Encoding) (rows : Nat) : Int32 :=
  if e.deduplicated then .ofNat (min (rows - 1) 0x7FFFFFFF) else RowId.noDeduplication

/-- The row of one insertion key, if its id has an encoding. -/
def Encoding.row (e : Encoding) (duplicates : Int32) (key : Bytes) :
    Except RowIdError EncodedRow :=
  let id : RowId := ⟨key, e.data, e.adapter, duplicates⟩
  match id.encode with
  | .ok raw => .ok ⟨id, raw⟩
  | .error e => .error e

/-- The rows of insertion keys, in their order. -/
def Encoding.rows (e : Encoding) (duplicates : Int32) :
    List Bytes → Except RowIdError (List EncodedRow)
  | [] => .ok []
  | key :: keys =>
    match e.row duplicates key, e.rows duplicates keys with
    | .ok row, .ok rows => .ok (row :: rows)
    | .error e, _ => .error e
    | .ok _, .error e => .error e

/-- The fields to be written, each with its writer, if there is one. -/
def Encoding.plan {T : Type} (e : Encoding) (adapter : Adapter T) (model : IndexModel) :
    List (FieldValue × Option FieldWriter) :=
  e.common.fields.map (fun v ↦ (v, model.writer? v.field)) ++
    (e.extended.fields.filter fun v ↦ !v.value.isNull).map fun v ↦ (v, adapter.writer? v.field)

/-- Leave a field out. -/
def skipField (adapter field : Bytes) : Traced Unit := do
  .log [⟨.warn, "no writer for field; skipping",
    [("adapter", adapter.display), ("field", field.display)]⟩]
  .notify (.fieldSkipped adapter field)

/-- The persisted fields of a plan, in its order, or the first failure of a writer. The second
argument gives the caller's formula for a field. -/
def encodeFields (adapter : Bytes) (formula : FieldValue → Bytes) :
    List (FieldValue × Option FieldWriter) → Traced (Except Failure (List FieldInfo))
  | [] => pure (.ok [])
  | (v, none) :: rest => do
    skipField adapter v.field
    encodeFields adapter formula rest
  | (v, some writer) :: rest =>
    match writer.write v.value with
    | .error e => pure (.error e)
    | .ok written => do
      let own := writer.visibility v.field v.value
      .log (Visibility.conjoinLog own (formula v))
      match ← encodeFields adapter formula rest with
      | .error e => pure (.error e)
      | .ok infos =>
        pure (.ok (⟨v, written, Visibility.conjoin own (formula v)⟩ :: infos))

/-- The rows and fields of an entry in an index. -/
def encodeEntry {T : Type} (adapter : Adapter T) (index : Index) (visibility : VisibilityWriter T)
    (entry : T) : Traced (Except Failure EntryInfo) :=
  let encoding := adapter.encode entry index.model
  match index.strategy.insertionKeys encoding.common with
  | [] => do
    .log [⟨.warn, "entry produced no insertion keys; skipping",
      [("adapter", encoding.adapter.display), ("data_id", encoding.data.display),
        ("index", index.id.display)]⟩]
    .notify (.entryUnindexable encoding.adapter encoding.data)
    pure (.ok .empty)
  | key :: keys =>
    match encoding.rows (encoding.duplicates (key :: keys).length) (key :: keys) with
    | .error e => pure (.error e.toFailure)
    | .ok rows => do
      let formula (v : FieldValue) := visibility.formula entry v.field v.value
      match ← encodeFields encoding.adapter formula (encoding.plan adapter index.model) with
      | .error e => pure (.error e)
      | .ok fields => pure (.ok ⟨rows, fields⟩)

end RowVault
