import RowVault.Scripted.Entry
import RowVault.Store.Call

/-!
# Deliveries whose keys are given

An index takes the insertion keys of an entry from the bytes of a field, so that a batch is written
down by data ids and keys. A query asks for the rows of one key.
-/

namespace RowVault

/-- An index whose keys are the bytes of a field. -/
def Index.ofBytes : Index :=
  let keys (common : Dataset) : List Bytes :=
    match common.get? [0x66] with
    | some (.blob bytes) => bytes.map ([·])
    | _ => []
  ⟨⟨[0x73], keys, fun _ _ ↦ []⟩, ⟨[0x6D], [.ofCodec [0x66] {}]⟩⟩

/-- An entry with a data id and keys. -/
def Scripted.Entry.ofBytes (data keys : Bytes) : Scripted.Entry :=
  { id := data, fields := [⟨[0x66], .blob keys⟩] }

/-- A delivery of entries whose keys are given. -/
def Delivery.ofBytes (entries : List Scripted.Entry) : Delivery Scripted.Entry where
  adapter := Scripted.AdapterPlan.adapter { id := [0x61] }
  index := .ofBytes
  visibility := .unconstrained
  entries := entries

/-- The query for the rows of a key. -/
def Query.ofKey (key : Bytes) : Query where
  supports _ := true
  filters _ := [.host (fun _ row ↦ row.key == key) []]

end RowVault
