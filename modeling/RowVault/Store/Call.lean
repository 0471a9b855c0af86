import RowVault.Store.Delete
import RowVault.Store.Ingest

/-!
# Calls of a store

A store is changed by registrations, ingests and deletions. Each of them is a value here, so that
calls can be listed, and performing a call gives what it returns and the store afterwards.
-/

namespace RowVault

variable {T : Type}

/-- A call that may change a store. -/
inductive Call (T : Type) where
  | register (adapter : Adapter T) (index : Index)
  | ingest (adapter : Adapter T) (index : Index) (visibility : VisibilityWriter T)
    (entries : List T) (fault : (position : Nat) → Option HostFault)
  | delete (q : Query) (options : QueryOptions)
  | deleteEntry (index data adapter : Bytes) (labels : Labels)

/-- What a call returns. -/
inductive Reply (T : Type) where
  | registered (adapter : Adapter T)
  | ingested (written : List Bytes) (told : List (Filing T)) (fault : Option HostFault)
  | deleted (entries : Nat)
  | removed (any : Bool)

/-- A call that ingests a batch. -/
structure Delivery (T : Type) where
  adapter : Adapter T
  index : Index
  visibility : VisibilityWriter T
  entries : List T
  fault : (position : Nat) → Option HostFault := fun _ ↦ none

/-- The call of a delivery. -/
def Delivery.call (d : Delivery T) : Call T :=
  .ingest d.adapter d.index d.visibility d.entries d.fault

/-- What a call returns, and the store afterwards. -/
def Store.perform (s : Store T) : Call T → Reply T × Store T
  | .register adapter index =>
    let after := (s.register adapter index).value
    (.registered (after.registered adapter), after)
  | .ingest adapter index visibility entries fault =>
    let done := (s.ingest adapter index visibility entries fault).value
    (.ingested done.written done.told done.fault, done.store)
  | .delete q options =>
    let done := (s.delete q options).value
    (.deleted done.entries, done.store)
  | .deleteEntry index data adapter labels =>
    let done := (s.deleteEntry index data adapter labels).value
    (.removed done.1, done.2)

end RowVault
