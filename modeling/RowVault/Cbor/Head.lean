import RowVault.Bytes
import RowVault.Binary64

/-!
# CBOR heads

A CBOR item opens with a head: a major type and an argument of up to eight bytes. Writing uses the
shortest argument. Reading accepts every width, and refuses the reserved forms.
-/

namespace RowVault.Cbor

/-- A head of the given major type, with its argument in the fewest bytes that hold it. -/
def writeHead (major : Nat) (n : Nat) : Bytes :=
  if n < 24 then [UInt8.ofNat (major * 32 + n)]
  else if n < 256 then UInt8.ofNat (major * 32 + 24) :: Bytes.toBE 1 n
  else if n < 65536 then UInt8.ofNat (major * 32 + 25) :: Bytes.toBE 2 n
  else if n < 4294967296 then UInt8.ofNat (major * 32 + 26) :: Bytes.toBE 4 n
  else UInt8.ofNat (major * 32 + 27) :: Bytes.toBE 8 n

/-- What a head says. The length of a string or collection is absent if it runs until a stop. -/
inductive Head where
  | unsigned (n : Nat)
  /-- The integer `-1 - n`. -/
  | negative (n : Nat)
  | bytes (length : Option Nat)
  | text (length : Option Nat)
  | array (length : Option Nat)
  | map (length : Option Nat)
  | tag (n : Nat)
  | bool (b : Bool)
  /-- The null and the undefined item. -/
  | nothing
  | float (x : Binary64)
  | stop
  deriving DecidableEq, Repr

/-- The first `n` bytes and the rest, if there are that many. -/
def take? (n : Nat) (bytes : Bytes) : Option (Bytes × Bytes) :=
  if (bytes.take n).length = n then some (bytes.take n, bytes.drop n) else none

/-- The argument that the low five bits of a first byte announce; absent for an indefinite one. -/
def readArgument (low : Nat) (rest : Bytes) : Option (Option Nat × Bytes) :=
  if low < 24 then some (some low, rest)
  else if low < 28 then
    (take? (1 <<< (low - 24)) rest).map fun (digits, rest) ↦ (some (Bytes.ofBE digits), rest)
  else if low = 31 then some (none, rest)
  else none

/-- The head of major type seven whose first byte has these low bits. -/
def readSimple (low : Nat) (argument : Option Nat) : Option Head :=
  match low, argument with
  | 20, _ => some (.bool false)
  | 21, _ => some (.bool true)
  | 22, _ => some .nothing
  | 23, _ => some .nothing
  | 25, some n => some (.float (NarrowFormat.binary16.widen n))
  | 26, some n => some (.float (NarrowFormat.binary32.widen n))
  | 27, some n => some (.float ⟨UInt64.ofNat n⟩)
  | 31, _ => some .stop
  | _, _ => none

/-- The head of an item and what follows it. -/
def readHead : Bytes → Option (Head × Bytes)
  | [] => none
  | first :: rest =>
    let low := first.toNat % 32
    match readArgument low rest with
    | none => none
    | some (argument, rest) =>
      let head : Option Head :=
        match first.toNat / 32, argument with
        | 0, some n => some (.unsigned n)
        | 1, some n => some (.negative n)
        | 2, length => some (.bytes length)
        | 3, length => some (.text length)
        | 4, length => some (.array length)
        | 5, length => some (.map length)
        | 6, some n => some (.tag n)
        | 7, argument => readSimple low argument
        | _, _ => none
      head.map fun head ↦ (head, rest)

end RowVault.Cbor
