import RowVault.Cbor.Writer

/-!
# Reading field values from CBOR

The reader takes more than the writer produces. Heads may be longer than needed; strings and
collections may run until a stop; an integer is a number; byte strings of valid UTF-8 are texts;
kinds and the ends of a range may be numbered instead of named; a value may be an array of kind
and content instead of a map; tags in front of an item are passed over; and unknown entries of a
range are skipped. A map that holds a value must announce its single entry in its first byte.
What is left after the value is an error.

Nesting is bounded: each tag, array and map takes one of `maxDepth` levels, and the last is never
granted. A reader returns the value and the bytes that follow it.
-/

namespace RowVault.Cbor

/-- One more than the number of levels that tags, arrays and maps may take. -/
def maxDepth : Nat := 128

/-- The head of an item behind any tags, and the levels that are left. -/
def readUntagged : (depth : Nat) → Bytes → Option (Head × Nat × Bytes)
  | 0, _ => none
  | depth + 1, bytes =>
    match readHead bytes with
    | none => none
    | some (.tag _, rest) => readUntagged depth rest
    | some (head, rest) => some (head, depth + 1, rest)

/-- The levels left inside an array or a map, if it may be entered. -/
def enter? (depth : Nat) : Option Nat := if depth ≤ 1 then none else some (depth - 1)

/-- Run a step on each element of a collection: as many as announced, or until a stop. The budget
is one more than the number of bytes, of which each step takes at least one. -/
def readEach {σ : Type} (step : σ → Bytes → Option (σ × Bytes)) :
    (budget : Nat) → (length : Option Nat) → σ → Bytes → Option (σ × Bytes)
  | 0, _, _, _ => none
  | _ + 1, some 0, s, bytes => some (s, bytes)
  | budget + 1, some (n + 1), s, bytes =>
    match step s bytes with
    | none => none
    | some (s, rest) => readEach step budget (some n) s rest
  | budget + 1, none, s, bytes =>
    match bytes with
    | [] => none
    | 0xFF :: rest => some (s, rest)
    | bytes =>
      match step s bytes with
      | none => none
      | some (s, rest) => readEach step budget none s rest

/-- A chunk of a string without length, put before the chunks read so far. -/
def readChunk (isText : Bool) (chunks : List Bytes) (bytes : Bytes) :
    Option (List Bytes × Bytes) :=
  match readHead bytes, isText with
  | some (.text (some n), rest), true | some (.bytes (some n), rest), false =>
    (take? n rest).map fun (chunk, rest) ↦ (chunk :: chunks, rest)
  | _, _ => none

/-- The bytes of a string: as many as announced, or the chunks until a stop. -/
def readString (isText : Bool) (length : Option Nat) (bytes : Bytes) : Option (Bytes × Bytes) :=
  match length with
  | some n => take? n bytes
  | none =>
    (readEach (readChunk isText) (bytes.length + 1) none [] bytes).map fun (chunks, rest) ↦
      (chunks.reverse.flatten, rest)

/-- A text item, or a byte string of valid UTF-8. -/
def readText (depth : Nat) (bytes : Bytes) : Option (String × Bytes) :=
  match readUntagged depth bytes with
  | some (.text length, _, rest) =>
    (readString true length rest).bind fun (s, rest) ↦ s.toText?.map (·, rest)
  | some (.bytes length, _, rest) =>
    (readString false length rest).bind fun (s, rest) ↦ s.toText?.map (·, rest)
  | _ => none

/-- The name of a kind or of an end of a range: a number, or a string. -/
inductive Name where
  | index (n : Nat)
  | label (bytes : Bytes)
  deriving DecidableEq, Repr

/-- A name item. Texts must be valid UTF-8, byte strings need not. -/
def readName (depth : Nat) (bytes : Bytes) : Option (Name × Bytes) :=
  match readUntagged depth bytes with
  | some (.unsigned n, _, rest) => some (.index n, rest)
  | some (.text length, _, rest) =>
    (readString true length rest).bind fun (s, rest) ↦ s.toText?.map fun _ ↦ (.label s, rest)
  | some (.bytes length, _, rest) =>
    (readString false length rest).map fun (s, rest) ↦ (.label s, rest)
  | _ => none

/-- The position of what a name stands for in a list of labels. -/
def Name.position? (name : Name) (labels : List String) : Option Nat :=
  match name with
  | .index n => if n < labels.length then some n else none
  | .label bytes => labels.findIdx? fun label ↦ bytes == Bytes.ofText label

/-- The kind that a name stands for. -/
def Name.kind? (name : Name) : Option ValueKind :=
  (name.position? (ValueKind.all.map (·.label))).bind fun i ↦ ValueKind.all[i]?

/-- A signed 64-bit integer. -/
def readInt (depth : Nat) (bytes : Bytes) : Option (Int64 × Bytes) :=
  match readUntagged depth bytes with
  | some (.unsigned n, _, rest) => if n < 1 <<< 63 then some (.ofNat n, rest) else none
  | some (.negative n, _, rest) => if n < 1 <<< 63 then some (.ofInt (-1 - n), rest) else none
  | _ => none

/-- An unsigned integer below a bound. -/
def readBelow (bound depth : Nat) (bytes : Bytes) : Option (Nat × Bytes) :=
  match readUntagged depth bytes with
  | some (.unsigned n, _, rest) => if n < bound then some (n, rest) else none
  | _ => none

/-- A number; integers are rounded. -/
def readFloat (depth : Nat) (bytes : Bytes) : Option (Binary64 × Bytes) :=
  match readUntagged depth bytes with
  | some (.float x, _, rest) => some (x, rest)
  | some (.unsigned n, _, rest) => some (.ofNat n, rest)
  | some (.negative n, _, rest) => if n < 1 <<< 63 then some (.ofInt (-1 - n), rest) else none
  | _ => none

/-- The bytes of a blob: an array of integers below 256. -/
def readBlob (depth : Nat) (bytes : Bytes) : Option (Bytes × Bytes) :=
  match readUntagged depth bytes with
  | some (.array length, depth, rest) =>
    match enter? depth with
    | none => none
    | some depth =>
      let step (before : Bytes) (bytes : Bytes) :=
        (readBelow 256 depth bytes).map fun (n, rest) ↦ (UInt8.ofNat n :: before, rest)
      (readEach step (rest.length + 1) length [] rest).map fun (reversed, rest) ↦
        (reversed.reverse, rest)
  | _ => none

/-- What follows an item of any type. -/
def skip : (depth : Nat) → Bytes → Option Bytes
  | 0, _ => none
  | depth + 1, bytes =>
    match readHead bytes with
    | some (.tag _, rest) => skip depth rest
    | some (.text length, rest) =>
      (readString true length rest).bind fun (s, rest) ↦ s.toText?.map fun _ ↦ rest
    | some (.bytes length, rest) => (readString false length rest).map (·.2)
    | some (.array length, rest) =>
      if depth = 0 then none
      else
        let step (_ : Unit) (bytes : Bytes) := (skip depth bytes).map fun rest ↦ ((), rest)
        (readEach step (rest.length + 1) length () rest).map (·.2)
    | some (.map length, rest) =>
      if depth = 0 then none
      else
        let step (_ : Unit) (bytes : Bytes) :=
          ((skip depth bytes).bind (skip depth)).map fun rest ↦ ((), rest)
        (readEach step (rest.length + 1) length () rest).map (·.2)
    | some (.stop, _) => none
    | some (_, rest) => some rest
    | none => none

/-- The ends of a range that have been read. -/
structure Ends where
  min : Option Binary64 := none
  max : Option Binary64 := none
  deriving DecidableEq, Repr

/-- One entry of a range: an end that was not read before, or an unknown name with any item. -/
def readEnd (depth : Nat) (ends : Ends) (bytes : Bytes) : Option (Ends × Bytes) :=
  match readName depth bytes with
  | none => none
  | some (name, rest) =>
    match name.position? ["min", "max"] with
    | some 0 =>
      if ends.min.isSome then none
      else (readFloat depth rest).map fun (x, rest) ↦ ({ ends with min := some x }, rest)
    | some _ =>
      if ends.max.isSome then none
      else (readFloat depth rest).map fun (x, rest) ↦ ({ ends with max := some x }, rest)
    | none => (skip depth rest).map fun rest ↦ (ends, rest)

/-- The end of an array whose two elements have been read. -/
def readPairEnd (length : Option Nat) (bytes : Bytes) : Option Bytes :=
  match length, bytes with
  | some 2, rest => some rest
  | none, 0xFF :: rest => some rest
  | _, _ => none

/-- A range: a map of its two ends, or an array of two numbers. -/
def readRange (depth : Nat) (bytes : Bytes) : Option (NumericRange × Bytes) :=
  match readUntagged depth bytes with
  | some (.map length, depth, rest) =>
    match enter? depth with
    | none => none
    | some depth =>
      match readEach (readEnd depth) (rest.length + 1) length {} rest with
      | some (⟨some min, some max⟩, rest) => some (⟨min, max⟩, rest)
      | _ => none
  | some (.array length, depth, rest) => do
    let depth ← enter? depth
    let (min, rest) ← readFloat depth rest
    let (max, rest) ← readFloat depth rest
    let rest ← readPairEnd length rest
    return (⟨min, max⟩, rest)
  | _ => none

/-- The content of a value of a known kind. -/
def readContent (kind : ValueKind) (depth : Nat) (bytes : Bytes) : Option (Value × Bytes) :=
  match kind with
  | .null =>
    match readUntagged depth bytes with
    | some (.nothing, _, rest) => some (.null, rest)
    | _ => none
  | .bool =>
    match readUntagged depth bytes with
    | some (.bool b, _, rest) => some (.bool b, rest)
    | _ => none
  | .int => (readInt depth bytes).map fun (n, rest) ↦ (.int n, rest)
  | .uint => (readBelow UInt64.size depth bytes).map fun (n, rest) ↦ (.uint (.ofNat n), rest)
  | .float => (readFloat depth bytes).map fun (x, rest) ↦ (.float x, rest)
  | .text => (readText depth bytes).map fun (s, rest) ↦ (.text s, rest)
  | .blob => (readBlob depth bytes).map fun (b, rest) ↦ (.blob b, rest)
  | .range => (readRange depth bytes).map fun (r, rest) ↦ (.range r, rest)

/-- The name of a kind and content of that kind. -/
def readNamed (depth : Nat) (bytes : Bytes) : Option (Value × Bytes) := do
  let (name, rest) ← readName depth bytes
  let kind ← name.kind?
  readContent kind depth rest

/-- One value and what follows it: a map of one entry, an array of two elements, or the bare name
of the null kind. -/
def readLeading (bytes : Bytes) : Option (Value × Bytes) :=
  match bytes with
  | [] => none
  | first :: rest =>
    if first = 0xA1 then readNamed (maxDepth - 1) rest
    else if 0x80 ≤ first ∧ first ≤ 0x9F then
      match readHead bytes with
      | some (.array length, rest) => do
        let (v, rest) ← readNamed (maxDepth - 1) rest
        let rest ← readPairEnd length rest
        return (v, rest)
      | _ => none
    else
      match readName maxDepth bytes with
      | some (name, rest) => if name.kind? = some .null then some (.null, rest) else none
      | none => none

/-- The field value that a byte string encodes, if it encodes exactly one. -/
def readValue (bytes : Bytes) : Option Value :=
  match readLeading bytes with
  | some (v, []) => some v
  | _ => none

end RowVault.Cbor
