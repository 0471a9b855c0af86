import RowVault.Bytes

/-!
# Lossy text of a byte string

Messages show byte strings as text. Valid UTF-8 is shown as it is; every maximal run of bytes
that begins a well-formed sequence but cannot be completed, and every byte that begins none,
is shown as one replacement character.
-/

namespace RowVault.Bytes.Lossy

/-- What has been read of a multi-byte sequence. `lo` and `hi` bound the next byte. -/
structure Partial where
  missing : Nat
  lo : UInt8
  hi : UInt8
  value : Nat
  deriving DecidableEq, Repr

/-- The character shown in place of ill-formed bytes. -/
def replacement : Char := '\uFFFD'

/-- What a byte begins: a whole character, an open sequence, or nothing. The bounds on the second
byte exclude overlong forms, surrogates and values above U+10FFFF. -/
def start (b : UInt8) : List Char × Option Partial :=
  if b < 0x80 then ([Char.ofNat b.toNat], none)
  else if 0xC2 ≤ b ∧ b ≤ 0xDF then ([], some ⟨1, 0x80, 0xBF, b.toNat - 0xC0⟩)
  else if b = 0xE0 then ([], some ⟨2, 0xA0, 0xBF, 0⟩)
  else if b = 0xED then ([], some ⟨2, 0x80, 0x9F, 0xD⟩)
  else if 0xE1 ≤ b ∧ b ≤ 0xEF then ([], some ⟨2, 0x80, 0xBF, b.toNat - 0xE0⟩)
  else if b = 0xF0 then ([], some ⟨3, 0x90, 0xBF, 0⟩)
  else if 0xF1 ≤ b ∧ b ≤ 0xF3 then ([], some ⟨3, 0x80, 0xBF, b.toNat - 0xF0⟩)
  else if b = 0xF4 then ([], some ⟨3, 0x80, 0x8F, 4⟩)
  else ([replacement], none)

/-- One byte after what is open. A byte that does not continue the open sequence closes it as
ill-formed and begins anew. -/
def step (pending : Option Partial) (b : UInt8) : List Char × Option Partial :=
  match pending with
  | none => start b
  | some p =>
    if p.lo ≤ b ∧ b ≤ p.hi then
      let value := p.value * 64 + (b.toNat - 0x80)
      if p.missing ≤ 1 then ([Char.ofNat value], none)
      else ([], some ⟨p.missing - 1, 0x80, 0xBF, value⟩)
    else
      let (shown, next) := start b
      (replacement :: shown, next)

/-- The characters of the bytes that follow an open sequence, after those shown before. -/
def chars : Option Partial → List Char → Bytes → List Char
  | none, shown, [] => shown.reverse
  | some _, shown, [] => (replacement :: shown).reverse
  | pending, shown, b :: rest =>
    let (more, next) := step pending b
    chars next (more.reverse ++ shown) rest

end RowVault.Bytes.Lossy

namespace RowVault.Bytes

/-- The text shown for a byte string, with ill-formed parts replaced. -/
def display (bytes : Bytes) : String := String.ofList (Lossy.chars none [] bytes)

end RowVault.Bytes
