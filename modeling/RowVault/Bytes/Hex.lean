import RowVault.Bytes

/-!
# Hexadecimal text

Two digits for each byte, lower-case when written and of either case when read. Reading refuses
an odd number of digits and any other character.
-/

namespace RowVault.Bytes

/-- The lower-case digit of a half byte. -/
def hexDigit (n : UInt8) : Char :=
  if n < 10 then Char.ofNat (48 + n.toNat) else Char.ofNat (87 + n.toNat)

/-- The value of a hexadecimal digit of either case. -/
def hexValue? (c : Char) : Option UInt8 :=
  if '0' ≤ c ∧ c ≤ '9' then some (UInt8.ofNat (c.toNat - 48))
  else if 'a' ≤ c ∧ c ≤ 'f' then some (UInt8.ofNat (c.toNat - 87))
  else if 'A' ≤ c ∧ c ≤ 'F' then some (UInt8.ofNat (c.toNat - 55))
  else none

/-- Two lower-case digits for each byte. -/
def toHex (bytes : Bytes) : String :=
  String.ofList (bytes.flatMap fun (b : UInt8) ↦ [hexDigit (b >>> 4), hexDigit (b &&& 15)])

/-- The bytes of a list of digits, taken two by two in front of those read before. -/
def ofHexDigits : List Char → Bytes → Option Bytes
  | [], before => some before.reverse
  | [_], _ => none
  | high :: low :: rest, before =>
    match hexValue? high, hexValue? low with
    | some h, some l => ofHexDigits rest ((h <<< 4 ||| l) :: before)
    | _, _ => none

/-- The bytes that a hexadecimal text spells, if it spells any. -/
def ofHex? (text : String) : Option Bytes := ofHexDigits text.toList []

end RowVault.Bytes
