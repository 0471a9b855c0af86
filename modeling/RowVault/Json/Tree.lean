/-!
# JSON trees

A reader for JSON texts, and the writing of a string. Numbers are kept as they are spelled. A string
in which half of a surrogate pair is escaped is well-formed, but has no text. White space is a
space, a line feed, a tab or a carriage return; it may stand around every item, and nothing else may
follow the last one.
-/

namespace RowVault

/-- A JSON value. -/
inductive Json where
  | null
  | bool (b : Bool)
  | number (spelling : String)
  | string (text : Option String)
  | array (items : List Json)
  | object (members : List (Option String × Json))
  deriving Repr

namespace Json

/-- The characters behind leading white space. -/
def skipSpace (cs : List Char) : List Char :=
  cs.dropWhile fun c ↦ c == ' ' || c == '\n' || c == '\t' || c == '\r'

/-- What is left behind a fixed beginning. -/
def skipWord? : (word : List Char) → List Char → Option (List Char)
  | [], cs => some cs
  | w :: word, c :: cs => if c = w then skipWord? word cs else none
  | _ :: _, [] => none

/-! ## Numbers -/

/-- Whether a character is a decimal digit. -/
def isDigit (c : Char) : Bool := decide ('0' ≤ c) && decide (c ≤ '9')

/-- At least one digit, and what follows. -/
def readDigits (cs : List Char) : Option (List Char × List Char) :=
  match cs.takeWhile isDigit with
  | [] => none
  | digits => some (digits, cs.dropWhile isDigit)

/-- Digits without a needless leading zero. -/
def readWhole (cs : List Char) : Option (List Char × List Char) :=
  match readDigits cs with
  | some ('0' :: _ :: _, _) => none
  | other => other

/-- The part behind a decimal point, if there is a point. -/
def readFraction : List Char → Option (List Char × List Char)
  | '.' :: cs => (readDigits cs).map fun (digits, rest) ↦ ('.' :: digits, rest)
  | cs => some ([], cs)

/-- The exponent, if there is one. -/
def readExponent : List Char → Option (List Char × List Char)
  | [] => some ([], [])
  | e :: cs =>
    if e = 'e' ∨ e = 'E' then
      match cs with
      | '+' :: cs => (readDigits cs).map fun (digits, rest) ↦ (e :: '+' :: digits, rest)
      | '-' :: cs => (readDigits cs).map fun (digits, rest) ↦ (e :: '-' :: digits, rest)
      | cs => (readDigits cs).map fun (digits, rest) ↦ (e :: digits, rest)
    else some ([], e :: cs)

/-- A number without sign. -/
def readUnsigned (cs : List Char) : Option (List Char × List Char) := do
  let (whole, cs) ← readWhole cs
  let (fraction, cs) ← readFraction cs
  let (exponent, cs) ← readExponent cs
  return (whole ++ fraction ++ exponent, cs)

/-- A number, as it is spelled. -/
def readNumber : List Char → Option (String × List Char)
  | '-' :: cs => (readUnsigned cs).map fun (cs, rest) ↦ (String.ofList ('-' :: cs), rest)
  | cs => (readUnsigned cs).map fun (cs, rest) ↦ (String.ofList cs, rest)

/-! ## Strings -/

/-- The value of a hexadecimal digit. -/
def hexValue? (c : Char) : Option Nat :=
  if isDigit c then some (c.toNat - 48)
  else if 'a' ≤ c ∧ c ≤ 'f' then some (c.toNat - 87)
  else if 'A' ≤ c ∧ c ≤ 'F' then some (c.toNat - 55)
  else none

/-- The 16-bit unit of four hexadecimal digits, and what follows. -/
def readUnit : List Char → Option (Nat × List Char)
  | a :: b :: c :: d :: rest => do
    let a ← hexValue? a
    let b ← hexValue? b
    let c ← hexValue? c
    let d ← hexValue? d
    return (((a * 16 + b) * 16 + c) * 16 + d, rest)
  | _ => none

/-- The character of an escape of one letter. -/
def escaped? : Char → Option Char
  | '"' => some '"'
  | '\\' => some '\\'
  | '/' => some '/'
  | 'b' => some '\x08'
  | 'f' => some '\x0c'
  | 'n' => some '\n'
  | 'r' => some '\r'
  | 't' => some '\t'
  | _ => none

/-- Whether a unit is the first half of a surrogate pair. -/
def isHighHalf (unit : Nat) : Bool := decide (0xD800 ≤ unit) && decide (unit ≤ 0xDBFF)

/-- Whether a unit is the second half of a surrogate pair. -/
def isLowHalf (unit : Nat) : Bool := decide (0xDC00 ≤ unit) && decide (unit ≤ 0xDFFF)

/-- The text of units and characters, last first; none if half of a pair stands alone. -/
def joinUnits : (text : List Char) → List (Nat ⊕ Char) → Option (List Char)
  | text, [] => some text
  | text, .inr c :: rest => joinUnits (c :: text) rest
  | text, .inl low :: rest =>
    if isLowHalf low then
      match rest with
      | .inl high :: rest =>
        if isHighHalf high then
          joinUnits (Char.ofNat (0x10000 + (high - 0xD800) * 0x400 + (low - 0xDC00)) :: text) rest
        else none
      | _ => none
    else if isHighHalf low then none
    else joinUnits (Char.ofNat low :: text) rest

/-- The rest of a string behind its opening quote, after units and characters read before, last
first. The budget is the number of characters. -/
def readString : (budget : Nat) → List (Nat ⊕ Char) → List Char → Option (Option String × List Char)
  | 0, _, _ => none
  | budget + 1, before, cs =>
    match cs with
    | [] => none
    | '"' :: rest => some ((joinUnits [] before).map String.ofList, rest)
    | '\\' :: 'u' :: rest =>
      match readUnit rest with
      | some (unit, rest) => readString budget (.inl unit :: before) rest
      | none => none
    | '\\' :: c :: rest =>
      match escaped? c with
      | some c => readString budget (.inr c :: before) rest
      | none => none
    | c :: rest =>
      if c.toNat < 0x20 ∨ c = '\\' then none else readString budget (.inr c :: before) rest

/-! ## Values -/

mutual

/-- A value behind white space, and what follows it. -/
def readValue : (budget : Nat) → List Char → Option (Json × List Char)
  | 0, _ => none
  | budget + 1, cs =>
    match skipSpace cs with
    | '"' :: rest =>
      (readString (rest.length + 1) [] rest).map fun (text, rest) ↦ (.string text, rest)
    | '[' :: rest =>
      match skipSpace rest with
      | ']' :: rest => some (.array [], rest)
      | rest => (readItems budget rest).map fun (items, rest) ↦ (.array items, rest)
    | '{' :: rest =>
      match skipSpace rest with
      | '}' :: rest => some (.object [], rest)
      | rest => (readMembers budget rest).map fun (members, rest) ↦ (.object members, rest)
    | 't' :: rest => (skipWord? ['r', 'u', 'e'] rest).map fun rest ↦ (.bool true, rest)
    | 'f' :: rest => (skipWord? ['a', 'l', 's', 'e'] rest).map fun rest ↦ (.bool false, rest)
    | 'n' :: rest => (skipWord? ['u', 'l', 'l'] rest).map fun rest ↦ (.null, rest)
    | rest => (readNumber rest).map fun (spelling, rest) ↦ (.number spelling, rest)

/-- The items of an array up to its end. -/
def readItems : (budget : Nat) → List Char → Option (List Json × List Char)
  | 0, _ => none
  | budget + 1, cs =>
    match readValue budget cs with
    | none => none
    | some (item, rest) =>
      match skipSpace rest with
      | ']' :: rest => some ([item], rest)
      | ',' :: rest => (readItems budget rest).map fun (items, rest) ↦ (item :: items, rest)
      | _ => none

/-- The members of an object up to its end. -/
def readMembers : (budget : Nat) → List Char → Option (List (Option String × Json) × List Char)
  | 0, _ => none
  | budget + 1, cs =>
    match skipSpace cs with
    | '"' :: rest =>
      match readString (rest.length + 1) [] rest with
      | none => none
      | some (name, rest) =>
        match skipSpace rest with
        | ':' :: rest =>
          match readValue budget rest with
          | none => none
          | some (value, rest) =>
            match skipSpace rest with
            | '}' :: rest => some ([(name, value)], rest)
            | ',' :: rest =>
              (readMembers budget rest).map fun (members, rest) ↦ ((name, value) :: members, rest)
            | _ => none
        | _ => none
    | _ => none

end

/-- The value that a text spells, if it spells exactly one. Every character takes at most two
steps. -/
def parse (text : String) : Option Json :=
  match readValue (2 * text.length + 1) text.toList with
  | some (value, rest) => if skipSpace rest = [] then some value else none
  | none => none

/-! ## Writing -/

/-- How a character is written inside a string: quotes, backslashes and control characters are
escaped, all others stand for themselves. -/
def writeChar (c : Char) : List Char :=
  if c = '"' then ['\\', '"']
  else if c = '\\' then ['\\', '\\']
  else if c = '\x08' then ['\\', 'b']
  else if c = '\x0c' then ['\\', 'f']
  else if c = '\n' then ['\\', 'n']
  else if c = '\r' then ['\\', 'r']
  else if c = '\t' then ['\\', 't']
  else if c.toNat < 0x20 then
    ['\\', 'u', '0', '0', Nat.digitChar (c.toNat / 16), Nat.digitChar (c.toNat % 16)]
  else [c]

/-- A string in quotes. -/
def writeString (text : String) : String :=
  String.ofList ('"' :: text.toList.flatMap writeChar ++ ['"'])

end Json

end RowVault
