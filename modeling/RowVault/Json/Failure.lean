import RowVault.Error
import RowVault.Json.Config

/-!
# Failures in JSON

A failure is written as an object of its class, origin and message. Reading also takes an array of
the three, passes over further members, and takes a class or origin that is named as the single
member of an object, with null for its value.
-/

namespace RowVault

/-- The name that a tag is given by. -/
def Json.tag? : Json → Option String
  | .string text => text
  | .object [(name, .null)] => name
  | _ => none

/-- The text of a string. -/
def Json.text? : Json → Option String
  | .string text => text
  | _ => none

namespace Failure

/-- The failure as a JSON text. -/
def toJson (f : Failure) : String :=
  String.join ["\x7b\"kind\":", Json.writeString f.kind.name, ",\"origin\":",
    Json.writeString f.origin.name, ",\"message\":", Json.writeString f.message, "\x7d"]

/-- The failure of its three parts. -/
def ofParts (kind origin message : Json) : Option Failure := do
  let kind ← kind.tag?.bind ErrorClass.ofName?
  let origin ← origin.tag?.bind ErrorOrigin.ofName?
  let message ← message.text?
  return { kind, origin, message }

/-- The failure of a JSON value. -/
def ofTree : Json → Option Failure
  | .object members =>
    match Json.pick ["kind", "origin", "message"] true members with
    | some [some kind, some origin, some message] => ofParts kind origin message
    | _ => none
  | .array [kind, origin, message] => ofParts kind origin message
  | _ => none

/-- The failure that a JSON text spells. -/
def ofJson? (text : String) : Option Failure := (Json.parse text).bind ofTree

end Failure

end RowVault
