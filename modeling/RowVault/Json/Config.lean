import RowVault.Config
import RowVault.Json.Tree

/-!
# Configurations in JSON

A configuration is an object whose members are all optional and all known, each at most once, or an
array of their values in a fixed order, which may end early. Numbers are non-negative integers of at
most 64 bits, spelled in digits only, or null.
-/

namespace RowVault

/-- The integer that digits spell, if it has at most 64 bits. -/
def Json.count? (spelling : String) : Option Nat :=
  if spelling.toList.all Json.isDigit then spelling.toNat?.filter (· < UInt64.size) else none

/-- A number or null. -/
def Json.optionalCount? : Json → Option (Option Nat)
  | .null => some none
  | .number spelling => (count? spelling).map some
  | _ => none

/-- A truth value. -/
def Json.bool? : Json → Option Bool
  | .bool b => some b
  | _ => none

/-- The values of the named members, in the order of the names. Unknown members are refused unless
they may be passed over, and repeated ones always; every member must have a name that is text. -/
def Json.pick (names : List String) (unknownAllowed : Bool) :
    List (Option String × Json) → Option (List (Option Json))
  | [] => some (names.map fun _ ↦ none)
  | (none, _) :: _ => none
  | (some name, value) :: rest =>
    match pick names unknownAllowed rest, names.idxOf? name with
    | some values, some i =>
      match values[i]? with
      | some none => some (values.set i (some value))
      | _ => none
    | some values, none => if unknownAllowed then some values else none
    | none, _ => none

namespace Config

/-- The names of the settings, in the order of the array form. -/
def names : List String := ["range_scan", "max_query_ranges", "default_limit"]

/-- The configuration of settings in the fixed order; absent ones take their default. -/
def ofSettings : List (Option Json) → Option Config
  | [] => some {}
  | [rangeScan] => ofSettings3 rangeScan none none
  | [rangeScan, maxQueryRanges] => ofSettings3 rangeScan maxQueryRanges none
  | [rangeScan, maxQueryRanges, defaultLimit] => ofSettings3 rangeScan maxQueryRanges defaultLimit
  | _ => none
where
  /-- The configuration of the three settings. -/
  ofSettings3 (rangeScan maxQueryRanges defaultLimit : Option Json) : Option Config := do
    let rangeScan ← (rangeScan.map Json.bool?).getD (some true)
    let maxQueryRanges ← (maxQueryRanges.map Json.optionalCount?).getD (some none)
    let defaultLimit ← (defaultLimit.map Json.optionalCount?).getD (some none)
    return { rangeScan, maxQueryRanges, defaultLimit }

/-- The configuration of a JSON value. -/
def ofTree : Json → Option Config
  | .object members => (Json.pick names false members).bind ofSettings
  | .array items => ofSettings (items.map some)
  | _ => none

/-- The configuration that a JSON text spells. -/
def ofJson (text : String) : Except ConfigError Config :=
  match (Json.parse text).bind ofTree with
  | some c => c.validate
  | none => .error (.malformed "the text spells no configuration")

end Config

end RowVault
