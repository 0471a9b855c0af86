/-!
# Failures

Every error of the library is a cause with its own type. A cause becomes a `Failure` when it
crosses the library's boundary: a class that says how to treat it, the component it comes from,
and its message. Both tags have a label for messages and a name for the public form.
-/

namespace RowVault

/-- How a failure is to be treated. -/
inductive ErrorClass where
  | corruption
  | notFound
  | internal
  | unsupported
  | invariantViolation
  deriving DecidableEq, Repr

/-- The component in which a failure arose. -/
inductive ErrorOrigin where
  | rowId
  | visibility
  | encode
  | decode
  | store
  | statistics
  | config
  deriving DecidableEq, Repr

/-- The class as messages show it. -/
def ErrorClass.label : ErrorClass → String
  | corruption => "corruption"
  | notFound => "not_found"
  | internal => "internal"
  | unsupported => "unsupported"
  | invariantViolation => "invariant_violation"

/-- The class as the public form names it. -/
def ErrorClass.name : ErrorClass → String
  | corruption => "Corruption"
  | notFound => "NotFound"
  | internal => "Internal"
  | unsupported => "Unsupported"
  | invariantViolation => "InvariantViolation"

/-- Every class. -/
def ErrorClass.all : List ErrorClass :=
  [corruption, notFound, unsupported, invariantViolation, internal]

/-- The class of a public name. -/
def ErrorClass.ofName? (name : String) : Option ErrorClass := all.find? (·.name == name)

/-- The origin as messages show it. -/
def ErrorOrigin.label : ErrorOrigin → String
  | rowId => "row_id"
  | visibility => "visibility"
  | encode => "encode"
  | decode => "decode"
  | store => "store"
  | statistics => "statistics"
  | config => "config"

/-- The origin as the public form names it. -/
def ErrorOrigin.name : ErrorOrigin → String
  | rowId => "RowId"
  | visibility => "Visibility"
  | encode => "Encode"
  | decode => "Decode"
  | store => "Store"
  | statistics => "Statistics"
  | config => "Config"

/-- Every origin. -/
def ErrorOrigin.all : List ErrorOrigin :=
  [rowId, visibility, encode, decode, store, statistics, config]

/-- The origin of a public name. -/
def ErrorOrigin.ofName? (name : String) : Option ErrorOrigin := all.find? (·.name == name)

/-- A failure as it leaves the library. -/
structure Failure where
  kind : ErrorClass
  origin : ErrorOrigin
  message : String
  deriving DecidableEq, Repr

namespace Failure

/-- Whether something asked for is missing. -/
def isNotFound (f : Failure) : Bool := f.kind == .notFound

/-- Whether stored data is damaged. -/
def isCorruption (f : Failure) : Bool := f.kind == .corruption

/-- The message behind its origin and class. -/
def display (f : Failure) : String := s!"{f.origin.label}:{f.kind.label}: {f.message}"

end Failure

end RowVault
