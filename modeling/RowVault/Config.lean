import RowVault.Error

/-!
# Configuration

Whether scans are narrowed to the ranges that a strategy gives for a query, how many ranges it may
give, and the limit of queries that set none. At least one range must be allowed.
-/

namespace RowVault

/-- The settings of a store. -/
structure Config where
  rangeScan : Bool := true
  maxQueryRanges : Option Nat := none
  defaultLimit : Option Nat := none
  deriving DecidableEq, Repr

/-- Why a configuration is refused. -/
inductive ConfigError where
  | malformed (reason : String)
  | zeroMaxRanges
  deriving DecidableEq, Repr

namespace ConfigError

/-- The text of an error. -/
def message : ConfigError → String
  | malformed reason => s!"invalid store config: {reason}"
  | zeroMaxRanges => "max_query_ranges must be greater than zero"

/-- A configuration that is refused is not supported. -/
def toFailure (e : ConfigError) : Failure := ⟨.unsupported, .config, e.message⟩

end ConfigError

/-- The configuration itself, if it allows at least one range. -/
def Config.validate (c : Config) : Except ConfigError Config :=
  if c.maxQueryRanges = some 0 then .error .zeroMaxRanges else .ok c

end RowVault
