/-!
# Log records

What the library tells an operator: a level, a fixed message, and named texts in the order in
which they are stated.
-/

namespace RowVault

/-- How serious a log record is. -/
inductive LogLevel where
  | debug
  | warn
  | error
  deriving DecidableEq, Repr

/-- The level as a log shows it. -/
def LogLevel.label : LogLevel → String
  | debug => "DEBUG"
  | warn => "WARN"
  | error => "ERROR"

/-- One record of the log. -/
structure LogRecord where
  level : LogLevel
  message : String
  fields : List (String × String)
  deriving DecidableEq, Repr

end RowVault
