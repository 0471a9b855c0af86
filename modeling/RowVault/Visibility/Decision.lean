import RowVault.Bytes.Lossy
import RowVault.Log
import RowVault.Visibility.Parser

/-!
# Visibility decisions

A field carries its formula as bytes. The empty formula admits every caller, and a malformed one
admits none. Two formulas are joined by writing each in parentheses around an `&`; the result
admits a caller if both do. A malformed side is written behind a closing parenthesis, with which
no formula begins, so the result is malformed as well.

Each decision that meets a malformed formula leaves a warning in the log.
-/

namespace RowVault.Visibility

/-- Whether a formula admits a caller who holds these labels. -/
def permits (formula : Bytes) (labels : Labels) : Bool :=
  match formula with
  | [] => true
  | _ :: _ =>
    match Formula.parse formula with
    | .ok f => f.holds labels
    | .error _ => false

/-- The empty formula asks for nothing. -/
@[simp] theorem permits_nil (labels : Labels) : permits [] labels = true := rfl

/-- A caller is admitted by the empty formula, and by a well-formed one that holds. -/
theorem permits_eq_true_iff {formula : Bytes} {labels : Labels} :
    permits formula labels = true ↔
      formula = [] ∨ ∃ f, Formula.parse formula = .ok f ∧ f.holds labels = true := by
  cases formula with
  | nil => simp
  | cons b rest =>
    unfold permits
    cases Formula.parse (b :: rest) <;> simp

/-- What deciding about a formula leaves in the log. -/
def permitsLog (formula : Bytes) : List LogRecord :=
  match formula with
  | [] => []
  | _ :: _ =>
    match Formula.parse formula with
    | .ok _ => []
    | .error e =>
      [⟨.warn, "invalid visibility expression; treating as unauthorized",
        [("visibility", formula.display), ("error", e.message)]⟩]

/-- Why one of two formulas is malformed; the left one is looked at first. -/
def malformed? (left right : Bytes) : Option ParseError :=
  match Formula.parse left, Formula.parse right with
  | .error e, _ => some e
  | .ok _, .error e => some e
  | .ok _, .ok _ => none

/-- Both formulas in parentheses, around an `&`. -/
def wrapped (left right : Bytes) : Bytes :=
  openByte :: left ++ [closeByte, Connective.all.byte, openByte] ++ right ++ [closeByte]

/-- The formula that asks for both of two formulas. -/
def conjoin (left right : Bytes) : Bytes :=
  match left, right with
  | [], right => right
  | left, [] => left
  | left, right =>
    if (malformed? left right).isSome then closeByte :: wrapped left right
    else wrapped left right

/-- The empty formula adds nothing on the left. -/
@[simp] theorem conjoin_nil_left (right : Bytes) : conjoin [] right = right := rfl

/-- The empty formula adds nothing on the right. -/
@[simp] theorem conjoin_nil_right (left : Bytes) : conjoin left [] = left := by
  cases left <;> rfl

/-- What joining two formulas leaves in the log. -/
def conjoinLog (left right : Bytes) : List LogRecord :=
  match left, right with
  | [], _ => []
  | _, [] => []
  | left, right =>
    match malformed? left right with
    | some e =>
      [⟨.warn, "merging an invalid visibility expression; result denies every caller",
        [("left", left.display), ("right", right.display), ("error", e.message)]⟩]
    | none => []

end RowVault.Visibility
