import Std.Data.ExtTreeSet
import RowVault.Bytes

/-!
# Visibility formulas

A visibility formula says which label sets may see a field: a term asks for one label, and
operands are joined by a connective that asks for all or for any of them. A formula is normal if
every connective joins at least two operands, none of which is a group of the same connective, and
every term is a non-empty label without operator or parenthesis bytes.
-/

namespace RowVault

/-- The label set that a caller holds. -/
abbrev Labels := Std.ExtTreeSet Bytes

namespace Visibility

/-- How operands are joined. -/
inductive Connective where
  | all
  | any
  deriving DecidableEq, Repr

namespace Connective

/-- The byte that stands between operands. -/
def byte : Connective → UInt8
  | all => 0x26
  | any => 0x7C

/-- The connective of an operator byte. -/
def ofByte? (b : UInt8) : Option Connective :=
  if b = all.byte then some all else if b = any.byte then some any else none

end Connective

/-- The byte that opens a group. -/
def openByte : UInt8 := 0x28

/-- The byte that closes a group. -/
def closeByte : UInt8 := 0x29

/-- Operator and parenthesis bytes; every other byte may stand in a label. -/
def isReserved (b : UInt8) : Bool :=
  b == Connective.all.byte || b == Connective.any.byte || b == openByte || b == closeByte

/-- A formula as a tree. -/
inductive Formula where
  | term (label : Bytes)
  | group (connective : Connective) (operands : List Formula)
  deriving Repr

namespace Formula

/-- The operands of a group; a term has none. -/
def operands : Formula → List Formula
  | term _ => []
  | group _ fs => fs

/-- The operands that a formula contributes to a group of a connective: those of a group of the
same connective, otherwise the formula itself. -/
def operandsUnder (c : Connective) : Formula → List Formula
  | term label => [term label]
  | group d fs => if d = c then fs else [group d fs]

mutual

/-- Whether a label set satisfies a formula. -/
def holds (labels : Labels) : Formula → Bool
  | term label => labels.contains label
  | group .all fs => allHold labels fs
  | group .any fs => anyHolds labels fs

/-- Whether a label set satisfies every formula of a list. -/
def allHold (labels : Labels) : List Formula → Bool
  | [] => true
  | f :: fs => holds labels f && allHold labels fs

/-- Whether a label set satisfies some formula of a list. -/
def anyHolds (labels : Labels) : List Formula → Bool
  | [] => false
  | f :: fs => holds labels f || anyHolds labels fs

end

/-- A group of all operands holds if each operand does. -/
@[simp] theorem allHold_eq (labels : Labels) (fs : List Formula) :
    allHold labels fs = fs.all (holds labels) := by
  induction fs with
  | nil => rfl
  | cons f fs ih => simp [allHold, ih]

/-- A group of any operands holds if one operand does. -/
@[simp] theorem anyHolds_eq (labels : Labels) (fs : List Formula) :
    anyHolds labels fs = fs.any (holds labels) := by
  induction fs with
  | nil => rfl
  | cons f fs ih => simp [anyHolds, ih]

/-- The label of a term must be held. -/
theorem holds_term (labels : Labels) (label : Bytes) :
    (term label).holds labels = labels.contains label := rfl

/-- Every operand of a conjunction must hold. -/
theorem holds_all (labels : Labels) (fs : List Formula) :
    (group .all fs).holds labels = fs.all (holds labels) := by
  simp [holds]

/-- Some operand of a disjunction must hold. -/
theorem holds_any (labels : Labels) (fs : List Formula) :
    (group .any fs).holds labels = fs.any (holds labels) := by
  simp [holds]

end Formula

end Visibility

end RowVault
