import RowVault.Error
import RowVault.Visibility.Formula

/-!
# Reading visibility formulas

Operands are labels or parenthesised groups, and one level of parentheses joins its operands by one
connective only. A group of the connective that it stands under gives its operands to it, so that
reading yields normal formulas.

Reading goes once over the bytes. Its state holds the levels of parentheses that are open, each
with the operands it has joined so far, and the operand at hand: a group that has been closed, and
the bytes of a label, last byte first. An error names the position of a byte, and is decided by the
bytes up to the one at which reading stops.
-/

namespace RowVault.Visibility

/-- The number of levels of parentheses that may be open at once. -/
def maxNesting : Nat := 64

/-- Why a byte string is no formula. Positions count bytes from the start. -/
inductive ParseError where
  | mixedOperators (position : Nat)
  | emptyTerm (position : Nat)
  | unbalancedParens (position : Nat)
  | missingTerm (position : Nat)
  | missingOperator (position : Nat)
  | nestingTooDeep (position max : Nat)
  deriving DecidableEq, Repr

namespace ParseError

/-- The byte that an error is about. -/
def position : ParseError → Nat
  | mixedOperators p => p
  | emptyTerm p => p
  | unbalancedParens p => p
  | missingTerm p => p
  | missingOperator p => p
  | nestingTooDeep p _ => p

/-- The text of an error. -/
def message : ParseError → String
  | mixedOperators p => s!"cannot mix '&' and '|' without parentheses at {p}"
  | emptyTerm p => s!"empty term at {p}"
  | unbalancedParens p => s!"unbalanced parentheses at {p}"
  | missingTerm p => s!"operator is missing its right-hand term at {p}"
  | missingOperator p => s!"expression needs '&' or '|' at {p}"
  | nestingTooDeep p max => s!"parentheses nested deeper than {max} at {p}"

/-- A malformed formula is input that the library does not support. -/
def toFailure (e : ParseError) : Failure := ⟨.unsupported, .visibility, e.message⟩

end ParseError

/-- The operands that a level of parentheses has joined; absent before its first operator. -/
abbrev Level := Option (Connective × List Formula)

/-- Join one more operand. -/
def Level.push (c : Connective) (f : Formula) : Level → Level
  | none => some (c, f.operandsUnder c)
  | some (d, fs) => some (d, fs ++ f.operandsUnder d)

/-- The formula of a level, given its last operand. -/
def Level.finish (last : Formula) : Level → Formula
  | none => last
  | some (c, fs) => .group c (fs ++ last.operandsUnder c)

/-- What has been read of a formula. -/
structure Progress where
  /-- The levels around the current one, innermost first. -/
  outer : List Level := []
  level : Level := none
  /-- The group that has just been closed, if the operand at hand is one. -/
  closed : Option Formula := none
  /-- The bytes of the label at hand, last byte first. -/
  label : Bytes := []
  position : Nat := 0

namespace Progress

/-- The operand that ends at the current position: a label or a closed group, not both. -/
def operand (s : Progress) : Except ParseError Formula :=
  match s.closed, s.label with
  | none, [] => .error (.emptyTerm s.position)
  | some f, [] => .ok f
  | none, label => .ok (.term label.reverse)
  | some _, label => .error (.missingOperator (s.position - label.length))

/-- The last operand of a level. After an operator it is missing, rather than empty. -/
def lastOperand (s : Progress) : Except ParseError Formula :=
  match s.level, s.closed, s.label with
  | some _, none, [] => .error (.missingTerm s.position)
  | _, _, _ => s.operand

/-- The state after an operator. -/
def join (s : Progress) (c : Connective) : Except ParseError Progress :=
  match s.operand with
  | .error e => .error e
  | .ok f =>
    match s.level with
    | some (d, _) =>
      if d = c then
        .ok ⟨s.outer, s.level.push c f, none, [], s.position + 1⟩
      else .error (.mixedOperators s.position)
    | none => .ok ⟨s.outer, s.level.push c f, none, [], s.position + 1⟩

/-- The state after an opening parenthesis. -/
def enter (s : Progress) : Except ParseError Progress :=
  if s.closed.isSome ∨ s.label ≠ [] then .error (.missingOperator s.position)
  else if s.outer.length < maxNesting then
    .ok ⟨s.level :: s.outer, none, none, [], s.position + 1⟩
  else .error (.nestingTooDeep s.position maxNesting)

/-- The state after a closing parenthesis. -/
def leave (s : Progress) : Except ParseError Progress :=
  match s.outer with
  | [] => .error (.unbalancedParens s.position)
  | level :: outer =>
    match s.lastOperand with
    | .error e => .error e
    | .ok f => .ok ⟨outer, level, some (s.level.finish f), [], s.position + 1⟩

/-- The state after one more byte. -/
def step (s : Progress) (b : UInt8) : Except ParseError Progress :=
  match Connective.ofByte? b with
  | some c => s.join c
  | none =>
    if b = openByte then s.enter
    else if b = closeByte then s.leave
    else .ok { s with label := b :: s.label, position := s.position + 1 }

/-- The state after more bytes. -/
def run (s : Progress) : Bytes → Except ParseError Progress
  | [] => .ok s
  | b :: rest =>
    match s.step b with
    | .error e => .error e
    | .ok s => s.run rest

/-- The formula that has been read, if it may end here. -/
def finish (s : Progress) : Except ParseError Formula :=
  match s.lastOperand with
  | .error e => .error e
  | .ok f =>
    match s.outer with
    | [] => .ok (s.level.finish f)
    | _ :: _ => .error (.unbalancedParens (s.position - 1))

/-- Reading goes on from where it stood. -/
theorem run_append (s : Progress) (xs ys : Bytes) :
    s.run (xs ++ ys) = s.run xs >>= fun t ↦ t.run ys := by
  induction xs generalizing s with
  | nil => rfl
  | cons b xs ih =>
    rw [List.cons_append, run, run]
    cases s.step b with
    | error e => rfl
    | ok t => exact ih t

end Progress

/-- The formula that a byte string spells. -/
def Formula.parse (bytes : Bytes) : Except ParseError Formula :=
  match Progress.run {} bytes with
  | .error e => .error e
  | .ok s => s.finish

/-- No formula begins with a closing parenthesis. -/
theorem Formula.parse_closeByte_cons (rest : Bytes) :
    parse (closeByte :: rest) = .error (.unbalancedParens 0) := rfl

end RowVault.Visibility
