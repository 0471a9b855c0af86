import Mathlib.Data.List.Induction
import RowVault.Proofs.Visibility.Reading

/-!
# Positions of errors

A byte string that is not read as a formula either ends too early, so that more bytes make it one,
or has a byte from which on nothing can. The error tells which, and in the second case its position
is that of such a byte. For most errors this is the byte at which reading stops. A label behind a
closed group is only found when it ends, and its first byte is named, after which no operator, and
no parenthesis, is read any more.
-/

namespace RowVault.Visibility

/-- Bytes with which some formula begins. -/
def Viable (bytes : Bytes) : Prop := ∃ more f, Formula.parse (bytes ++ more) = .ok f

/-- The error says that the formula ends too early: an operand is missing at the end, or a group is
not closed. -/
def ParseError.EndsEarly (formula : Bytes) : ParseError → Prop
  | emptyTerm p => p = formula.length
  | missingTerm p => p = formula.length
  | unbalancedParens p =>
    (formula.take (p + 1)).count closeByte < (formula.take (p + 1)).count openByte
  | mixedOperators _ => False
  | missingOperator _ => False
  | nestingTooDeep _ _ => False

/-- Whether a formula ends early is read off the position of its error. -/
instance (formula : Bytes) : DecidablePred (ParseError.EndsEarly formula)
  | .emptyTerm p => inferInstanceAs (Decidable (p = formula.length))
  | .missingTerm p => inferInstanceAs (Decidable (p = formula.length))
  | .unbalancedParens p => inferInstanceAs (Decidable
    ((formula.take (p + 1)).count closeByte < (formula.take (p + 1)).count openByte))
  | .mixedOperators _ => .isFalse id
  | .missingOperator _ => .isFalse id
  | .nestingTooDeep _ _ => .isFalse id

namespace Progress

variable {s t : Progress} {b : UInt8} {bytes : Bytes} {e : ParseError} {f : Formula}

/-- A label has begun behind a closed group. -/
def Blocked (s : Progress) : Prop := s.closed.isSome = true ∧ s.label ≠ []

/-! ## Where errors come from -/

/-- An operand is missing, or there are two in one place. -/
theorem operand_eq_error (h : s.operand = .error e) :
    (s.AtOperand ∧ e = .emptyTerm s.position) ∨
      (s.Blocked ∧ e = .missingOperator (s.position - s.label.length)) := by
  unfold operand at h
  cases hc : s.closed with
  | none =>
    cases hl : s.label with
    | nil =>
      rw [hc, hl] at h
      exact .inl ⟨⟨hc, hl⟩, (Except.error.inj h).symm⟩
    | cons b rest =>
      rw [hc, hl] at h
      cases h
  | some g =>
    cases hl : s.label with
    | nil =>
      rw [hc, hl] at h
      cases h
    | cons b rest =>
      rw [hc, hl] at h
      exact .inr ⟨⟨by rw [hc]; rfl, by rw [hl]; exact List.cons_ne_nil b rest⟩,
        (Except.error.inj h).symm⟩

/-- The last operand of a level is missing, or there are two in its place. -/
theorem lastOperand_eq_error (h : s.lastOperand = .error e) :
    (s.AtOperand ∧ (e = .emptyTerm s.position ∨ e = .missingTerm s.position)) ∨
      (s.Blocked ∧ e = .missingOperator (s.position - s.label.length)) := by
  unfold lastOperand at h
  split at h
  · next hc hl => exact .inl ⟨⟨hc, hl⟩, .inr (Except.error.inj h).symm⟩
  · rcases operand_eq_error h with ⟨hs, he⟩ | hs
    · exact .inl ⟨hs, .inl he⟩
    · exact .inr hs

/-- An operand is missing before an operator, or the operator is not that of its level. -/
theorem join_eq_error {c : Connective} (h : s.join c = .error e) :
    s.operand = .error e ∨ e = .mixedOperators s.position := by
  unfold join at h
  split at h
  · next d hd =>
    cases h
    exact .inl hd
  · split at h
    · split at h
      · cases h
      · exact .inr (Except.error.inj h).symm
    · cases h

/-- An opening parenthesis stands behind an operand or is one too deep. -/
theorem enter_eq_error (h : s.enter = .error e) :
    e = .missingOperator s.position ∨ e = .nestingTooDeep s.position maxNesting := by
  unfold enter at h
  split at h
  · exact .inl (Except.error.inj h).symm
  · split at h
    · cases h
    · exact .inr (Except.error.inj h).symm

/-- A closing parenthesis closes nothing or stands behind something that is no operand. -/
theorem leave_eq_error (h : s.leave = .error e) :
    (s.outer = [] ∧ e = .unbalancedParens s.position) ∨ s.lastOperand = .error e := by
  unfold leave at h
  split at h
  · next ho => exact .inl ⟨ho, (Except.error.inj h).symm⟩
  · split at h
    · next d hd =>
      cases h
      exact .inr hd
    · cases h

/-- A byte that is not read is named, unless a label has begun behind a group. -/
theorem step_eq_error (h : s.step b = .error e) :
    (s.Blocked ∧ e = .missingOperator (s.position - s.label.length)) ∨
      (e.position = s.position ∧
        ∀ p, e = .unbalancedParens p → b = closeByte ∧ s.outer = []) := by
  unfold step at h
  split at h
  · rcases join_eq_error h with hoperand | rfl
    · rcases operand_eq_error hoperand with ⟨-, rfl⟩ | hs
      · exact .inr ⟨rfl, nofun⟩
      · exact .inl hs
    · exact .inr ⟨rfl, nofun⟩
  · split at h
    · rcases enter_eq_error h with rfl | rfl
      · exact .inr ⟨rfl, nofun⟩
      · exact .inr ⟨rfl, nofun⟩
    · split at h
      · next hb =>
        rcases leave_eq_error h with ⟨ho, rfl⟩ | hlast
        · exact .inr ⟨rfl, fun _ _ ↦ ⟨hb, ho⟩⟩
        · rcases lastOperand_eq_error hlast with ⟨-, rfl | rfl⟩ | hs
          · exact .inr ⟨rfl, nofun⟩
          · exact .inr ⟨rfl, nofun⟩
          · exact .inl hs
      · cases h

/-- The formula ends without its last operand, with two in its place, or with open groups. -/
theorem finish_eq_error (h : s.finish = .error e) :
    (s.Blocked ∧ e = .missingOperator (s.position - s.label.length)) ∨
      (s.AtOperand ∧ (e = .emptyTerm s.position ∨ e = .missingTerm s.position)) ∨
      (s.outer ≠ [] ∧ (∃ f, s.lastOperand = .ok f) ∧ e = .unbalancedParens (s.position - 1)) := by
  unfold finish at h
  split at h
  · next hlast =>
    cases h
    exact (lastOperand_eq_error hlast).symm.imp_right .inl
  · next f hlast =>
    split at h
    · cases h
    · next ho => exact .inr (.inr ⟨by simp [ho], ⟨f, hlast⟩, (Except.error.inj h).symm⟩)

/-- Reading stops at a byte. -/
theorem exists_step_eq_error (h : s.run bytes = .error e) :
    ∃ front b rest t, bytes = front ++ b :: rest ∧ s.run front = .ok t ∧ t.step b = .error e := by
  induction bytes generalizing s with
  | nil => cases h
  | cons b rest ih =>
    unfold run at h
    cases hb : s.step b with
    | error d =>
      rw [hb] at h
      cases h
      exact ⟨[], b, rest, s, rfl, rfl, hb⟩
    | ok u =>
      rw [hb] at h
      obtain ⟨front, c, rest, t, rfl, hfront, hc⟩ := ih h
      exact ⟨b :: front, c, rest, t, rfl, (run_cons_of_eq_ok hb front).trans hfront, hc⟩

/-- The last byte is read from where the bytes before it have led. -/
theorem exists_step_of_run_append (h : s.run (bytes ++ [b]) = .ok t) :
    ∃ u, s.run bytes = .ok u ∧ u.step b = .ok t := by
  rw [run_append] at h
  cases hu : s.run bytes with
  | error e =>
    rw [hu] at h
    cases h
  | ok u =>
    rw [hu] at h
    obtain ⟨v, hb, hv⟩ := run_cons_eq_ok_iff.mp h
    cases hv
    exact ⟨u, rfl, hb⟩

/-! ## What has been read -/

/-- Each byte that is read counts. -/
theorem position_step (h : s.step b = .ok t) : t.position = s.position + 1 := by
  rcases step_cases h with ⟨-, h⟩ | ⟨-, h⟩ | ⟨-, -, ⟨c, -, h⟩ | ⟨-, rfl⟩⟩
  · obtain ⟨-, -, -, rfl⟩ := enter_eq_ok_iff.mp h
    rfl
  · obtain ⟨_, _, _, -, -, rfl⟩ := leave_eq_ok_iff.mp h
    rfl
  · obtain ⟨_, _, -, -, rfl⟩ := join_eq_ok_iff.mp h
    rfl
  · rfl

/-- A run counts the bytes that it reads. -/
theorem position_run (h : s.run bytes = .ok t) : t.position = s.position + bytes.length := by
  induction bytes generalizing s with
  | nil =>
    cases h
    rfl
  | cons b rest ih =>
    obtain ⟨u, hb, h⟩ := run_cons_eq_ok_iff.mp h
    rw [ih h, position_step hb, List.length_cons]
    omega

/-- The position is the number of bytes that have been read. -/
theorem position_eq (h : run {} bytes = .ok s) : s.position = bytes.length := by
  rw [position_run h]
  exact Nat.zero_add _

/-- An opening parenthesis adds a level, and a closing one ends one. -/
theorem length_outer_step_add (h : s.step b = .ok t) :
    t.outer.length + [b].count closeByte = s.outer.length + [b].count openByte := by
  rcases step_cases h with ⟨rfl, h⟩ | ⟨rfl, h⟩ | ⟨ho, hl, ⟨c, -, h⟩ | ⟨-, rfl⟩⟩
  · rw [length_outer_enter h]
    rfl
  · obtain ⟨level, outer, f, houter, -, rfl⟩ := leave_eq_ok_iff.mp h
    rw [houter]
    rfl
  · rw [outer_join h, List.count_singleton, List.count_singleton]
    simp [ho, hl]
  · simp [ho, hl]

/-- The open levels are the parentheses that have been opened and not closed. -/
theorem length_outer_run_add (h : s.run bytes = .ok t) :
    t.outer.length + bytes.count closeByte = s.outer.length + bytes.count openByte := by
  induction bytes generalizing s with
  | nil =>
    cases h
    rfl
  | cons b rest ih =>
    obtain ⟨u, hb, h⟩ := run_cons_eq_ok_iff.mp h
    have hu := ih h
    have hs := length_outer_step_add hb
    have hcount (a : UInt8) : (b :: rest).count a = [b].count a + rest.count a := by
      rw [← List.count_append, List.singleton_append]
    rw [hcount, hcount]
    omega

/-! ## Bytes with which no formula begins -/

/-- A label behind a group is no operand. -/
theorem Blocked.operand_ne (h : s.Blocked) (f : Formula) : s.operand ≠ .ok f := by
  intro hf
  rcases operand_eq_ok_iff.mp hf with ⟨-, hl⟩ | ⟨hc, -, -⟩
  · exact h.2 hl
  · rw [Blocked, hc] at h
    cases h.1

/-- Behind a label behind a group, only more bytes of the label are read. -/
theorem Blocked.step (h : s.Blocked) (hs : s.step b = .ok t) : t.Blocked := by
  rcases step_cases hs with ⟨-, hs⟩ | ⟨-, hs⟩ | ⟨-, -, ⟨c, -, hs⟩ | ⟨-, rfl⟩⟩
  · obtain ⟨-, hl, -, -⟩ := enter_eq_ok_iff.mp hs
    exact absurd hl h.2
  · obtain ⟨_, _, f, -, hf, -⟩ := leave_eq_ok_iff.mp hs
    exact absurd hf (h.operand_ne f)
  · obtain ⟨f, _, hf, -, -⟩ := join_eq_ok_iff.mp hs
    exact absurd hf (h.operand_ne f)
  · exact ⟨h.1, List.cons_ne_nil b s.label⟩

/-- Nothing gets past a label behind a group. -/
theorem Blocked.run (h : s.Blocked) (hs : s.run bytes = .ok t) : t.Blocked := by
  induction bytes generalizing s with
  | nil =>
    cases hs
    exact h
  | cons b rest ih =>
    obtain ⟨u, hb, hs⟩ := run_cons_eq_ok_iff.mp hs
    exact ih (h.step hb) hs

/-- No formula begins with bytes that end in a label behind a group. -/
theorem Blocked.not_viable (h : t.Blocked) (hrun : Progress.run {} bytes = .ok t) :
    ¬ Viable bytes := by
  rintro ⟨more, f, hf⟩
  obtain ⟨u, last, hu, -, hlast, -⟩ := Formula.parse_eq_ok_iff.mp hf
  rw [run_append_of_eq_ok hrun] at hu
  exact (h.run hu).operand_ne last (lastOperand_eq_ok_iff.mp hlast)

/-- No formula begins with bytes that are not read. -/
theorem not_viable_of_run (h : Progress.run {} bytes = .error e) : ¬ Viable bytes := by
  rintro ⟨more, f, hf⟩
  obtain ⟨u, -, hu, -⟩ := Formula.parse_eq_ok_iff.mp hf
  rw [run_append, h] at hu
  cases hu

/-- A step that leads to a label behind a group has read a byte of it. -/
theorem Blocked.eq_of_step (h : t.Blocked) (hs : s.step b = .ok t) :
    t = { s with label := b :: s.label, position := s.position + 1 } := by
  rcases step_cases hs with ⟨-, hs⟩ | ⟨-, hs⟩ | ⟨-, -, ⟨c, -, hs⟩ | ⟨-, ht⟩⟩
  · obtain ⟨-, -, -, rfl⟩ := enter_eq_ok_iff.mp hs
    exact absurd rfl h.2
  · obtain ⟨_, _, _, -, -, rfl⟩ := leave_eq_ok_iff.mp hs
    exact absurd rfl h.2
  · obtain ⟨_, _, -, -, rfl⟩ := join_eq_ok_iff.mp hs
    exact absurd rfl h.2
  · exact ht

/-- The first byte of a label behind a group is one with which no formula goes on. -/
theorem Blocked.not_viable_take (h : t.Blocked) (hrun : Progress.run {} bytes = .ok t) :
    t.position - t.label.length < bytes.length ∧
      ¬ Viable (bytes.take (t.position - t.label.length + 1)) := by
  induction bytes using List.reverseRecOn generalizing t with
  | nil =>
    cases hrun
    cases h.1
  | append_singleton bytes b ih =>
    obtain ⟨s, hs, hb⟩ := exists_step_of_run_append hrun
    obtain rfl := h.eq_of_step hb
    rw [List.length_append, List.length_singleton]
    by_cases hl : s.label = []
    · -- The byte at hand is the first one of the label.
      simp only [hl, List.length_singleton, Nat.add_sub_cancel, position_eq hs]
      refine ⟨Nat.lt_succ_self _, ?_⟩
      rw [List.take_of_length_le (by simp)]
      exact h.not_viable hrun
    · have hblocked : s.Blocked := ⟨h.1, hl⟩
      obtain ⟨hlt, hnot⟩ := ih hblocked hs
      rw [List.length_cons, Nat.add_sub_add_right, List.take_append_of_le_length hlt]
      exact ⟨Nat.lt_succ_of_lt hlt, hnot⟩

/-! ## Bytes with which a formula begins -/

/-- Behind an operand, the open groups can be closed. -/
theorem exists_finish (hf : s.lastOperand = .ok f) :
    ∃ t g, s.run (List.replicate s.outer.length closeByte) = .ok t ∧ t.finish = .ok g := by
  induction ho : s.outer generalizing s f with
  | nil =>
    refine ⟨s, s.level.finish f, rfl, ?_⟩
    unfold finish
    rw [hf, ho]
  | cons level outer ih =>
    have hleave := leave_eq_ok_iff.mpr ⟨level, outer, f, ho, lastOperand_eq_ok_iff.mp hf, rfl⟩
    have hoperand := operand_eq_ok_iff (f := s.level.finish f)
      (s := ⟨outer, level, some (s.level.finish f), [], s.position + 1⟩)
    obtain ⟨t, g, hrun, hfinish⟩ :=
      ih (lastOperand_eq_ok_iff.mpr (hoperand.mpr (.inl ⟨rfl, rfl⟩))) rfl
    refine ⟨t, g, ?_, hfinish⟩
    rw [List.length_cons, List.replicate_succ, run_cons_of_eq_ok (step_closeByte.trans hleave)]
    exact hrun

/-- A formula begins with bytes that end in an operand. -/
theorem viable_of_lastOperand (hrun : Progress.run {} bytes = .ok s) (hf : s.lastOperand = .ok f) :
    Viable bytes := by
  obtain ⟨t, g, hclose, hg⟩ := exists_finish hf
  refine ⟨List.replicate s.outer.length closeByte, g, ?_⟩
  unfold Formula.parse
  rw [run_append_of_eq_ok hrun, hclose]
  exact hg

/-- A formula begins with bytes behind which an operand may stand. -/
theorem AtOperand.viable (h : s.AtOperand) (hrun : Progress.run {} bytes = .ok s) :
    Viable bytes := by
  have hstep := run_cons_of_eq_ok (s.step_plain (b := 0x61) rfl) []
  have hrun' := (run_append_of_eq_ok hrun [0x61]).trans hstep
  obtain ⟨more, g, hg⟩ := viable_of_lastOperand hrun' (lastOperand_eq_ok_iff.mpr
    (operand_eq_ok_iff.mpr (.inr ⟨h.1, List.cons_ne_nil _ _, rfl⟩)))
  rw [List.append_assoc] at hg
  exact ⟨_, g, hg⟩

end Progress

/-! ## What errors say -/

variable {formula : Bytes} {e : ParseError}

namespace ParseError

/-- The error names a byte after which no formula goes on, and does not say that the formula ends
too early. -/
def BeyondRepair (formula : Bytes) (e : ParseError) : Prop :=
  ¬ e.EndsEarly formula ∧ e.position < formula.length ∧
    ¬ Viable (formula.take (e.position + 1))

end ParseError

namespace Progress

variable {s : Progress}

/-- The first byte of a label behind a group is named. -/
theorem Blocked.beyondRepair (h : s.Blocked) {front : Bytes} (hrun : Progress.run {} front = .ok s)
    (rest : Bytes) :
    (ParseError.missingOperator (s.position - s.label.length)).BeyondRepair (front ++ rest) := by
  obtain ⟨hlt, hnot⟩ := h.not_viable_take hrun
  refine ⟨id, ?_, ?_⟩
  · rw [List.length_append]
    exact Nat.lt_add_right _ hlt
  · rw [ParseError.position, List.take_append_of_le_length hlt]
    exact hnot

/-- The byte at which reading stops is named, or one before it. -/
theorem beyondRepair_of_run (h : run {} formula = .error e) : e.BeyondRepair formula := by
  obtain ⟨front, b, rest, s, rfl, hs, hb⟩ := exists_step_eq_error h
  rcases step_eq_error hb with ⟨hblocked, rfl⟩ | ⟨he, hclose⟩
  · exact hblocked.beyondRepair hs (b :: rest)
  · have hposition : e.position = front.length := by
      rw [he, position_run hs]
      exact Nat.zero_add _
    have hlt : front.length < (front ++ b :: rest).length := by simp
    have htake : (front ++ b :: rest).take (front.length + 1) = front ++ [b] := by
      rw [List.take_length_add_append]
      rfl
    refine ⟨?_, by rwa [hposition], ?_⟩
    · intro hearly
      cases e with
      | emptyTerm p => exact Nat.ne_of_lt hlt (hposition.symm.trans hearly)
      | missingTerm p => exact Nat.ne_of_lt hlt (hposition.symm.trans hearly)
      | unbalancedParens p =>
        -- All groups that were opened have been closed, and the byte at hand closes one more.
        obtain ⟨rfl, houter⟩ := hclose p rfl
        have hcount := length_outer_run_add hs
        rw [houter] at hcount
        obtain rfl : p = front.length := hposition
        rw [ParseError.EndsEarly, htake, List.count_append, List.count_append] at hearly
        have hopen : [closeByte].count openByte = 0 := rfl
        have hclosed : [closeByte].count closeByte = 1 := rfl
        simp only [List.length_nil] at hcount
        omega
      | mixedOperators p => exact hearly
      | missingOperator p => exact hearly
      | nestingTooDeep p max => exact hearly
    · rw [hposition, htake]
      apply not_viable_of_run (e := e)
      rw [run_append_of_eq_ok hs, run, hb]

/-- The end is named if the formula ends too early. -/
theorem endsEarly_or_beyondRepair_of_finish (hrun : run {} formula = .ok s)
    (h : s.finish = .error e) :
    (e.EndsEarly formula ∧ e.position ≤ formula.length ∧ Viable formula) ∨
      e.BeyondRepair formula := by
  have hposition := position_eq hrun
  rcases finish_eq_error h with ⟨hblocked, rfl⟩ | ⟨hoperand, rfl | rfl⟩ | ⟨houter, ⟨f, hf⟩, rfl⟩
  · refine .inr ?_
    have hbeyond := hblocked.beyondRepair hrun []
    rwa [List.append_nil] at hbeyond
  · exact .inl ⟨hposition, Nat.le_of_eq hposition, hoperand.viable hrun⟩
  · exact .inl ⟨hposition, Nat.le_of_eq hposition, hoperand.viable hrun⟩
  · refine .inl ⟨?_, ?_, viable_of_lastOperand hrun hf⟩
    · have hcount := length_outer_run_add hrun
      have hlength := List.length_pos_iff.mpr houter
      rw [ParseError.EndsEarly, List.take_of_length_le (by omega)]
      simp only [List.length_nil] at hcount
      omega
    · rw [ParseError.position]
      omega

end Progress

/-- Positions of errors are honest. They lie in the formula or at its end. If the error says that
the formula ends too early, it is the beginning of one that is read; otherwise, none that is read
begins with the bytes up to and including the one that is named. -/
theorem error_positions_honest (h : Formula.parse formula = .error e) :
    e.position ≤ formula.length ∧
      (e.EndsEarly formula → ∃ more f, Formula.parse (formula ++ more) = .ok f) ∧
      (¬ e.EndsEarly formula → e.position < formula.length ∧
        ∀ more f, Formula.parse (formula.take (e.position + 1) ++ more) ≠ .ok f) := by
  have hcases : (e.EndsEarly formula ∧ e.position ≤ formula.length ∧ Viable formula) ∨
      e.BeyondRepair formula := by
    unfold Formula.parse at h
    split at h
    · next hrun =>
      cases h
      exact .inr (Progress.beyondRepair_of_run hrun)
    · next hrun => exact Progress.endsEarly_or_beyondRepair_of_finish hrun h
  rcases hcases with ⟨hearly, hle, hviable⟩ | ⟨hearly, hlt, hnot⟩
  · exact ⟨hle, fun _ ↦ hviable, fun hn ↦ absurd hearly hn⟩
  · exact ⟨Nat.le_of_lt hlt, fun he ↦ absurd he hearly,
      fun _ ↦ ⟨hlt, fun more f hf ↦ hnot ⟨more, f, hf⟩⟩⟩

/-- A label behind a group is refused at its first byte, although it is found at its end. A group
that is open at the end can be closed; one that was never opened cannot. -/
theorem error_positions_honest_groups :
    let behind : Bytes := [0x28, 0x61, 0x29, 0x62, 0x63]
    let unclosed : Bytes := [0x28, 0x61, 0x7C]
    let unopened : Bytes := [0x61, 0x29, 0x28]
    (Formula.parse behind = .error (.missingOperator 3) ∧
      ∀ more f, Formula.parse (behind.take 4 ++ more) ≠ .ok f) ∧
    (Formula.parse unclosed = .error (.missingTerm 3) ∧
      ∃ more f, Formula.parse (unclosed ++ more) = .ok f) ∧
    (Formula.parse unopened = .error (.unbalancedParens 1) ∧
      ∀ more f, Formula.parse (unopened.take 2 ++ more) ≠ .ok f) := by
  intro behind unclosed unopened
  have hbehind : Formula.parse behind = .error (.missingOperator 3) := rfl
  have hunclosed : Formula.parse unclosed = .error (.missingTerm 3) := rfl
  have hunopened : Formula.parse unopened = .error (.unbalancedParens 1) := rfl
  refine ⟨⟨hbehind, ?_⟩, ⟨hunclosed, ?_⟩, ⟨hunopened, ?_⟩⟩
  · exact ((error_positions_honest hbehind).2.2 (by decide)).2
  · exact (error_positions_honest hunclosed).2.1 (by decide)
  · exact ((error_positions_honest hunopened).2.2 (by decide)).2

end RowVault.Visibility
