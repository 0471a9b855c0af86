import RowVault.Visibility.Parser

/-!
# Reading inside parentheses

What a formula reads as does not depend on the levels of parentheses around it, as long as there is
room for its own levels: reading goes through the same states, with the outer levels below them.
Where the levels are too many together, reading ends at the parenthesis that is one too deep.
-/

namespace RowVault.Visibility

/-- The deepest level of parentheses that bytes reach behind `depth` open ones. -/
def nestingFrom (depth : Nat) : Bytes → Nat
  | [] => depth
  | b :: rest =>
    if b = openByte then nestingFrom (depth + 1) rest
    else if b = closeByte then max depth (nestingFrom (depth - 1) rest)
    else nestingFrom depth rest

/-- How deep the parentheses of a formula nest. -/
def nesting (formula : Bytes) : Nat := nestingFrom 0 formula

/-- The levels that are open at the start count. -/
theorem le_nestingFrom (depth : Nat) (bytes : Bytes) : depth ≤ nestingFrom depth bytes := by
  induction bytes generalizing depth with
  | nil => exact Nat.le_refl _
  | cons b rest ih =>
    unfold nestingFrom
    split
    · exact Nat.le_trans (Nat.le_succ _) (ih _)
    · split
      · exact Nat.le_max_left _ _
      · exact ih _

private theorem ofByte?_openByte : Connective.ofByte? openByte = none := by decide

private theorem ofByte?_closeByte : Connective.ofByte? closeByte = none := by decide

private theorem closeByte_ne_openByte : closeByte ≠ openByte := by decide

namespace Progress

variable {s t : Progress} {b : UInt8} {c : Connective} {f : Formula}

/-- The same progress, further on and inside more levels. -/
def inside (s : Progress) (around : List Level) (offset : Nat) : Progress where
  outer := s.outer ++ around
  level := s.level
  closed := s.closed
  label := s.label
  position := s.position + offset

/-- The operand at hand is the same inside more levels. -/
theorem operand_inside (around : List Level) (offset : Nat) (h : s.operand = .ok f) :
    (s.inside around offset).operand = .ok f := by
  unfold operand at h ⊢
  rcases s with ⟨outer, level, closed, label, position⟩
  cases closed <;> cases label <;> simp_all [inside]

/-- The last operand of a level is the same inside more levels. -/
theorem lastOperand_inside (around : List Level) (offset : Nat) (h : s.lastOperand = .ok f) :
    (s.inside around offset).lastOperand = .ok f := by
  rcases s with ⟨outer, level, closed, label, position⟩
  unfold lastOperand at h ⊢
  cases level with
  | none => exact operand_inside around offset h
  | some joined =>
    cases closed with
    | some g => exact operand_inside around offset h
    | none =>
      cases label with
      | nil => cases h
      | cons b rest => exact operand_inside around offset h

/-- An operator ends an operand; the levels around stay as they are. -/
theorem outer_join (h : s.join c = .ok t) : t.outer = s.outer := by
  unfold join at h
  split at h
  · cases h
  · split at h
    · split at h
      · cases h
        rfl
      · cases h
    · cases h
      rfl

/-- Inside more levels, an operator is read in the same way. -/
theorem join_inside (around : List Level) (offset : Nat) (h : s.join c = .ok t) :
    (s.inside around offset).join c = .ok (t.inside around offset) := by
  unfold join at h ⊢
  cases ho : s.operand with
  | error e =>
    rw [ho] at h
    cases h
  | ok f =>
    rw [ho] at h
    rw [operand_inside around offset ho]
    have hl : (s.inside around offset).level = s.level := rfl
    rw [hl]
    cases hs : s.level with
    | none =>
      rw [hs] at h
      cases h
      simp [inside, Nat.add_right_comm]
    | some joined =>
      rw [hs] at h
      dsimp only at h ⊢
      split at h
      · next hc =>
        cases h
        simp [inside, hc, Nat.add_right_comm]
      · cases h

/-- Inside more levels, an opening parenthesis is read in the same way while there is room. -/
theorem enter_inside (around : List Level) (offset : Nat) (h : s.enter = .ok t)
    (hd : s.outer.length + around.length < maxNesting) :
    (s.inside around offset).enter = .ok (t.inside around offset) := by
  unfold enter at h ⊢
  split at h
  · cases h
  · next hn =>
    split at h
    · cases h
      have hn' : ¬ ((s.inside around offset).closed.isSome ∨
          (s.inside around offset).label ≠ []) := hn
      have hd' : (s.inside around offset).outer.length < maxNesting := by
        simpa [inside] using hd
      rw [if_neg hn', if_pos hd']
      simp [inside, Nat.add_right_comm]
    · cases h

/-- Where there is no room for one more level, an opening parenthesis is refused. -/
theorem enter_inside_eq_error (around : List Level) (offset : Nat) (h : s.enter = .ok t)
    (hd : maxNesting ≤ s.outer.length + around.length) :
    (s.inside around offset).enter =
      .error (.nestingTooDeep (s.position + offset) maxNesting) := by
  unfold enter at h ⊢
  split at h
  · cases h
  · next hn =>
    have hn' : ¬ ((s.inside around offset).closed.isSome ∨
        (s.inside around offset).label ≠ []) := hn
    have hd' : ¬ (s.inside around offset).outer.length < maxNesting := by
      simpa [inside] using hd
    rw [if_neg hn', if_neg hd']
    rfl

/-- Inside more levels, a closing parenthesis is read in the same way. -/
theorem leave_inside (around : List Level) (offset : Nat) (h : s.leave = .ok t) :
    (s.inside around offset).leave = .ok (t.inside around offset) := by
  unfold leave at h ⊢
  cases ho : s.outer with
  | nil =>
    rw [ho] at h
    cases h
  | cons level outer =>
    have ho' : (s.inside around offset).outer = level :: (outer ++ around) := by
      simp [inside, ho]
    rw [ho'] at *
    rw [ho] at h
    cases hl : s.lastOperand with
    | error e =>
      rw [hl] at h
      cases h
    | ok f =>
      rw [hl] at h
      cases h
      rw [lastOperand_inside around offset hl]
      simp [inside, Nat.add_right_comm]

/-- What reading one byte can do. -/
theorem step_cases (h : s.step b = .ok t) :
    (b = openByte ∧ s.enter = .ok t) ∨ (b = closeByte ∧ s.leave = .ok t) ∨
      (b ≠ openByte ∧ b ≠ closeByte ∧
        ((∃ c, Connective.ofByte? b = some c ∧ s.join c = .ok t) ∨
          (Connective.ofByte? b = none ∧
            t = { s with label := b :: s.label, position := s.position + 1 }))) := by
  unfold step at h
  cases hc : Connective.ofByte? b with
  | some c =>
    rw [hc] at h
    refine .inr (.inr ⟨?_, ?_, .inl ⟨c, rfl, h⟩⟩)
    · rintro rfl
      rw [ofByte?_openByte] at hc
      cases hc
    · rintro rfl
      rw [ofByte?_closeByte] at hc
      cases hc
  | none =>
    rw [hc] at h
    dsimp only at h
    split at h
    · next ho => exact .inl ⟨ho, h⟩
    · next ho =>
      split at h
      · next hl => exact .inr (.inl ⟨hl, h⟩)
      · next hl => exact .inr (.inr ⟨ho, hl, .inr ⟨rfl, (Except.ok.inj h).symm⟩⟩)

/-- An opening parenthesis begins a level. -/
theorem step_openByte : s.step openByte = s.enter := rfl

/-- A closing parenthesis ends a level. -/
theorem step_closeByte : s.step closeByte = s.leave := rfl

/-- An opening parenthesis adds a level. -/
theorem length_outer_enter (h : s.enter = .ok t) : t.outer.length = s.outer.length + 1 := by
  unfold enter at h
  split at h
  · cases h
  · split at h
    · cases h
      rfl
    · cases h

/-- A closing parenthesis ends a level. -/
theorem length_outer_leave (h : s.leave = .ok t) : t.outer.length = s.outer.length - 1 := by
  unfold leave at h
  split at h
  · cases h
  · next level outer ho =>
    split at h
    · cases h
    · cases h
      simp [ho]

/-- The depth reached by the rest of the bytes, seen from the state after the first one. -/
theorem nestingFrom_of_step (rest : Bytes) (h : s.step b = .ok t) :
    nestingFrom s.outer.length (b :: rest) =
      max s.outer.length (nestingFrom t.outer.length rest) := by
  rw [nestingFrom]
  rcases step_cases h with ⟨rfl, h⟩ | ⟨rfl, h⟩ | ⟨ho, hl, h⟩
  · have := le_nestingFrom t.outer.length rest
    rw [if_pos rfl, length_outer_enter h] at *
    omega
  · rw [if_neg closeByte_ne_openByte, if_pos rfl, length_outer_leave h]
  · have ht : t.outer = s.outer := by
      rcases h with ⟨c, -, h⟩ | ⟨-, rfl⟩
      · exact outer_join h
      · rfl
    have := le_nestingFrom s.outer.length rest
    rw [if_neg ho, if_neg hl, ht]
    omega

/-- A byte is read in the same way inside more levels, if there is room for the one it may open. -/
theorem step_inside (around : List Level) (offset : Nat) (h : s.step b = .ok t)
    (hd : t.outer.length + around.length ≤ maxNesting) :
    (s.inside around offset).step b = .ok (t.inside around offset) := by
  rcases step_cases h with ⟨rfl, h⟩ | ⟨rfl, h⟩ | ⟨ho, hl, h⟩
  · rw [length_outer_enter h] at hd
    exact enter_inside around offset h (by omega)
  · exact leave_inside around offset h
  · unfold step
    rcases h with ⟨c, hc, h⟩ | ⟨hc, rfl⟩
    · rw [hc]
      exact join_inside around offset h
    · rw [hc]
      dsimp only
      rw [if_neg ho, if_neg hl]
      simp [inside, Nat.add_right_comm]

/-- Bytes are read in the same way inside more levels, if there is room for those they open. -/
theorem run_inside (around : List Level) (offset : Nat) {bytes : Bytes} (h : s.run bytes = .ok t)
    (hd : nestingFrom s.outer.length bytes + around.length ≤ maxNesting) :
    (s.inside around offset).run bytes = .ok (t.inside around offset) := by
  induction bytes generalizing s with
  | nil =>
    cases h
    rfl
  | cons b rest ih =>
    unfold run at h ⊢
    cases hs : s.step b with
    | error e =>
      rw [hs] at h
      cases h
    | ok u =>
      rw [hs] at h
      rw [nestingFrom_of_step rest hs] at hd
      have hu := le_nestingFrom u.outer.length rest
      rw [step_inside around offset hs (by omega)]
      exact ih h (by omega)

/-- Bytes whose levels are too many inside the levels around them are not read. -/
theorem run_inside_eq_error (around : List Level) (offset : Nat) {bytes : Bytes}
    (h : s.run bytes = .ok t) (hs : s.outer.length + around.length ≤ maxNesting)
    (hd : maxNesting < nestingFrom s.outer.length bytes + around.length) :
    ∃ position, (s.inside around offset).run bytes =
      .error (.nestingTooDeep position maxNesting) := by
  induction bytes generalizing s with
  | nil => exact absurd hs (Nat.not_le.mpr hd)
  | cons b rest ih =>
    unfold run at h ⊢
    cases hb : s.step b with
    | error e =>
      rw [hb] at h
      cases h
    | ok u =>
      rw [hb] at h
      rw [nestingFrom_of_step rest hb] at hd
      by_cases hu : u.outer.length + around.length ≤ maxNesting
      · rw [step_inside around offset hb hu]
        exact ih h hu (by omega)
      · -- Only an opening parenthesis can take the levels over the bound.
        rcases step_cases hb with ⟨rfl, hb⟩ | ⟨rfl, hb⟩ | ⟨ho, hl, hb⟩
        · rw [step_openByte, enter_inside_eq_error around offset hb (by
            rw [length_outer_enter hb] at hu
            omega)]
          exact ⟨_, rfl⟩
        · rw [length_outer_leave hb] at hu
          omega
        · have ht : u.outer = s.outer := by
            rcases hb with ⟨c, -, hb⟩ | ⟨-, rfl⟩
            · exact outer_join hb
            · rfl
          rw [ht] at hu
          exact absurd hs hu

end Progress

end RowVault.Visibility
