import RowVault.Proofs.Visibility.Nesting
import RowVault.Visibility.Decision

/-!
# Joined formulas

The formula that joins two formulas reads as the conjunction of the two, as long as there is room
for the level of parentheses around each of them. It admits exactly the callers whom both admit.
Where a side is malformed, or nests as deep as a formula may, the joined formula admits no one, so
it never admits more than either side.
-/

namespace RowVault.Visibility

variable {left right formula : Bytes} {f g : Formula}

/-- A formula is read to its end at its outermost level, where its last operand ends it. -/
theorem Formula.parse_eq_ok_iff :
    parse formula = .ok f ↔
      ∃ s last, Progress.run {} formula = .ok s ∧ s.outer = [] ∧ s.lastOperand = .ok last ∧
        s.level.finish last = f := by
  unfold parse
  cases hr : Progress.run {} formula with
  | error e => simp
  | ok s =>
    dsimp only
    unfold Progress.finish
    cases hl : s.lastOperand with
    | error e => simp [hl]
    | ok last => cases ho : s.outer <;> simp [hl, ho]

/-- A formula is not empty. -/
theorem Formula.ne_nil_of_parse (h : parse formula = .ok f) : formula ≠ [] := by
  rintro rfl
  cases h

namespace Progress

/-- What follows is read from where the reading of a beginning has led. -/
theorem run_append_of_eq_ok {s t : Progress} {bytes : Bytes} (h : s.run bytes = .ok t)
    (rest : Bytes) : s.run (bytes ++ rest) = t.run rest := by
  rw [run_append, h]
  rfl

/-- What follows is read from where the reading of the first byte has led. -/
theorem run_cons_of_eq_ok {s t : Progress} {b : UInt8} (h : s.step b = .ok t) (rest : Bytes) :
    s.run (b :: rest) = t.run rest := by
  rw [run, h]

/-- Bytes are read by reading the first one, and the others from where it has led. -/
theorem run_cons_eq_ok_iff {s t : Progress} {b : UInt8} {rest : Bytes} :
    s.run (b :: rest) = .ok t ↔ ∃ u, s.step b = .ok u ∧ u.run rest = .ok t := by
  rw [run]
  cases s.step b <;> simp

private theorem step_openByte_eq_inside {s : Progress} (hc : s.closed = none) (hl : s.label = [])
    (hs : s.outer.length < maxNesting) :
    s.step openByte = .ok (({} : Progress).inside (s.level :: s.outer) (s.position + 1)) := by
  rw [step_openByte, enter, if_neg (by simp [hc, hl]), if_pos hs]
  simp [inside]

/-- A formula in parentheses is read as one operand. -/
theorem run_parenthesised {s : Progress} (h : Formula.parse formula = .ok f)
    (hc : s.closed = none) (hl : s.label = [])
    (hd : nesting formula + (s.outer.length + 1) ≤ maxNesting) :
    ∃ position, s.run (openByte :: (formula ++ [closeByte])) =
      .ok ⟨s.outer, s.level, some f, [], position⟩ := by
  obtain ⟨t, last, ht, ho, hlast, rfl⟩ := Formula.parse_eq_ok_iff.mp h
  have henter := step_openByte_eq_inside hc hl (by omega)
  have hrun := run_inside (s.level :: s.outer) (s.position + 1) ht hd
  have hleave : (t.inside (s.level :: s.outer) (s.position + 1)).step closeByte =
      .ok ⟨s.outer, s.level, some (t.level.finish last), [],
        t.position + (s.position + 1) + 1⟩ := by
    rw [step_closeByte, leave, lastOperand_inside _ _ hlast]
    simp [inside, ho]
  refine ⟨t.position + (s.position + 1) + 1, ?_⟩
  rw [run_cons_of_eq_ok henter, run_append_of_eq_ok hrun, run_cons_of_eq_ok hleave]
  rfl

/-- A formula in parentheses is not read where it nests too deep. -/
theorem run_parenthesised_eq_error {s : Progress} (h : Formula.parse formula = .ok f)
    (hc : s.closed = none) (hl : s.label = []) (hs : s.outer.length < maxNesting)
    (hd : maxNesting < nesting formula + (s.outer.length + 1)) :
    ∃ position, s.run (openByte :: (formula ++ [closeByte])) =
      .error (.nestingTooDeep position maxNesting) := by
  obtain ⟨t, last, ht, ho, hlast, rfl⟩ := Formula.parse_eq_ok_iff.mp h
  have henter := step_openByte_eq_inside hc hl hs
  have hroom : ({} : Progress).outer.length + (s.level :: s.outer).length ≤ maxNesting := by
    simpa using Nat.succ_le_of_lt hs
  obtain ⟨position, hrun⟩ :=
    run_inside_eq_error (s.level :: s.outer) (s.position + 1) ht hroom hd
  refine ⟨position, ?_⟩
  rw [run_cons_of_eq_ok henter, run_append, hrun]
  rfl

end Progress

private theorem wrapped_eq (left right : Bytes) :
    wrapped left right =
      (openByte :: (left ++ [closeByte])) ++
        (Connective.all.byte :: (openByte :: (right ++ [closeByte]))) := by
  simp [wrapped]

private theorem step_all (position : Nat) (f : Formula) :
    Progress.step ⟨[], none, some f, [], position⟩ Connective.all.byte =
      .ok ⟨[], some (.all, f.operandsUnder .all), none, [], position + 1⟩ := rfl

/-- Two formulas with room for one more level read as the conjunction of their operands. -/
theorem parse_wrapped (hf : Formula.parse left = .ok f) (hg : Formula.parse right = .ok g)
    (hleft : nesting left < maxNesting) (hright : nesting right < maxNesting) :
    Formula.parse (wrapped left right) =
      .ok (.group .all (f.operandsUnder .all ++ g.operandsUnder .all)) := by
  obtain ⟨p, hp⟩ := Progress.run_parenthesised (s := {}) hf rfl rfl hleft
  obtain ⟨q, hq⟩ := Progress.run_parenthesised
    (s := ⟨[], some (.all, f.operandsUnder .all), none, [], p + 1⟩) hg rfl rfl hright
  unfold Formula.parse
  rw [wrapped_eq, Progress.run_append_of_eq_ok hp, Progress.run_cons_of_eq_ok (step_all p f), hq]
  rfl

/-- Two formulas, one of which has no room for one more level, are too deep together. -/
theorem parse_wrapped_eq_error (hf : Formula.parse left = .ok f) (hg : Formula.parse right = .ok g)
    (h : maxNesting ≤ nesting left ∨ maxNesting ≤ nesting right) :
    ∃ position, Formula.parse (wrapped left right) =
      .error (.nestingTooDeep position maxNesting) := by
  unfold Formula.parse
  rw [wrapped_eq]
  by_cases hleft : maxNesting ≤ nesting left
  · obtain ⟨p, hp⟩ := Progress.run_parenthesised_eq_error (s := {}) hf rfl rfl (by decide)
      (Nat.lt_succ_of_le hleft)
    refine ⟨p, ?_⟩
    rw [Progress.run_append, hp]
    rfl
  · obtain ⟨p, hp⟩ := Progress.run_parenthesised (s := {}) hf rfl rfl (Nat.not_le.mp hleft)
    obtain ⟨q, hq⟩ := Progress.run_parenthesised_eq_error
      (s := ⟨[], some (.all, f.operandsUnder .all), none, [], p + 1⟩) hg rfl rfl
      (by simp [maxNesting])
      (Nat.lt_succ_of_le (h.resolve_left hleft))
    refine ⟨q, ?_⟩
    rw [Progress.run_append_of_eq_ok hp, Progress.run_cons_of_eq_ok (step_all p f), hq]

/-- A formula holds if all operands that it gives to a conjunction hold. -/
theorem Formula.all_operandsUnder_all (labels : Labels) (f : Formula) :
    (f.operandsUnder .all).all (holds labels) = f.holds labels := by
  cases f with
  | term label => simp [operandsUnder]
  | group c fs => cases c <;> simp [operandsUnder, holds_all]

/-- A well-formed formula admits those for whom it holds. -/
theorem permits_of_parse (h : Formula.parse formula = .ok f) (labels : Labels) :
    permits formula labels = f.holds labels := by
  cases formula with
  | nil => exact absurd rfl (Formula.ne_nil_of_parse h)
  | cons b rest => simp [permits, h]

/-- A malformed formula admits no one. -/
theorem permits_of_parse_eq_error {e : ParseError} (hn : formula ≠ [])
    (h : Formula.parse formula = .error e) (labels : Labels) : permits formula labels = false := by
  cases formula with
  | nil => exact absurd rfl hn
  | cons b rest => simp [permits, h]

/-- Two well-formed formulas are joined as they are. -/
theorem conjoin_of_parse (hf : Formula.parse left = .ok f) (hg : Formula.parse right = .ok g) :
    conjoin left right = wrapped left right := by
  have hl := Formula.ne_nil_of_parse hf
  have hr := Formula.ne_nil_of_parse hg
  unfold conjoin
  split
  · exact absurd rfl hl
  · exact absurd rfl hr
  · simp [malformed?, hf, hg]

/-- A malformed side is joined behind a closing parenthesis. -/
theorem conjoin_of_malformed (hl : left ≠ []) (hr : right ≠ [])
    (h : (malformed? left right).isSome = true) :
    conjoin left right = closeByte :: wrapped left right := by
  unfold conjoin
  split
  · exact absurd rfl hl
  · exact absurd rfl hr
  · rw [if_pos h]

/-- A malformed side makes the joined formula malformed. -/
theorem permits_conjoin_of_malformed (hl : left ≠ []) (hr : right ≠ [])
    (h : (malformed? left right).isSome = true) (labels : Labels) :
    permits (conjoin left right) labels = false := by
  rw [conjoin_of_malformed hl hr h]
  exact permits_of_parse_eq_error (by simp) (Formula.parse_closeByte_cons _) labels

/-- Two formulas with room for one more level admit together whom both admit. -/
theorem permits_conjoin_of_parse (hf : Formula.parse left = .ok f)
    (hg : Formula.parse right = .ok g) (hleft : nesting left < maxNesting)
    (hright : nesting right < maxNesting) (labels : Labels) :
    permits (conjoin left right) labels = (permits left labels && permits right labels) := by
  rw [conjoin_of_parse hf hg, permits_of_parse (parse_wrapped hf hg hleft hright),
    permits_of_parse hf, permits_of_parse hg, Formula.holds_all, List.all_append,
    Formula.all_operandsUnder_all, Formula.all_operandsUnder_all]

/-- Two formulas, one of which has no room for one more level, admit no one together. -/
theorem permits_conjoin_of_deep (hf : Formula.parse left = .ok f)
    (hg : Formula.parse right = .ok g)
    (h : maxNesting ≤ nesting left ∨ maxNesting ≤ nesting right) (labels : Labels) :
    permits (conjoin left right) labels = false := by
  obtain ⟨position, he⟩ := parse_wrapped_eq_error hf hg h
  rw [conjoin_of_parse hf hg]
  exact permits_of_parse_eq_error (by simp [wrapped]) he labels

/-- A malformed side has an error, and it is the left one's if both sides have one. -/
theorem malformed?_isSome_iff :
    (malformed? left right).isSome = true ↔
      (∃ e, Formula.parse left = .error e) ∨ ∃ e, Formula.parse right = .error e := by
  unfold malformed?
  cases Formula.parse left <;> cases Formula.parse right <;> simp

/-- A joined formula admits whom both sides admit, if a side is empty or malformed, or if both have
room for one more level. -/
theorem permits_conjoin (labels : Labels)
    (h : left = [] ∨ right = [] ∨ (∃ e, Formula.parse left = .error e) ∨
      (∃ e, Formula.parse right = .error e) ∨
      (nesting left < maxNesting ∧ nesting right < maxNesting)) :
    permits (conjoin left right) labels = (permits left labels && permits right labels) := by
  by_cases hl : left = []
  · simp [hl]
  · by_cases hr : right = []
    · simp [hr]
    · cases hf : Formula.parse left with
      | error e =>
        rw [permits_conjoin_of_malformed hl hr (malformed?_isSome_iff.mpr (.inl ⟨e, hf⟩)),
          permits_of_parse_eq_error hl hf, Bool.false_and]
      | ok f =>
        cases hg : Formula.parse right with
        | error e =>
          rw [permits_conjoin_of_malformed hl hr (malformed?_isSome_iff.mpr (.inr ⟨e, hg⟩)),
            permits_of_parse_eq_error hr hg, Bool.and_false]
        | ok g =>
          have hd : nesting left < maxNesting ∧ nesting right < maxNesting := by
            simpa [hl, hr, hf, hg] using h
          exact permits_conjoin_of_parse hf hg hd.1 hd.2 labels

/-- Whatever the two sides are, joining them admits no one whom a side does not admit. -/
theorem permits_of_permits_conjoin {labels : Labels}
    (h : permits (conjoin left right) labels = true) :
    permits left labels = true ∧ permits right labels = true := by
  by_cases hd : left = [] ∨ right = [] ∨ (∃ e, Formula.parse left = .error e) ∨
      (∃ e, Formula.parse right = .error e) ∨
      (nesting left < maxNesting ∧ nesting right < maxNesting)
  · rwa [permits_conjoin labels hd, Bool.and_eq_true] at h
  · -- Both sides are well-formed, and one of them is as deep as a formula may be.
    simp only [not_or, not_exists] at hd
    obtain ⟨-, -, hf, hg, hroom⟩ := hd
    have hdeep : maxNesting ≤ nesting left ∨ maxNesting ≤ nesting right := by omega
    cases hf' : Formula.parse left with
    | error e => exact absurd hf' (hf e)
    | ok f =>
      cases hg' : Formula.parse right with
      | error e => exact absurd hg' (hg e)
      | ok g =>
        rw [permits_conjoin_of_deep hf' hg' hdeep] at h
        cases h

/-- Joining two formulas is their conjunction exactly up to the bound of nesting: as a decision, if
a side is empty or malformed or both sides nest less deep than a formula may; as a tree, if both
sides are formulas that do; and where a side is a formula as deep as one may be, no one is
admitted. -/
theorem conjoin_exact (left right : Bytes) :
    ((left = [] ∨ right = [] ∨ (∃ e, Formula.parse left = .error e) ∨
        (∃ e, Formula.parse right = .error e) ∨
        (nesting left ≤ 63 ∧ nesting right ≤ 63)) →
      ∀ labels, permits (conjoin left right) labels =
        (permits left labels && permits right labels)) ∧
    (∀ f g, Formula.parse left = .ok f → Formula.parse right = .ok g →
      nesting left ≤ 63 → nesting right ≤ 63 →
      Formula.parse (conjoin left right) =
        .ok (.group .all (f.operandsUnder .all ++ g.operandsUnder .all))) ∧
    (∀ f g, Formula.parse left = .ok f → Formula.parse right = .ok g →
      (nesting left = 64 ∨ nesting right = 64) →
      ∀ labels, permits (conjoin left right) labels = false) := by
  refine ⟨?_, ?_, ?_⟩
  · intro h labels
    apply permits_conjoin labels
    rcases h with h | h | h | h | ⟨hl, hr⟩
    · exact .inl h
    · exact .inr (.inl h)
    · exact .inr (.inr (.inl h))
    · exact .inr (.inr (.inr (.inl h)))
    · exact .inr (.inr (.inr (.inr ⟨Nat.lt_succ_of_le hl, Nat.lt_succ_of_le hr⟩)))
  · intro f g hf hg hl hr
    rw [conjoin_of_parse hf hg]
    exact parse_wrapped hf hg (Nat.lt_succ_of_le hl) (Nat.lt_succ_of_le hr)
  · intro f g hf hg hd labels
    have hdeep : maxNesting ≤ nesting left ∨ maxNesting ≤ nesting right :=
      hd.imp (fun h ↦ Nat.le_of_eq h.symm) (fun h ↦ Nat.le_of_eq h.symm)
    exact permits_conjoin_of_deep hf hg hdeep labels

/-- A disjunction and a label in parentheses are joined; a label inside 64 parentheses has no room
beside another one. -/
theorem conjoin_exact_any_and_deep :
    (nesting [0x61, 0x7C, 0x62] ≤ 63 ∧ nesting [0x28, 0x63, 0x29] ≤ 63 ∧
      Formula.parse (conjoin [0x61, 0x7C, 0x62] [0x28, 0x63, 0x29]) =
        .ok (.group .all [.group .any [.term [0x61], .term [0x62]], .term [0x63]]) ∧
      permits (conjoin [0x61, 0x7C, 0x62] [0x28, 0x63, 0x29]) ∅ =
        (permits [0x61, 0x7C, 0x62] ∅ && permits [0x28, 0x63, 0x29] ∅)) ∧
    (nesting (List.replicate 64 0x28 ++ [0x61] ++ List.replicate 64 0x29) = 64 ∧
      permits (conjoin (List.replicate 64 0x28 ++ [0x61] ++ List.replicate 64 0x29) [0x62]) ∅ =
        false) := by
  have hany : nesting [0x61, 0x7C, 0x62] ≤ 63 := by decide
  have hterm : nesting [0x28, 0x63, 0x29] ≤ 63 := by decide
  have hdeep : nesting (List.replicate 64 0x28 ++ [0x61] ++ List.replicate 64 0x29) = 64 := by
    decide +kernel
  refine ⟨⟨hany, hterm, ?_, ?_⟩, hdeep, ?_⟩
  · exact (conjoin_exact [0x61, 0x7C, 0x62] [0x28, 0x63, 0x29]).2.1
      (.group .any [.term [0x61], .term [0x62]]) (.term [0x63]) rfl rfl hany hterm
  · exact (conjoin_exact [0x61, 0x7C, 0x62] [0x28, 0x63, 0x29]).1
      (.inr (.inr (.inr (.inr ⟨hany, hterm⟩)))) ∅
  · exact (conjoin_exact (List.replicate 64 0x28 ++ [0x61] ++ List.replicate 64 0x29) [0x62]).2.2
      (.term [0x61]) (.term [0x62]) rfl rfl (.inl hdeep) ∅

end RowVault.Visibility
