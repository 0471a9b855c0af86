import RowVault.Proofs.Visibility.Conjunction
import RowVault.Proofs.Visibility.Grammar

/-!
# Reading follows the grammar

A byte string is read as a formula exactly if it has a derivation whose parentheses nest no deeper
than they may, and what is read is the formula of the derivation. In the one direction, reading goes
over what a derivation spells to the state in which its last operand is at hand. In the other one,
each state says what has been read: for every open level, the operands that it has joined, and the
operand at hand.
-/

namespace RowVault.Visibility

namespace Progress

variable {s t : Progress} {c : Connective} {f : Formula}

/-! ## What each kind of byte does -/

/-- The operand at hand is a closed group or a label, not both. -/
theorem operand_eq_ok_iff :
    s.operand = .ok f ↔
      (s.closed = some f ∧ s.label = []) ∨
        (s.closed = none ∧ s.label ≠ [] ∧ f = .term s.label.reverse) := by
  unfold operand
  cases s.closed <;> cases s.label <;> simp [eq_comm]

/-- A last operand is missing where any other one would be; only the error differs. -/
theorem lastOperand_eq_ok_iff : s.lastOperand = .ok f ↔ s.operand = .ok f := by
  unfold lastOperand
  split
  · next hc hl => simp [operand_eq_ok_iff, hc, hl]
  · rfl

/-- The operands that a level has joined by a connective, if it has joined any. -/
def Joined (level : Level) (c : Connective) (fs : List Formula) : Prop :=
  (level = none ∧ fs = []) ∨ level = some (c, fs)

/-- An operator adds the operand at hand to its level, which joins by this operator only. -/
theorem join_eq_ok_iff :
    s.join c = .ok t ↔
      ∃ f fs, s.operand = .ok f ∧ Joined s.level c fs ∧
        t = ⟨s.outer, some (c, fs ++ f.operandsUnder c), none, [], s.position + 1⟩ := by
  unfold join
  cases s.operand with
  | error e => simp
  | ok f =>
    cases hl : s.level with
    | none => simp [Joined, Level.push, eq_comm]
    | some joined =>
      obtain ⟨d, fs⟩ := joined
      by_cases hd : d = c
      · subst hd
        simp [Joined, Level.push, eq_comm]
      · simp [Joined, hd]

/-- An opening parenthesis stands where an operand begins, and opens a level if there is room. -/
theorem enter_eq_ok_iff :
    s.enter = .ok t ↔
      s.closed = none ∧ s.label = [] ∧ s.outer.length < maxNesting ∧
        t = ⟨s.level :: s.outer, none, none, [], s.position + 1⟩ := by
  unfold enter
  by_cases hc : s.closed = none
  · by_cases hl : s.label = []
    · by_cases hd : s.outer.length < maxNesting <;> simp [hc, hl, hd, eq_comm]
    · simp [hl]
  · simp [hc, Option.isSome_iff_ne_none]

/-- A closing parenthesis ends the current level with the operand at hand. -/
theorem leave_eq_ok_iff :
    s.leave = .ok t ↔
      ∃ level outer f, s.outer = level :: outer ∧ s.operand = .ok f ∧
        t = ⟨outer, level, some (s.level.finish f), [], s.position + 1⟩ := by
  unfold leave
  cases ho : s.outer with
  | nil => simp
  | cons level outer =>
    simp only [← lastOperand_eq_ok_iff, List.cons.injEq]
    constructor
    · intro h
      split at h
      · cases h
      · next f hf => exact ⟨level, outer, f, ⟨rfl, rfl⟩, hf, (Except.ok.inj h).symm⟩
    · rintro ⟨_, _, f, ⟨rfl, rfl⟩, hf, rfl⟩
      rw [hf]

/-- The byte of a connective joins operands by it. -/
theorem step_byte (s : Progress) (c : Connective) : s.step c.byte = s.join c := by
  cases c <;> rfl

/-- A byte that is not reserved belongs to a label. -/
theorem step_plain {b : UInt8} (hb : isReserved b = false) :
    s.step b = .ok { s with label := b :: s.label, position := s.position + 1 } := by
  simp only [isReserved, Bool.or_eq_false_iff, beq_eq_false_iff_ne] at hb
  have hc : Connective.ofByte? b = none := by
    rw [Connective.ofByte?, if_neg hb.1.1.1, if_neg hb.1.1.2]
  rw [step, hc]
  dsimp only
  rw [if_neg hb.1.2, if_neg hb.2]

/-- Bytes that are not reserved are read as a label. -/
theorem run_plain {bytes : Bytes} (h : ∀ b ∈ bytes, isReserved b = false) :
    s.run bytes = .ok { s with
      label := bytes.reverse ++ s.label, position := s.position + bytes.length } := by
  induction bytes generalizing s with
  | nil => rfl
  | cons b rest ih =>
    rw [run_cons_of_eq_ok (step_plain (h b (by simp))),
      ih fun a ha ↦ h a (List.mem_cons_of_mem b ha)]
    simp only [List.reverse_cons, List.append_assoc, List.singleton_append, List.length_cons]
    rw [Nat.add_assoc, Nat.add_comm 1]

/-- Nothing of an operand has been read. -/
def AtOperand (s : Progress) : Prop := s.closed = none ∧ s.label = []

end Progress

/-! ## Derivations are read -/

open Progress in
mutual

/-- An operand is read up to where it is at hand, if there is room for its levels. -/
theorem Operand.exists_run (o : Operand) {s : Progress} (hs : s.AtOperand)
    (hd : s.outer.length + o.depth ≤ maxNesting) :
    ∃ t, s.run o.spell = .ok t ∧ t.outer = s.outer ∧ t.level = s.level ∧
      t.operand = .ok o.tree := by
  obtain ⟨hc, hl⟩ := hs
  cases o with
  | label l =>
    rw [Operand.spell, Operand.tree, run_plain l.plain, hl, List.append_nil]
    refine ⟨_, rfl, rfl, rfl, operand_eq_ok_iff.mpr (.inr ⟨hc, ?_, ?_⟩)⟩
    · simpa using l.ne_nil
    · simp
  | parenthesised p =>
    rw [Operand.depth] at hd
    have henter := enter_eq_ok_iff.mpr ⟨hc, hl, by omega, rfl⟩
    obtain ⟨u, last, hrun, houter, hoperand, htree⟩ := p.exists_run
      (s := ⟨s.level :: s.outer, none, none, [], s.position + 1⟩) ⟨rfl, rfl⟩ rfl
      (by rw [List.length_cons]; omega)
    have hleave := leave_eq_ok_iff.mpr ⟨_, _, _, houter, hoperand, rfl⟩
    rw [htree] at hleave
    refine ⟨⟨s.outer, s.level, some p.tree, [], u.position + 1⟩, ?_, rfl, rfl,
      operand_eq_ok_iff.mpr (.inl ⟨rfl, rfl⟩)⟩
    rw [Operand.spell, run_cons_of_eq_ok (step_openByte.trans henter),
      run_append_of_eq_ok hrun, run_cons_of_eq_ok (step_closeByte.trans hleave)]
    rfl

/-- A level is read up to where its last operand is at hand. -/
theorem Phrase.exists_run (p : Phrase) {s : Progress} (hs : s.AtOperand) (hlevel : s.level = none)
    (hd : s.outer.length + p.depth ≤ maxNesting) :
    ∃ t last, s.run p.spell = .ok t ∧ t.outer = s.outer ∧ t.operand = .ok last ∧
      t.level.finish last = p.tree := by
  cases p with
  | single o =>
    obtain ⟨t, hrun, houter, hlevel', hoperand⟩ := o.exists_run hs hd
    refine ⟨t, _, hrun, houter, hoperand, ?_⟩
    rw [hlevel', hlevel]
    rfl
  | joined c o os =>
    rw [Phrase.depth] at hd
    obtain ⟨t, hrun, houter, hlevel', hoperand⟩ := o.exists_run hs (by omega)
    obtain ⟨u, last, hrun', houter', hoperand', htree⟩ := os.exists_run hoperand
      (.inl ⟨hlevel'.trans hlevel, rfl⟩) (by rw [houter]; omega)
    refine ⟨u, last, ?_, houter'.trans houter, hoperand', ?_⟩
    · rw [Phrase.spell, run_append_of_eq_ok hrun, hrun']
    · rw [htree, List.nil_append, o.operandsUnder_tree]
      rfl

/-- Behind an operand, further operands are read up to where the last one is at hand. -/
theorem Operands.exists_run {c : Connective} (os : Operands) {s : Progress} {f : Formula}
    {fs : List Formula} (hf : s.operand = .ok f) (hj : Joined s.level c fs)
    (hd : s.outer.length + os.depth ≤ maxNesting) :
    ∃ t last, s.run (os.spell c) = .ok t ∧ t.outer = s.outer ∧ t.operand = .ok last ∧
      t.level.finish last = .group c (fs ++ f.operandsUnder c ++ os.under c) := by
  have hjoin := (step_byte s c).trans (join_eq_ok_iff.mpr ⟨f, fs, hf, hj, rfl⟩)
  cases os with
  | last o =>
    obtain ⟨t, hrun, houter, hlevel, hoperand⟩ := o.exists_run
      (s := ⟨s.outer, some (c, fs ++ f.operandsUnder c), none, [], s.position + 1⟩) ⟨rfl, rfl⟩ hd
    refine ⟨t, _, (run_cons_of_eq_ok hjoin _).trans hrun, houter, hoperand, ?_⟩
    rw [hlevel, Level.finish, o.operandsUnder_tree]
    rfl
  | more o os =>
    rw [Operands.depth] at hd
    obtain ⟨t, hrun, houter, hlevel, hoperand⟩ := o.exists_run
      (s := ⟨s.outer, some (c, fs ++ f.operandsUnder c), none, [], s.position + 1⟩) ⟨rfl, rfl⟩
      (Nat.le_trans (Nat.add_le_add_left (Nat.le_max_left _ _) _) hd)
    obtain ⟨u, last, hrun', houter', hoperand', htree⟩ := os.exists_run hoperand
      (.inr hlevel) (by rw [houter]; dsimp only; omega)
    refine ⟨u, last, ?_, houter'.trans houter, hoperand', ?_⟩
    · rw [Operands.spell, run_cons_of_eq_ok hjoin, run_append_of_eq_ok hrun, hrun']
    · rw [htree, o.operandsUnder_tree, Operands.under, List.append_assoc]

end

/-- What a derivation spells is read as its formula, if its parentheses nest no deeper than they
may. -/
theorem Phrase.parse_spell (p : Phrase) (hd : p.depth ≤ maxNesting) :
    Formula.parse p.spell = .ok p.tree := by
  have hroom : ({} : Progress).outer.length + p.depth ≤ maxNesting := by
    simpa using hd
  obtain ⟨t, last, hrun, houter, hoperand, htree⟩ := p.exists_run (s := {}) ⟨rfl, rfl⟩ rfl hroom
  exact Formula.parse_eq_ok_iff.mpr
    ⟨t, last, hrun, houter, Progress.lastOperand_eq_ok_iff.mpr hoperand, htree⟩

/-! ## What is read has a derivation -/

-- Operands that have been joined so far, and what they spell, up to the last one of them.
private inductive Joins (c : Connective) : List Formula → Bytes → Prop where
  | first (o : Operand) : Joins c (o.under c) o.spell
  | next {fs : List Formula} {bytes : Bytes} (h : Joins c fs bytes) (o : Operand) :
    Joins c (fs ++ o.under c) (bytes ++ c.byte :: o.spell)

private theorem Joins.exists_phrase {c : Connective} {fs : List Formula} {bytes : Bytes}
    (h : Joins c fs bytes) (os : Operands) :
    ∃ p : Phrase, p.spell = bytes ++ os.spell c ∧ p.tree = .group c (fs ++ os.under c) := by
  induction h generalizing os with
  | first o => exact ⟨.joined c o os, rfl, rfl⟩
  | next h o ih =>
    obtain ⟨p, hspell, htree⟩ := ih (.more o os)
    refine ⟨p, ?_, ?_⟩
    · rw [hspell, Operands.spell, List.append_assoc, List.cons_append]
    · rw [htree, Operands.under, List.append_assoc]

-- What has been read of a level, up to its last operator.
private def Level.Reads : Level → Bytes → Prop
  | none, bytes => bytes = []
  | some (c, fs), bytes => ∃ body, bytes = body ++ [c.byte] ∧ Joins c fs body

private theorem Level.Reads.exists_phrase {level : Level} {bytes : Bytes} (h : level.Reads bytes)
    (o : Operand) :
    ∃ p : Phrase, p.spell = bytes ++ o.spell ∧ p.tree = level.finish o.tree := by
  cases level with
  | none =>
    rw [show bytes = [] from h]
    exact ⟨.single o, rfl, rfl⟩
  | some joined =>
    obtain ⟨body, rfl, hjoins⟩ := h
    obtain ⟨p, hspell, htree⟩ := hjoins.exists_phrase (.last o)
    refine ⟨p, ?_, ?_⟩
    · rw [hspell, Operands.spell, List.append_assoc, List.singleton_append]
    · rw [htree, Level.finish, o.operandsUnder_tree, Operands.under]

private theorem Level.Reads.joined {level : Level} {bytes : Bytes} (h : level.Reads bytes)
    {c : Connective} {fs : List Formula} (hj : Progress.Joined level c fs) (o : Operand) :
    Level.Reads (some (c, fs ++ o.under c)) (bytes ++ o.spell ++ [c.byte]) := by
  refine ⟨bytes ++ o.spell, rfl, ?_⟩
  rcases hj with ⟨rfl, rfl⟩ | rfl
  · rw [show bytes = [] from h]
    exact .first o
  · obtain ⟨body, rfl, hjoins⟩ := h
    rw [List.append_assoc, List.singleton_append]
    exact .next hjoins o

-- What has been read of the levels around the current one, each up to the parenthesis that opens
-- the next one.
private inductive Around : List Level → Bytes → Prop where
  | outermost : Around [] []
  | opened {outer : List Level} {level : Level} {before inside : Bytes} (ho : Around outer before)
    (hl : level.Reads inside) : Around (level :: outer) (before ++ inside ++ [openByte])

-- What has been read of the operand at hand: the group that has been closed, if there is one, and a
-- label.
private def AtHand (closed : Option Formula) (label bytes : Bytes) : Prop :=
  ∃ front, bytes = front ++ label.reverse ∧
    match closed with
    | none => front = []
    | some f => ∃ p : Phrase, front = openByte :: (p.spell ++ [closeByte]) ∧ p.tree = f

-- The bytes that have been read up to a state.
private structure Progress.Reads (s : Progress) (bytes : Bytes) : Prop where
  plain : ∀ b ∈ s.label, isReserved b = false
  parts : ∃ before inside hand, bytes = before ++ inside ++ hand ∧ Around s.outer before ∧
    s.level.Reads inside ∧ AtHand s.closed s.label hand

namespace Progress

variable {s t : Progress} {b : UInt8} {bytes : Bytes}

private theorem Reads.exists_operand (h : s.Reads bytes) {f : Formula} (hf : s.operand = .ok f)
    {hand : Bytes} (hh : AtHand s.closed s.label hand) :
    ∃ o : Operand, o.spell = hand ∧ o.tree = f := by
  obtain ⟨front, rfl, hh⟩ := hh
  rcases operand_eq_ok_iff.mp hf with ⟨hc, hl⟩ | ⟨hc, hl, rfl⟩
  · rw [hc] at hh
    obtain ⟨p, rfl, rfl⟩ := hh
    refine ⟨.parenthesised p, ?_, rfl⟩
    rw [hl, List.reverse_nil, List.append_nil]
    rfl
  · rw [hc] at hh
    rw [show front = [] from hh]
    refine ⟨.label ⟨s.label.reverse, by simpa using hl, ?_⟩, rfl, rfl⟩
    intro b hb
    exact h.plain b (List.mem_reverse.mp hb)

private theorem Reads.step (h : s.Reads bytes) (hs : s.step b = .ok t) :
    t.Reads (bytes ++ [b]) := by
  obtain ⟨before, inside, hand, rfl, hbefore, hinside, hhand⟩ := h.parts
  have hnothing : AtHand none [] [] := ⟨[], rfl, rfl⟩
  rcases step_cases hs with ⟨rfl, hs⟩ | ⟨rfl, hs⟩ | ⟨ho, hl, ⟨c, hc, hs⟩ | ⟨hc, rfl⟩⟩
  · obtain ⟨hclosed, hlabel, -, rfl⟩ := enter_eq_ok_iff.mp hs
    rw [hclosed, hlabel] at hhand
    obtain ⟨front, rfl, hfront⟩ := hhand
    rw [show front = [] from hfront]
    exact ⟨by simp, _, [], [], by simp, hbefore.opened hinside, rfl, hnothing⟩
  · obtain ⟨level, outer, f, houter, hf, rfl⟩ := leave_eq_ok_iff.mp hs
    obtain ⟨o, rfl, rfl⟩ := h.exists_operand hf hhand
    obtain ⟨p, hspell, htree⟩ := hinside.exists_phrase o
    rw [houter] at hbefore
    cases hbefore with
    | opened hbefore hlevel =>
      refine ⟨by simp, _, _, openByte :: (p.spell ++ [closeByte]), ?_, hbefore, hlevel, _,
        (List.append_nil _).symm, p, rfl, htree⟩
      simp [hspell]
  · have hb : b = c.byte := by
      unfold Connective.ofByte? at hc
      split at hc
      · next hb =>
        cases hc
        exact hb
      · split at hc
        · next hb =>
          cases hc
          exact hb
        · cases hc
    obtain ⟨f, fs, hf, hj, rfl⟩ := join_eq_ok_iff.mp hs
    obtain ⟨o, rfl, rfl⟩ := h.exists_operand hf hhand
    have hjoined := hinside.joined hj o
    rw [← o.operandsUnder_tree] at hjoined
    refine ⟨by simp, before, _, [], ?_, hbefore, hjoined, hnothing⟩
    simp [hb]
  · have hplain : isReserved b = false := by
      unfold Connective.ofByte? at hc
      split at hc
      · cases hc
      · next hall =>
        split at hc
        · cases hc
        · next hany => simp [isReserved, hall, hany, ho, hl]
    obtain ⟨front, rfl, hfront⟩ := hhand
    refine ⟨?_, before, inside, _, ?_, hbefore, hinside, front, rfl, hfront⟩
    · intro a ha
      rcases List.mem_cons.mp ha with rfl | ha
      · exact hplain
      · exact h.plain a ha
    · simp

private theorem Reads.run (h : s.Reads bytes) {more : Bytes} (hs : s.run more = .ok t) :
    t.Reads (bytes ++ more) := by
  induction more generalizing s bytes with
  | nil =>
    cases hs
    rwa [List.append_nil]
  | cons b rest ih =>
    obtain ⟨u, hb, hs⟩ := run_cons_eq_ok_iff.mp hs
    rw [← List.singleton_append, ← List.append_assoc]
    exact ih (h.step hb) hs

private theorem reads_nil : ({} : Progress).Reads [] :=
  ⟨by simp, [], [], [], rfl, .outermost, rfl, [], rfl, rfl⟩

private theorem length_outer_step (hs : s.step b = .ok t) (h : s.outer.length ≤ maxNesting) :
    t.outer.length ≤ maxNesting := by
  rcases step_cases hs with ⟨rfl, hs⟩ | ⟨rfl, hs⟩ | ⟨-, -, ⟨c, -, hs⟩ | ⟨-, rfl⟩⟩
  · obtain ⟨-, -, hroom, rfl⟩ := enter_eq_ok_iff.mp hs
    exact hroom
  · rw [length_outer_leave hs]
    omega
  · rwa [outer_join hs]
  · exact h

/-- What is read nests no deeper than it may. -/
theorem nestingFrom_le_of_run (hs : s.run bytes = .ok t) (h : s.outer.length ≤ maxNesting) :
    nestingFrom s.outer.length bytes ≤ maxNesting := by
  induction bytes generalizing s with
  | nil => exact h
  | cons b rest ih =>
    obtain ⟨u, hb, hs⟩ := run_cons_eq_ok_iff.mp hs
    have hu := ih hs (length_outer_step hb h)
    rw [nestingFrom_of_step rest hb]
    exact Nat.max_le.mpr ⟨h, hu⟩

end Progress

/-- What is read as a formula has a derivation of that formula. -/
theorem Formula.exists_phrase_of_parse {bytes : Bytes} {f : Formula} (h : parse bytes = .ok f) :
    ∃ p : Phrase, p.spell = bytes ∧ p.depth ≤ maxNesting ∧ p.tree = f := by
  obtain ⟨s, last, hrun, houter, hlast, rfl⟩ := parse_eq_ok_iff.mp h
  have hreads := Progress.reads_nil.run hrun
  obtain ⟨before, inside, hand, hbytes, hbefore, hinside, hhand⟩ := hreads.parts
  obtain ⟨o, rfl, rfl⟩ :=
    hreads.exists_operand (Progress.lastOperand_eq_ok_iff.mp hlast) hhand
  obtain ⟨p, hspell, htree⟩ := hinside.exists_phrase o
  rw [houter] at hbefore
  cases hbefore
  have hp : p.spell = bytes := hspell.trans hbytes.symm
  refine ⟨p, hp, ?_, htree⟩
  rw [← p.nesting_spell, hp]
  exact Progress.nestingFrom_le_of_run hrun (Nat.zero_le _)

/-- What is read as a formula nests no deeper than it may. -/
theorem Formula.nesting_le_of_parse {bytes : Bytes} {f : Formula} (h : parse bytes = .ok f) :
    nesting bytes ≤ maxNesting := by
  obtain ⟨p, rfl, hd, -⟩ := exists_phrase_of_parse h
  rwa [p.nesting_spell]

/-- Reading accepts the grammar: a byte string is read exactly if it has a derivation of at most 64
levels of parentheses, no byte string has two derivations, and what is read is the formula of the
derivation and means what the derivation means. -/
theorem parse_exact (bytes : Bytes) :
    ((∃ f, Formula.parse bytes = .ok f) ↔ ∃ p : Phrase, p.spell = bytes ∧ p.depth ≤ 64) ∧
    (∀ p q : Phrase, p.spell = bytes → q.spell = bytes → p = q) ∧
    ∀ p : Phrase, p.spell = bytes → p.depth ≤ 64 →
      Formula.parse bytes = .ok p.tree ∧
      ∀ labels, p.tree.holds labels = p.meaning labels := by
  refine ⟨⟨?_, ?_⟩, ?_, ?_⟩
  · rintro ⟨f, hf⟩
    obtain ⟨p, hspell, hdepth, -⟩ := Formula.exists_phrase_of_parse hf
    exact ⟨p, hspell, hdepth⟩
  · rintro ⟨p, rfl, hdepth⟩
    exact ⟨p.tree, p.parse_spell hdepth⟩
  · rintro p q rfl hq
    exact (Phrase.spell_inj hq).symm
  · rintro p rfl hdepth
    exact ⟨p.parse_spell hdepth, fun labels ↦ p.holds_tree labels⟩

private def letter (b : UInt8) (h : isReserved b = false) : Operand :=
  .label ⟨[b], by simp, by simpa using h⟩

private def nestedPhrase : Phrase :=
  .joined .all
    (.parenthesised (.joined .all (letter 0x61 rfl) (.last (letter 0x62 rfl))))
    (.last (.parenthesised (.joined .any (.parenthesised (.single (letter 0x63 rfl)))
      (.last (letter 0x64 rfl)))))

/-- The group of the same connective is absorbed, the other one stays, and parentheses around a
label are dropped; no other derivation spells the same bytes. -/
theorem parse_exact_nested :
    let bytes : Bytes :=
      [0x28, 0x61, 0x26, 0x62, 0x29, 0x26, 0x28, 0x28, 0x63, 0x29, 0x7C, 0x64, 0x29]
    nestedPhrase.spell = bytes ∧ nestedPhrase.depth = 2 ∧
      (∀ q : Phrase, q.spell = bytes → q = nestedPhrase) ∧
      Formula.parse bytes = .ok (.group .all
        [.term [0x61], .term [0x62], .group .any [.term [0x63], .term [0x64]]]) ∧
      nestedPhrase.tree.holds ∅ = nestedPhrase.meaning ∅ := by
  intro bytes
  have hspell : nestedPhrase.spell = bytes := by decide
  have hdepth : nestedPhrase.depth ≤ 64 := by decide
  obtain ⟨-, hunique, hreads⟩ := parse_exact bytes
  obtain ⟨hparse, hmeaning⟩ := hreads nestedPhrase hspell hdepth
  exact ⟨hspell, rfl, fun q hq ↦ hunique q nestedPhrase hq hspell, hparse, hmeaning ∅⟩

end RowVault.Visibility
