import RowVault.Proofs.Visibility.Nesting

/-!
# The grammar of formulas

A level is one operand, or at least two that are joined by one connective; an operand is a label, or
a level in parentheses. A derivation in this grammar is a tree of its own, which keeps every
parenthesis; what it stands for is read off it in two ways, as a formula without needless
parentheses and as a Boolean function of the labels that are held.

A byte string has one derivation at most.
-/

namespace RowVault.Visibility

/-- The bytes of a label: at least one, and none of them reserved. -/
structure Label where
  bytes : Bytes
  ne_nil : bytes ≠ []
  plain : ∀ b ∈ bytes, isReserved b = false

mutual

/-- A level: an operand, or operands that are joined by one connective. -/
inductive Phrase where
  | single (operand : Operand)
  | joined (c : Connective) (first : Operand) (others : Operands)

/-- An operand: a label, or a level in parentheses. -/
inductive Operand where
  | label (l : Label)
  | parenthesised (inner : Phrase)

/-- The operands behind the first one of a level; there is at least one. -/
inductive Operands where
  | last (operand : Operand)
  | more (operand : Operand) (others : Operands)

end

/-! ## What a derivation spells -/

mutual

/-- The byte string that is derived. -/
def Phrase.spell : Phrase → Bytes
  | .single o => o.spell
  | .joined c o os => o.spell ++ os.spell c

/-- The bytes of an operand. -/
def Operand.spell : Operand → Bytes
  | .label l => l.bytes
  | .parenthesised p => openByte :: (p.spell ++ [closeByte])

/-- The bytes of operands, each behind the byte of the connective. -/
def Operands.spell (c : Connective) : Operands → Bytes
  | .last o => c.byte :: o.spell
  | .more o os => c.byte :: (o.spell ++ os.spell c)

end

mutual

/-- How deep the parentheses of a derivation nest. -/
def Phrase.depth : Phrase → Nat
  | .single o => o.depth
  | .joined _ o os => max o.depth os.depth

/-- How deep the parentheses of an operand nest. -/
def Operand.depth : Operand → Nat
  | .label _ => 0
  | .parenthesised p => p.depth + 1

/-- How deep the parentheses of operands nest. -/
def Operands.depth : Operands → Nat
  | .last o => o.depth
  | .more o os => max o.depth os.depth

end

/-! ## What a derivation stands for -/

mutual

/-- The operands that an operand gives to a level of a connective: those of the level inside its
parentheses, if that is joined by the same connective. -/
def Operand.under (c : Connective) : Operand → List Formula
  | .label l => [.term l.bytes]
  | .parenthesised p => p.under c

/-- The operands that a level gives to the one around its parentheses. -/
def Phrase.under (c : Connective) : Phrase → List Formula
  | .single o => o.under c
  | .joined d o os =>
    if d = c then o.under d ++ os.under d else [.group d (o.under d ++ os.under d)]

/-- The operands that operands give to their level. -/
def Operands.under (c : Connective) : Operands → List Formula
  | .last o => o.under c
  | .more o os => o.under c ++ os.under c

end

mutual

/-- The derivation without needless parentheses, where each group of the connective of the level
around it has been absorbed into that level. -/
def Phrase.tree : Phrase → Formula
  | .single o => o.tree
  | .joined c o os => .group c (o.under c ++ os.under c)

/-- The formula of an operand. -/
def Operand.tree : Operand → Formula
  | .label l => .term l.bytes
  | .parenthesised p => p.tree

end

/-- What a connective makes of the truth of two operands. -/
def Connective.join : Connective → Bool → Bool → Bool
  | all => and
  | any => or

mutual

/-- The Boolean meaning of a derivation: a label is true if it is held. -/
def Phrase.meaning (labels : Labels) : Phrase → Bool
  | .single o => o.meaning labels
  | .joined c o os => c.join (o.meaning labels) (os.meaning labels c)

/-- The Boolean meaning of an operand. -/
def Operand.meaning (labels : Labels) : Operand → Bool
  | .label l => labels.contains l.bytes
  | .parenthesised p => p.meaning labels

/-- The Boolean meaning of operands that are joined by a connective. -/
def Operands.meaning (labels : Labels) (c : Connective) : Operands → Bool
  | .last o => o.meaning labels
  | .more o os => c.join (o.meaning labels) (os.meaning labels c)

end

/-! ## Depth and nesting -/

private theorem nestingFrom_plain (depth : Nat) {bytes : Bytes}
    (h : ∀ b ∈ bytes, isReserved b = false) (rest : Bytes) :
    nestingFrom depth (bytes ++ rest) = nestingFrom depth rest := by
  induction bytes with
  | nil => rfl
  | cons b bytes ih =>
    have hb := h b (by simp)
    simp only [isReserved, Bool.or_eq_false_iff, beq_eq_false_iff_ne] at hb
    rw [List.cons_append, nestingFrom, if_neg hb.1.2, if_neg hb.2]
    exact ih fun a ha ↦ h a (List.mem_cons_of_mem b ha)

private theorem nestingFrom_connective (depth : Nat) (c : Connective) (rest : Bytes) :
    nestingFrom depth (c.byte :: rest) = nestingFrom depth rest := by
  cases c <;> rfl

private theorem nestingFrom_openByte (depth : Nat) (rest : Bytes) :
    nestingFrom depth (openByte :: rest) = nestingFrom (depth + 1) rest := by
  rw [nestingFrom, if_pos rfl]

private theorem nestingFrom_closeByte (depth : Nat) (rest : Bytes) :
    nestingFrom depth (closeByte :: rest) = max depth (nestingFrom (depth - 1) rest) := by
  rw [nestingFrom, if_neg (by decide), if_pos rfl]

mutual

private theorem Phrase.nestingFrom_spell (p : Phrase) (depth : Nat) (rest : Bytes) :
    nestingFrom depth (p.spell ++ rest) = max (depth + p.depth) (nestingFrom depth rest) := by
  cases p with
  | single o => exact o.nestingFrom_spell depth rest
  | joined c o os =>
    rw [Phrase.spell, Phrase.depth, List.append_assoc, o.nestingFrom_spell,
      os.nestingFrom_spell]
    omega

private theorem Operand.nestingFrom_spell (o : Operand) (depth : Nat) (rest : Bytes) :
    nestingFrom depth (o.spell ++ rest) = max (depth + o.depth) (nestingFrom depth rest) := by
  cases o with
  | label l =>
    have hle := le_nestingFrom depth rest
    rw [Operand.spell, Operand.depth, nestingFrom_plain depth l.plain]
    omega
  | parenthesised p =>
    have hle := le_nestingFrom depth rest
    rw [Operand.spell, Operand.depth, List.cons_append, List.append_assoc, nestingFrom_openByte,
      p.nestingFrom_spell, List.singleton_append, nestingFrom_closeByte, Nat.add_sub_cancel]
    omega

private theorem Operands.nestingFrom_spell (c : Connective) (os : Operands) (depth : Nat)
    (rest : Bytes) :
    nestingFrom depth (os.spell c ++ rest) =
      max (depth + os.depth) (nestingFrom depth rest) := by
  cases os with
  | last o =>
    rw [Operands.spell, Operands.depth, List.cons_append, nestingFrom_connective]
    exact o.nestingFrom_spell depth rest
  | more o os =>
    rw [Operands.spell, Operands.depth, List.cons_append, nestingFrom_connective,
      List.append_assoc, o.nestingFrom_spell, os.nestingFrom_spell]
    omega

end

/-- A derivation nests as deep as the byte string that it spells. -/
theorem Phrase.nesting_spell (p : Phrase) : nesting p.spell = p.depth := by
  have h := p.nestingFrom_spell 0 []
  rw [List.append_nil, Nat.zero_add] at h
  exact h.trans (Nat.max_eq_left (Nat.zero_le _))

/-! ## Formula and meaning -/

mutual

/-- A formula gives the operands of its derivation to the level around it. -/
theorem Phrase.operandsUnder_tree (c : Connective) (p : Phrase) :
    p.tree.operandsUnder c = p.under c := by
  cases p with
  | single o => exact o.operandsUnder_tree c
  | joined d o os => rfl

/-- An operand gives its tree to the level around it as it gives itself. -/
theorem Operand.operandsUnder_tree (c : Connective) (o : Operand) :
    o.tree.operandsUnder c = o.under c := by
  cases o with
  | label l => rfl
  | parenthesised p => exact p.operandsUnder_tree c

end

private theorem holds_group_append (labels : Labels) (c : Connective) (fs gs : List Formula) :
    (Formula.group c (fs ++ gs)).holds labels =
      c.join ((Formula.group c fs).holds labels) ((Formula.group c gs).holds labels) := by
  cases c with
  | all => simp only [Formula.holds_all, List.all_append, Connective.join]
  | any => simp only [Formula.holds_any, List.any_append, Connective.join]

private theorem holds_group_singleton (labels : Labels) (c : Connective) (f : Formula) :
    (Formula.group c [f]).holds labels = f.holds labels := by
  cases c <;> simp [Formula.holds_all, Formula.holds_any]

mutual

private theorem Phrase.holds_under (labels : Labels) (c : Connective) (p : Phrase) :
    (Formula.group c (p.under c)).holds labels = p.meaning labels := by
  cases p with
  | single o => exact o.holds_under labels c
  | joined d o os =>
    rw [Phrase.under, Phrase.meaning, ← o.holds_under labels d, ← os.holds_under labels d,
      ← holds_group_append]
    split
    · next h => rw [h]
    · exact holds_group_singleton labels c _

private theorem Operand.holds_under (labels : Labels) (c : Connective) (o : Operand) :
    (Formula.group c (o.under c)).holds labels = o.meaning labels := by
  cases o with
  | label l => exact holds_group_singleton labels c _
  | parenthesised p => exact p.holds_under labels c

private theorem Operands.holds_under (labels : Labels) (c : Connective) (os : Operands) :
    (Formula.group c (os.under c)).holds labels = os.meaning labels c := by
  cases os with
  | last o => exact o.holds_under labels c
  | more o os =>
    rw [Operands.under, Operands.meaning, holds_group_append, o.holds_under, os.holds_under]

end

mutual

/-- The formula of a derivation has its meaning. -/
theorem Phrase.holds_tree (labels : Labels) (p : Phrase) :
    p.tree.holds labels = p.meaning labels := by
  cases p with
  | single o => exact o.holds_tree labels
  | joined c o os =>
    rw [Phrase.tree, Phrase.meaning, holds_group_append, o.holds_under, os.holds_under]

/-- The tree of an operand holds where the operand does. -/
theorem Operand.holds_tree (labels : Labels) (o : Operand) :
    o.tree.holds labels = o.meaning labels := by
  cases o with
  | label l => rfl
  | parenthesised p => exact p.holds_tree labels

end

/-! ## One derivation at most -/

-- What may follow a label: nothing, or a reserved byte.
private def EndsLabel (rest : Bytes) : Prop := ∀ b ∈ rest.head?, isReserved b = true

-- What may follow a level: nothing, or a closing parenthesis.
private def EndsPhrase (rest : Bytes) : Prop := ∀ b ∈ rest.head?, b = closeByte

private theorem EndsPhrase.endsLabel {rest : Bytes} (h : EndsPhrase rest) : EndsLabel rest := by
  intro b hb
  rw [h b hb]
  rfl

private theorem isReserved_byte (c : Connective) : isReserved c.byte = true := by
  cases c <;> rfl

private theorem byte_inj {c d : Connective} (h : c.byte = d.byte) : c = d := by
  cases c with
  | all =>
    cases d with
    | all => rfl
    | any => cases h
  | any =>
    cases d with
    | all => cases h
    | any => rfl

private theorem endsLabel_spell (c : Connective) (os : Operands) (rest : Bytes) :
    EndsLabel (os.spell c ++ rest) := by
  intro b hb
  cases os <;>
  · simp only [Operands.spell, List.cons_append, List.head?_cons, Option.mem_some_iff] at hb
    rw [← hb]
    exact isReserved_byte c

private theorem not_endsPhrase_spell (c : Connective) (os : Operands) (rest : Bytes) :
    ¬ EndsPhrase (os.spell c ++ rest) := by
  intro h
  have hb : c.byte = closeByte := by
    apply h
    cases os <;> simp [Operands.spell]
  cases c <;> cases hb

private theorem plain_append_inj {l m r q : Bytes} (hl : ∀ b ∈ l, isReserved b = false)
    (hm : ∀ b ∈ m, isReserved b = false) (hr : EndsLabel r) (hq : EndsLabel q)
    (h : l ++ r = m ++ q) : l = m ∧ r = q := by
  induction l generalizing m with
  | nil =>
    cases m with
    | nil => exact ⟨rfl, h⟩
    | cons b m =>
      have hb := hr b (by simp [show r = b :: (m ++ q) from h])
      rw [hm b (by simp)] at hb
      cases hb
  | cons a l ih =>
    cases m with
    | nil =>
      have ha := hq a (by simp [← show a :: (l ++ r) = q from h])
      rw [hl a (by simp)] at ha
      cases ha
    | cons b m =>
      obtain ⟨rfl, he⟩ := List.cons.inj h
      obtain ⟨rfl, hrest⟩ := ih (fun x hx ↦ hl x (List.mem_cons_of_mem _ hx))
        (fun x hx ↦ hm x (List.mem_cons_of_mem _ hx)) he
      exact ⟨rfl, hrest⟩

private theorem Label.append_ne_openByte (l : Label) (r q : Bytes) :
    l.bytes ++ r ≠ openByte :: q := by
  intro h
  have hne := l.ne_nil
  have hplain := l.plain
  cases hb : l.bytes with
  | nil => exact hne hb
  | cons b rest =>
    rw [hb, List.cons_append] at h
    obtain ⟨rfl, -⟩ := List.cons.inj h
    rw [hb] at hplain
    exact absurd (hplain openByte (by simp)) (by decide)

mutual

private theorem Phrase.spell_append_inj (p q : Phrase) {r t : Bytes} (hr : EndsPhrase r)
    (ht : EndsPhrase t) (h : p.spell ++ r = q.spell ++ t) : p = q ∧ r = t := by
  cases p with
  | single o =>
    cases q with
    | single x =>
      obtain ⟨rfl, he⟩ := o.spell_append_inj x hr.endsLabel ht.endsLabel h
      exact ⟨rfl, he⟩
    | joined d x xs =>
      rw [Phrase.spell, Phrase.spell, List.append_assoc] at h
      obtain ⟨-, he⟩ := o.spell_append_inj x hr.endsLabel (endsLabel_spell d xs t) h
      exact absurd (he ▸ hr) (not_endsPhrase_spell d xs t)
  | joined c o os =>
    cases q with
    | single x =>
      rw [Phrase.spell, Phrase.spell, List.append_assoc] at h
      obtain ⟨-, he⟩ := o.spell_append_inj x (endsLabel_spell c os r) ht.endsLabel h
      exact absurd (he ▸ ht) (not_endsPhrase_spell c os r)
    | joined d x xs =>
      rw [Phrase.spell, Phrase.spell, List.append_assoc, List.append_assoc] at h
      obtain ⟨rfl, he⟩ :=
        o.spell_append_inj x (endsLabel_spell c os r) (endsLabel_spell d xs t) h
      obtain ⟨rfl, rfl, hrest⟩ := os.spell_append_inj xs hr ht he
      exact ⟨rfl, hrest⟩

private theorem Operand.spell_append_inj (o x : Operand) {r t : Bytes} (hr : EndsLabel r)
    (ht : EndsLabel t) (h : o.spell ++ r = x.spell ++ t) : o = x ∧ r = t := by
  cases o with
  | label l =>
    cases x with
    | label m =>
      obtain ⟨he, hrest⟩ := plain_append_inj l.plain m.plain hr ht h
      cases l
      cases m
      cases he
      exact ⟨rfl, hrest⟩
    | parenthesised q => exact absurd h (l.append_ne_openByte _ _)
  | parenthesised p =>
    cases x with
    | label m => exact absurd h.symm (m.append_ne_openByte _ _)
    | parenthesised q =>
      simp only [Operand.spell, List.cons_append, List.append_assoc, List.cons.injEq,
        true_and] at h
      have hclose : ∀ rest : Bytes, EndsPhrase (closeByte :: rest) := by
        intro rest b hb
        exact (Option.some.inj hb).symm
      obtain ⟨rfl, he⟩ := p.spell_append_inj q (hclose r) (hclose t) h
      exact ⟨rfl, (List.cons.inj he).2⟩

private theorem Operands.spell_append_inj {c d : Connective} (os xs : Operands) {r t : Bytes}
    (hr : EndsPhrase r) (ht : EndsPhrase t) (h : os.spell c ++ r = xs.spell d ++ t) :
    c = d ∧ os = xs ∧ r = t := by
  have hcd : c = d := by
    apply byte_inj
    cases os <;> cases xs <;> exact (List.cons.inj h).1
  subst hcd
  cases os with
  | last o =>
    cases xs with
    | last x =>
      obtain ⟨rfl, he⟩ :=
        o.spell_append_inj x hr.endsLabel ht.endsLabel (List.cons.inj h).2
      exact ⟨rfl, rfl, he⟩
    | more x xs =>
      simp only [Operands.spell, List.cons_append, List.cons.injEq, true_and,
        List.append_assoc] at h
      obtain ⟨-, he⟩ := o.spell_append_inj x hr.endsLabel (endsLabel_spell c xs t) h
      exact absurd (he ▸ hr) (not_endsPhrase_spell c xs t)
  | more o os =>
    cases xs with
    | last x =>
      simp only [Operands.spell, List.cons_append, List.cons.injEq, true_and,
        List.append_assoc] at h
      obtain ⟨-, he⟩ := o.spell_append_inj x (endsLabel_spell c os r) ht.endsLabel h
      exact absurd (he ▸ ht) (not_endsPhrase_spell c os r)
    | more x xs =>
      simp only [Operands.spell, List.cons_append, List.cons.injEq, true_and,
        List.append_assoc] at h
      obtain ⟨rfl, he⟩ :=
        o.spell_append_inj x (endsLabel_spell c os r) (endsLabel_spell c xs t) h
      obtain ⟨-, rfl, hrest⟩ := os.spell_append_inj xs hr ht he
      exact ⟨rfl, rfl, hrest⟩

end

/-- Derivations of one byte string are the same. -/
theorem Phrase.spell_inj {p q : Phrase} (h : p.spell = q.spell) : p = q := by
  have hnil : EndsPhrase [] := by simp [EndsPhrase]
  exact (p.spell_append_inj q (r := []) (t := []) hnil hnil (by rw [h])).1

end RowVault.Visibility
