import RowVault.Proofs.Visibility.Reading

/-!
# Normal forms

Reading yields normal formulas: a group joins at least two operands, none of which is a group of the
same connective, and a label has at least one byte and no reserved one. A normal formula has a
written form, which puts parentheses around groups inside groups and nowhere else. This form nests
no deeper than any other one of the same formula, and it reads as the formula that it is written
for.
-/

namespace RowVault.Visibility

namespace Formula

/-! ## Normal formulas -/

/-- The connective of a group. -/
def connective? : Formula → Option Connective
  | term _ => none
  | group c _ => some c

/-- Labels are not empty and without reserved bytes; groups have at least two operands, none of
which is a group of the same connective. -/
inductive IsNormal : Formula → Prop where
  | term {label : Bytes} (ne_nil : label ≠ []) (plain : ∀ b ∈ label, isReserved b = false) :
    IsNormal (term label)
  | group {c : Connective} {fs : List Formula} (two : 2 ≤ fs.length)
    (normal : ∀ f ∈ fs, f.IsNormal) (apart : ∀ f ∈ fs, f.connective? ≠ some c) :
    IsNormal (group c fs)

/-! ## Written forms -/

mutual

/-- The written form of a formula. -/
def render : Formula → Bytes
  | term label => label
  | group c fs => renderEach c fs

/-- The written form of an operand: a group stands in parentheses. -/
def renderOperand : Formula → Bytes
  | term label => label
  | group c fs => openByte :: (renderEach c fs ++ [closeByte])

/-- The written form of operands, with a connective between them. -/
def renderEach (c : Connective) : List Formula → Bytes
  | [] => []
  | [f] => f.renderOperand
  | f :: g :: rest => f.renderOperand ++ c.byte :: renderEach c (g :: rest)

end

/-- Operands are written with the byte of the connective between them. -/
theorem renderEach_eq (c : Connective) (fs : List Formula) :
    renderEach c fs = [c.byte].intercalate (fs.map renderOperand) := by
  induction fs with
  | nil => rfl
  | cons f rest ih =>
    cases rest with
    | nil => simp [renderEach]
    | cons g rest =>
      rw [renderEach, ih]
      simp [List.intercalate]

mutual

/-- How deep the parentheses of the written form nest. -/
def depth : Formula → Nat
  | term _ => 0
  | group _ fs => depthEach fs

/-- How deep the parentheses of an operand nest. -/
def operandDepth : Formula → Nat
  | term _ => 0
  | group _ fs => depthEach fs + 1

/-- How deep the parentheses of operands nest. -/
def depthEach : List Formula → Nat
  | [] => 0
  | f :: fs => max f.operandDepth (depthEach fs)

end

/-- Operands nest no deeper than each of them does. -/
theorem depthEach_le_iff {fs : List Formula} {n : Nat} :
    depthEach fs ≤ n ↔ ∀ f ∈ fs, f.operandDepth ≤ n := by
  induction fs with
  | nil => simp [depthEach]
  | cons f rest ih => rw [depthEach, Nat.max_le, ih, List.forall_mem_cons]

/-- What is no group of a connective is one operand under it. -/
theorem operandsUnder_of_ne {f : Formula} {c : Connective} (h : f.connective? ≠ some c) :
    f.operandsUnder c = [f] := by
  cases f with
  | term label => rfl
  | group d fs => exact if_neg fun hd ↦ h (congrArg some hd)

/-! ## Written forms have derivations -/

-- The written form of an operand has a derivation of the same depth.
private def Derives (f : Formula) : Prop :=
  ∃ o : Operand, o.spell = f.renderOperand ∧ o.depth = f.operandDepth ∧ o.tree = f

private theorem exists_operands {c : Connective} {fs : List Formula} (hne : fs ≠ [])
    (hd : ∀ f ∈ fs, f.Derives) (apart : ∀ f ∈ fs, f.connective? ≠ some c) :
    ∃ os : Operands, os.spell c = c.byte :: renderEach c fs ∧ os.depth = depthEach fs ∧
      os.under c = fs := by
  induction fs with
  | nil => exact absurd rfl hne
  | cons f rest ih =>
    obtain ⟨hf, hrest⟩ := List.forall_mem_cons.mp hd
    obtain ⟨hfc, hrestc⟩ := List.forall_mem_cons.mp apart
    obtain ⟨o, hspell, hdepth, htree⟩ := hf
    have hunder : o.under c = [f] := by
      rw [← o.operandsUnder_tree, htree, operandsUnder_of_ne hfc]
    cases rest with
    | nil =>
      refine ⟨.last o, ?_, ?_, hunder⟩
      · rw [Operands.spell, hspell, renderEach]
      · rw [Operands.depth, hdepth, depthEach, depthEach, Nat.max_zero]
    | cons g rest =>
      obtain ⟨os, hspells, hdepths, hunders⟩ := ih (List.cons_ne_nil g rest) hrest hrestc
      refine ⟨.more o os, ?_, ?_, ?_⟩
      · rw [Operands.spell, hspell, hspells, renderEach]
      · rw [Operands.depth, hdepth, hdepths]
        rfl
      · rw [Operands.under, hunder, hunders, List.singleton_append]

private theorem IsNormal.exists_derivation {f : Formula} (h : f.IsNormal) :
    (∃ p : Phrase, p.spell = f.render ∧ p.depth = f.depth ∧ p.tree = f) ∧ f.Derives := by
  induction h with
  | term ne_nil plain =>
    exact ⟨⟨.single (.label ⟨_, ne_nil, plain⟩), rfl, rfl, rfl⟩,
      .label ⟨_, ne_nil, plain⟩, rfl, rfl, rfl⟩
  | @group c fs two normal apart ih =>
    obtain ⟨p, hspell, hdepth, htree⟩ : ∃ p : Phrase, p.spell = renderEach c fs ∧
        p.depth = depthEach fs ∧ p.tree = .group c fs := by
      match fs, two with
      | f :: g :: rest, _ =>
        obtain ⟨hf, hrest⟩ := List.forall_mem_cons.mp fun f hf ↦ (ih f hf).2
        obtain ⟨hfc, hrestc⟩ := List.forall_mem_cons.mp apart
        obtain ⟨o, hspell, hdepth, htree⟩ := hf
        obtain ⟨os, hspells, hdepths, hunders⟩ :=
          exists_operands (List.cons_ne_nil g rest) hrest hrestc
        refine ⟨.joined c o os, ?_, ?_, ?_⟩
        · rw [Phrase.spell, hspell, hspells, renderEach]
        · rw [Phrase.depth, hdepth, hdepths]
          rfl
        · rw [Phrase.tree, ← o.operandsUnder_tree, htree, operandsUnder_of_ne hfc, hunders,
            List.singleton_append]
    refine ⟨⟨p, hspell, hdepth, htree⟩, .parenthesised p, ?_, ?_, htree⟩
    · rw [Operand.spell, hspell, renderOperand]
    · rw [Operand.depth, hdepth, operandDepth]

/-- The parentheses of the written form nest as deep as groups stand in groups. -/
theorem IsNormal.nesting_render {f : Formula} (h : f.IsNormal) : nesting f.render = f.depth := by
  obtain ⟨p, hspell, hdepth, -⟩ := h.exists_derivation.1
  rw [← hspell, p.nesting_spell, hdepth]

/-- The written form of a normal formula reads as this formula, if it nests no deeper than it
may. -/
theorem IsNormal.parse_render {f : Formula} (h : f.IsNormal) (hd : f.depth ≤ maxNesting) :
    parse f.render = .ok f := by
  obtain ⟨p, hspell, hdepth, htree⟩ := h.exists_derivation.1
  rw [← hspell, p.parse_spell (hdepth ▸ hd), htree]

/-! ## What is read is normal -/

-- Operands that may stand under a connective, and nest at most so deep.
private structure Suits (c : Connective) (n : Nat) (fs : List Formula) : Prop where
  ne_nil : fs ≠ []
  normal : ∀ f ∈ fs, f.IsNormal
  apart : ∀ f ∈ fs, f.connective? ≠ some c
  depth_le : depthEach fs ≤ n

namespace Suits

variable {c d : Connective} {m n : Nat} {fs gs : List Formula}

private theorem mono (h : Suits c m fs) (hn : m ≤ n) : Suits c n fs :=
  ⟨h.ne_nil, h.normal, h.apart, Nat.le_trans h.depth_le hn⟩

private theorem append (h : Suits c m fs) (h' : Suits c n gs) :
    Suits c (max m n) (fs ++ gs) where
  ne_nil := List.append_ne_nil_of_left_ne_nil h.ne_nil gs
  normal := List.forall_mem_append.mpr ⟨h.normal, h'.normal⟩
  apart := List.forall_mem_append.mpr ⟨h.apart, h'.apart⟩
  depth_le := by
    have hf := depthEach_le_iff.mp (Nat.le_trans h.depth_le (Nat.le_max_left m n))
    have hg := depthEach_le_iff.mp (Nat.le_trans h'.depth_le (Nat.le_max_right m n))
    exact depthEach_le_iff.mpr (List.forall_mem_append.mpr ⟨hf, hg⟩)

private theorem label (l : Label) : Suits c 0 [.term l.bytes] where
  ne_nil := List.cons_ne_nil _ _
  normal := List.forall_mem_singleton.mpr (.term l.ne_nil l.plain)
  apart := List.forall_mem_singleton.mpr nofun
  depth_le := Nat.le_refl 0

private theorem isNormal_group (h : Suits c m fs) (h' : Suits c n gs) :
    (group c (fs ++ gs)).IsNormal := by
  have hall := h.append h'
  have hf := List.length_pos_iff.mpr h.ne_nil
  have hg := List.length_pos_iff.mpr h'.ne_nil
  refine .group ?_ hall.normal hall.apart
  rw [List.length_append]
  omega

private theorem group (h : Suits c m fs) (h' : Suits c n gs) (hd : c ≠ d) :
    Suits d (max m n + 1) [.group c (fs ++ gs)] where
  ne_nil := List.cons_ne_nil _ _
  normal := List.forall_mem_singleton.mpr (h.isNormal_group h')
  apart := List.forall_mem_singleton.mpr fun he ↦ hd (Option.some.inj he)
  depth_le := depthEach_le_iff.mpr
    (List.forall_mem_singleton.mpr (Nat.succ_le_succ (h.append h').depth_le))

end Suits

end Formula

open Formula

mutual

private theorem Phrase.suits_under (c : Connective) (p : Phrase) :
    Suits c (p.depth + 1) (p.under c) := by
  cases p with
  | single o => exact (o.suits_under c).mono (Nat.le_succ _)
  | joined d o os =>
    have ho := o.suits_under d
    have hos := os.suits_under d
    rw [Phrase.under, Phrase.depth]
    split
    · next hd =>
      subst hd
      exact (ho.append hos).mono (Nat.le_succ _)
    · next hd => exact ho.group hos hd

private theorem Operand.suits_under (c : Connective) (o : Operand) :
    Suits c o.depth (o.under c) := by
  cases o with
  | label l => exact .label l
  | parenthesised p => exact p.suits_under c

private theorem Operands.suits_under (c : Connective) (os : Operands) :
    Suits c os.depth (os.under c) := by
  cases os with
  | last o => exact o.suits_under c
  | more o os => exact (o.suits_under c).append (os.suits_under c)

end

mutual

/-- The formula of a derivation is normal, and nests no deeper than the derivation. -/
theorem Phrase.isNormal_tree (p : Phrase) : p.tree.IsNormal ∧ p.tree.depth ≤ p.depth := by
  cases p with
  | single o => exact o.isNormal_tree
  | joined c o os =>
    have ho := o.suits_under c
    have hos := os.suits_under c
    exact ⟨ho.isNormal_group hos, (ho.append hos).depth_le⟩

/-- The tree of an operand is normal, and no deeper than the operand. -/
theorem Operand.isNormal_tree (o : Operand) : o.tree.IsNormal ∧ o.tree.depth ≤ o.depth := by
  cases o with
  | label l => exact ⟨.term l.ne_nil l.plain, Nat.le_refl 0⟩
  | parenthesised p =>
    obtain ⟨hn, hd⟩ := p.isNormal_tree
    exact ⟨hn, Nat.le_succ_of_le hd⟩

end

/-- What is read is normal, and its written form nests no deeper than what was read. -/
theorem Formula.isNormal_of_parse {bytes : Bytes} {f : Formula} (h : parse bytes = .ok f) :
    f.IsNormal ∧ nesting f.render ≤ nesting bytes := by
  obtain ⟨p, rfl, -, rfl⟩ := exists_phrase_of_parse h
  obtain ⟨hn, hd⟩ := p.isNormal_tree
  rw [hn.nesting_render, p.nesting_spell]
  exact ⟨hn, hd⟩

/-- Whatever byte string is read, what it reads as is a normal formula, whose written form nests no
deeper and reads as the same formula again. And the written form of a normal formula reads as this
formula exactly if it nests at most 64 deep. -/
theorem normal_forms_read_back :
    (∀ bytes f, Formula.parse bytes = .ok f →
      f.IsNormal ∧ nesting f.render ≤ nesting bytes ∧ Formula.parse f.render = .ok f) ∧
    ∀ f : Formula, f.IsNormal → (Formula.parse f.render = .ok f ↔ nesting f.render ≤ 64) := by
  have hreads : ∀ f : Formula, f.IsNormal →
      (Formula.parse f.render = .ok f ↔ nesting f.render ≤ 64) := by
    intro f hn
    constructor
    · exact Formula.nesting_le_of_parse
    · intro hd
      exact hn.parse_render (hn.nesting_render ▸ hd)
  refine ⟨?_, hreads⟩
  intro bytes f hf
  obtain ⟨hn, hd⟩ := Formula.isNormal_of_parse hf
  exact ⟨hn, hd, (hreads f hn).mpr (Nat.le_trans hd (Formula.nesting_le_of_parse hf))⟩

/-- Parentheses that are not needed are dropped, at the outside, around a label and around operands
of the same connective; those that are left read as the same formula. -/
theorem normal_forms_read_back_redundant :
    let bytes : Bytes := [0x28, 0x28, 0x61, 0x26, 0x28, 0x62, 0x26, 0x63, 0x29, 0x29, 0x7C, 0x28,
      0x28, 0x64, 0x29, 0x29, 0x29]
    let f : Formula := .group .any [.group .all [.term [0x61], .term [0x62], .term [0x63]],
      .term [0x64]]
    let written : Bytes := [0x28, 0x61, 0x26, 0x62, 0x26, 0x63, 0x29, 0x7C, 0x64]
    Formula.parse bytes = .ok f ∧ f.IsNormal ∧ f.render = written ∧ nesting written ≤ 64 ∧
      Formula.parse written = .ok f := by
  intro bytes f written
  have hparse : Formula.parse bytes = .ok f := rfl
  obtain ⟨hreads, hwritten⟩ := normal_forms_read_back
  obtain ⟨hnormal, -, -⟩ := hreads bytes f hparse
  have hdepth : nesting written ≤ 64 := by decide
  exact ⟨hparse, hnormal, rfl, hdepth, (hwritten f hnormal).mpr hdepth⟩

end RowVault.Visibility
