import RowVault.Proofs.Visibility.Reading

/-!
# Joining many formulas

Formulas that are joined two at a time may be grouped in any way that keeps their order. A part that
is not admitted is never lost: whom the joined formula admits, every part admits. The other way
round, each join of two sides that are not empty puts its sides one level of parentheses deeper. As
long as no well-formed part comes to lie deeper than parentheses may nest, the joined formula admits
everyone whom all parts admit, however they are grouped.
-/

namespace RowVault.Visibility

/-- A way to join formulas two at a time, in their order. -/
inductive Bracketing where
  /-- No formula at all. -/
  | nothing
  | part (formula : Bytes)
  | join (left right : Bracketing)
  deriving Repr

namespace Bracketing

/-- The formulas that are joined, in their order. -/
def parts : Bracketing → List Bytes
  | nothing => []
  | part formula => [formula]
  | join left right => left.parts ++ right.parts

/-- The formula that joins all parts. -/
def formula : Bracketing → Bytes
  | nothing => []
  | part formula => formula
  | join left right => conjoin left.formula right.formula

/-- The parts, each with the number of joins above it that have two sides which are not empty,
counted from `above` on. -/
def partsBelow (above : Nat) : Bracketing → List (Bytes × Nat)
  | nothing => []
  | part formula => [(formula, above)]
  | join left right =>
    let inner := if left.formula ≠ [] ∧ right.formula ≠ [] then above + 1 else above
    left.partsBelow inner ++ right.partsBelow inner

/-- Below so many joins, every well-formed part has room for its own parentheses: they nest at most
64 deep together with the joins above the part. -/
def HasRoomBelow (above : Nat) (b : Bracketing) : Prop :=
  ∀ p ∈ b.partsBelow above, (∃ f, Formula.parse p.1 = .ok f) → nesting p.1 + p.2 ≤ 64

/-- Every well-formed part has room for its own parentheses below the joins above it. -/
def HasRoom (b : Bracketing) : Prop := b.HasRoomBelow 0

/-- Every part is empty or a formula. -/
def WellFormed (b : Bracketing) : Prop :=
  ∀ formula ∈ b.parts, formula = [] ∨ ∃ f, Formula.parse formula = .ok f

/-! ## Folds -/

/-- Parts are joined from the first one on. -/
def leftward (parts : List Bytes) : Bracketing :=
  parts.foldl (fun b formula ↦ join b (part formula)) nothing

/-- Parts are joined from the last one on. -/
def rightward (parts : List Bytes) : Bracketing :=
  parts.foldr (fun formula b ↦ join (part formula) b) nothing

/-- Joining from the first one on joins all parts in their order, into the left fold. -/
theorem leftward_eq (formulas : List Bytes) :
    (leftward formulas).parts = formulas ∧
      (leftward formulas).formula = formulas.foldl conjoin [] := by
  have hall : ∀ b : Bracketing,
      (formulas.foldl (fun b formula ↦ join b (part formula)) b).parts = b.parts ++ formulas ∧
        (formulas.foldl (fun b formula ↦ join b (part formula)) b).formula =
          formulas.foldl conjoin b.formula := by
    induction formulas with
    | nil => exact fun b ↦ ⟨(List.append_nil _).symm, rfl⟩
    | cons formula rest ih =>
      intro b
      obtain ⟨hparts, hformula⟩ := ih (join b (part formula))
      refine ⟨?_, hformula⟩
      rw [List.foldl_cons, hparts, parts, parts, List.append_assoc, List.singleton_append]
  exact hall nothing

/-- Joining from the last one on joins all parts in their order, into the right fold. -/
theorem rightward_eq (formulas : List Bytes) :
    (rightward formulas).parts = formulas ∧
      (rightward formulas).formula = formulas.foldr conjoin [] := by
  induction formulas with
  | nil => exact ⟨rfl, rfl⟩
  | cons formula rest ih =>
    obtain ⟨hparts, hformula⟩ := ih
    exact ⟨congrArg (formula :: ·) hparts, congrArg (conjoin formula) hformula⟩

end Bracketing

/-! ## Joining two formulas -/

/-- Two formulas in parentheses nest one level deeper than the deeper one of them. -/
theorem nesting_wrapped {left right : Bytes} {f g : Formula} (hf : Formula.parse left = .ok f)
    (hg : Formula.parse right = .ok g) :
    nesting (wrapped left right) = max (nesting left) (nesting right) + 1 := by
  obtain ⟨p, rfl, -, -⟩ := Formula.exists_phrase_of_parse hf
  obtain ⟨q, rfl, -, -⟩ := Formula.exists_phrase_of_parse hg
  have hspell : wrapped p.spell q.spell =
      (Phrase.joined .all (.parenthesised p) (.last (.parenthesised q))).spell := by
    simp [wrapped, Phrase.spell, Operand.spell, Operands.spell]
  rw [hspell, Phrase.nesting_spell, Phrase.nesting_spell, Phrase.nesting_spell, Phrase.depth,
    Operands.depth, Operand.depth, Operand.depth]
  omega

/-- Only two empty sides join to nothing. -/
theorem conjoin_eq_nil_iff {left right : Bytes} :
    conjoin left right = [] ↔ left = [] ∧ right = [] := by
  unfold conjoin
  split
  · simp
  · simp
  · next hl hr =>
    have hne : ¬ (left = [] ∧ right = []) := fun h ↦ hl h.1
    split <;> simp [wrapped, hne]

/-- What reads as a formula, and leaves room for so many levels of parentheses around it. -/
def FitsBelow (above : Nat) (formula : Bytes) : Prop :=
  (∃ f, Formula.parse formula = .ok f) ∧ nesting formula + above ≤ maxNesting

/-- Two sides that are not empty join to a formula exactly if both are formulas with room for one
more level. -/
theorem fitsBelow_conjoin_iff {left right : Bytes} (hl : left ≠ []) (hr : right ≠ [])
    (above : Nat) :
    FitsBelow above (conjoin left right) ↔
      FitsBelow (above + 1) left ∧ FitsBelow (above + 1) right := by
  constructor
  · rintro ⟨⟨h, hjoined⟩, hroom⟩
    cases hm : malformed? left right with
    | some e =>
      rw [conjoin_of_malformed hl hr (by rw [hm]; rfl), Formula.parse_closeByte_cons] at hjoined
      cases hjoined
    | none =>
      obtain ⟨⟨f, hf⟩, g, hg⟩ :
          (∃ f, Formula.parse left = .ok f) ∧ ∃ g, Formula.parse right = .ok g := by
        unfold malformed? at hm
        cases hf : Formula.parse left <;> cases hg : Formula.parse right <;> simp_all
      rw [conjoin_of_parse hf hg, nesting_wrapped hf hg] at hroom
      exact ⟨⟨⟨f, hf⟩, by omega⟩, ⟨g, hg⟩, by omega⟩
  · rintro ⟨⟨⟨f, hf⟩, hleft⟩, ⟨g, hg⟩, hright⟩
    rw [FitsBelow, conjoin_of_parse hf hg, nesting_wrapped hf hg]
    exact ⟨⟨_, parse_wrapped hf hg (by omega) (by omega)⟩, by omega⟩

namespace Bracketing

variable {b left right : Bracketing} {above : Nat}

/-! ## Joining many formulas -/

/-- Whom a joined formula admits, every part admits. -/
theorem permits_of_mem_parts (b : Bracketing) {labels : Labels}
    (h : permits b.formula labels = true) :
    ∀ formula ∈ b.parts, permits formula labels = true := by
  induction b with
  | nothing =>
    intro formula hm
    cases hm
  | part formula =>
    intro other hm
    rwa [List.mem_singleton.mp hm]
  | join left right hleft hright =>
    obtain ⟨hl, hr⟩ := permits_of_permits_conjoin h
    intro formula hm
    rcases List.mem_append.mp hm with hm | hm
    · exact hleft hl formula hm
    · exact hright hr formula hm

/-- There is room in a join if there is room in both of its sides, one level deeper where neither
side is empty. -/
theorem hasRoomBelow_join_iff :
    (join left right).HasRoomBelow above ↔
      left.HasRoomBelow (if left.formula ≠ [] ∧ right.formula ≠ [] then above + 1 else above) ∧
      right.HasRoomBelow
        (if left.formula ≠ [] ∧ right.formula ≠ [] then above + 1 else above) :=
  List.forall_mem_append

/-- Where all parts are empty or formulas, there is room for them exactly if they join to nothing or
to a formula that leaves room for the levels above it. -/
theorem hasRoomBelow_iff (b : Bracketing) (h : b.WellFormed) (above : Nat) :
    b.HasRoomBelow above ↔ b.formula = [] ∨ FitsBelow above b.formula := by
  induction b generalizing above with
  | nothing => simp [HasRoomBelow, partsBelow, formula]
  | part formula =>
    have hroom : (part formula).HasRoomBelow above ↔
        ((∃ f, Formula.parse formula = .ok f) → nesting formula + above ≤ maxNesting) :=
      List.forall_mem_singleton
    rw [hroom]
    rcases h formula (List.mem_singleton.mpr rfl) with rfl | hf
    · exact ⟨fun _ ↦ .inl rfl, fun _ ⟨f, hf⟩ ↦ absurd rfl (Formula.ne_nil_of_parse hf)⟩
    · obtain ⟨f, hne⟩ := hf
      simp [Bracketing.formula, FitsBelow, hne, Formula.ne_nil_of_parse hne]
  | join left right hleft hright =>
    have hl := hleft fun p hp ↦ h p (List.mem_append_left _ hp)
    have hr := hright fun p hp ↦ h p (List.mem_append_right _ hp)
    rw [hasRoomBelow_join_iff, hl, hr, formula]
    by_cases hln : left.formula = []
    · simp [hln]
    · by_cases hrn : right.formula = []
      · simp [hrn]
      · simp [hln, hrn, fitsBelow_conjoin_iff hln hrn, conjoin_eq_nil_iff]

/-- Where there is room for all parts, the joined formula admits all whom every part admits. -/
theorem permits_formula (b : Bracketing) (h : b.WellFormed) {above : Nat}
    (hroom : b.HasRoomBelow above) (labels : Labels) :
    permits b.formula labels = b.parts.all (permits · labels) := by
  induction b generalizing above with
  | nothing => rfl
  | part formula => simp [parts, Bracketing.formula]
  | join left right hleft hright =>
    have hlw : left.WellFormed := fun p hp ↦ h p (List.mem_append_left _ hp)
    have hrw : right.WellFormed := fun p hp ↦ h p (List.mem_append_right _ hp)
    obtain ⟨hl, hr⟩ := hasRoomBelow_join_iff.mp hroom
    rw [formula, permits_conjoin labels, hleft hlw hl, hright hrw hr, parts, List.all_append]
    by_cases hln : left.formula = []
    · exact .inl hln
    · by_cases hrn : right.formula = []
      · exact .inr (.inl hrn)
      · rw [if_pos ⟨hln, hrn⟩] at hl hr
        have hfl := (((left.hasRoomBelow_iff hlw _).mp hl).resolve_left hln).2
        have hfr := (((right.hasRoomBelow_iff hrw _).mp hr).resolve_left hrn).2
        exact .inr (.inr (.inr (.inr ⟨by omega, by omega⟩)))

/-- Parts that admit a caller are empty or formulas. -/
theorem wellFormed_of_permits {labels : Labels}
    (h : ∀ formula ∈ b.parts, permits formula labels = true) : b.WellFormed := by
  intro formula hm
  rcases permits_eq_true_iff.mp (h formula hm) with hnil | ⟨f, hf, -⟩
  · exact .inl hnil
  · exact .inr ⟨f, hf⟩

/-- Where there is room for all well-formed parts, the joined formula decides as all parts
together, whether or not they are well-formed. -/
theorem HasRoom.permits_eq (h : b.HasRoom) (labels : Labels) :
    permits b.formula labels = b.parts.all (permits · labels) := by
  rw [Bool.eq_iff_iff, List.all_eq_true]
  constructor
  · exact b.permits_of_mem_parts
  · intro hparts
    rw [b.permits_formula (wellFormed_of_permits hparts) h, List.all_eq_true]
    exact hparts

/-- Where there is no room for some part and all are empty or formulas, no one is admitted. -/
theorem permits_eq_false (h : b.WellFormed) (hn : ¬ b.HasRoom) (labels : Labels) :
    permits b.formula labels = false := by
  apply Bool.eq_false_iff.mpr
  intro hp
  apply hn
  refine (b.hasRoomBelow_iff h 0).mpr ?_
  rcases permits_eq_true_iff.mp hp with hnil | ⟨f, hf, -⟩
  · exact .inl hnil
  · exact .inr ⟨⟨f, hf⟩, Formula.nesting_le_of_parse hf⟩

end Bracketing

/-- However formulas are joined two at a time, from the first one on, from the last one on or in any
other grouping that keeps their order, whom the joined formula admits, each of them admits. If the
nesting of each well-formed one, together with the number of joins above it whose sides are both not
empty, is at most 64, the joined formula admits just those whom all of them admit, so that all
groupings with this property decide alike. Formulas that are all empty or well-formed admit no one
in a grouping without it. -/
theorem bracketings_agree (formulas : List Bytes) :
    (∀ b : Bracketing, b.parts = formulas → ∀ labels, permits b.formula labels = true →
      ∀ formula ∈ formulas, permits formula labels = true) ∧
    (∀ b : Bracketing, b.parts = formulas → b.HasRoom →
      ∀ labels, permits b.formula labels = formulas.all (permits · labels)) ∧
    (∀ b c : Bracketing, b.parts = formulas → c.parts = formulas → b.HasRoom → c.HasRoom →
      ∀ labels, permits b.formula labels = permits c.formula labels) ∧
    (∀ b : Bracketing, b.parts = formulas → b.WellFormed → ¬ b.HasRoom →
      ∀ labels, permits b.formula labels = false) ∧
    ((Bracketing.leftward formulas).parts = formulas ∧
      (Bracketing.leftward formulas).formula = formulas.foldl conjoin []) ∧
    (Bracketing.rightward formulas).parts = formulas ∧
      (Bracketing.rightward formulas).formula = formulas.foldr conjoin [] := by
  refine ⟨?_, ?_, ?_, ?_, Bracketing.leftward_eq formulas, Bracketing.rightward_eq formulas⟩
  · rintro b rfl labels
    exact b.permits_of_mem_parts
  · rintro b rfl hroom
    exact hroom.permits_eq
  · rintro b c rfl hparts hb hc labels
    rw [hb.permits_eq, hc.permits_eq, hparts]
  · rintro b rfl hwf hn
    exact Bracketing.permits_eq_false hwf hn

private def deepLabel : Bytes := List.replicate 63 0x28 ++ [0x61] ++ List.replicate 63 0x29

/-- There is room for one join above a label inside 63 parentheses, and none for two. So the right
fold decides like a grouping in the middle, and the left fold admits no one; an empty formula takes
no room. -/
theorem bracketings_agree_deep :
    let formulas : List Bytes := [deepLabel, [], [0x62, 0x7C, 0x63], [0x64]]
    let middle : Bracketing := .join (.join (.part deepLabel) (.part []))
      (.join (.part [0x62, 0x7C, 0x63]) (.part [0x64]))
    let labels : Labels := .ofList ([[0x61], [0x63], [0x64]] : List Bytes)
    (Bracketing.rightward formulas).HasRoom ∧ middle.HasRoom ∧
      ¬ (Bracketing.leftward formulas).HasRoom ∧
      permits (formulas.foldr conjoin []) labels = true ∧
      permits middle.formula labels = true ∧
      (∀ formula ∈ formulas, permits formula labels = true) ∧
      permits (formulas.foldl conjoin []) labels = false := by
  intro formulas middle labels
  have hroom : ∀ b : Bracketing, (∀ p ∈ b.partsBelow 0, nesting p.1 + p.2 ≤ 64) → b.HasRoom :=
    fun b h p hp _ ↦ h p hp
  have hright : (Bracketing.rightward formulas).HasRoom := hroom _ (by decide +kernel)
  have hmiddle : middle.HasRoom := hroom _ (by decide +kernel)
  have hleft : ¬ (Bracketing.leftward formulas).HasRoom := by
    intro h
    have hdeep := h (deepLabel, 2) (by decide +kernel) ⟨.term [0x61], rfl⟩
    exact absurd hdeep (by decide +kernel)
  obtain ⟨hparts, hdecides, hagree, hnone, ⟨hfirst, hfoldl⟩, hlast, hfoldr⟩ :=
    bracketings_agree formulas
  have hall : permits (Bracketing.rightward formulas).formula labels = true := by
    rw [hdecides _ hlast hright]
    decide +kernel
  have heach := hparts _ hlast labels hall
  have hwf : (Bracketing.leftward formulas).WellFormed :=
    @Bracketing.wellFormed_of_permits _ labels (hfirst.symm ▸ heach)
  refine ⟨hright, hmiddle, hleft, hfoldr ▸ hall, ?_, heach, ?_⟩
  · rw [hagree middle _ rfl hlast hmiddle hright, hall]
  · rw [← hfoldl]
    exact hnone _ hfirst hwf hleft labels

end RowVault.Visibility
