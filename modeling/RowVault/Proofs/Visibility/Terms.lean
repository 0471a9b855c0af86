import RowVault.Visibility.Decision

/-!
# The terms of a formula

A formula only asks for labels. So a decision about it depends on nothing but which of its terms are
held, and whoever holds more of them is admitted wherever fewer were enough.
-/

namespace RowVault.Visibility

variable {A B : Labels}

namespace Formula

mutual

/-- The labels that a formula asks for, in the order of its terms. -/
def terms : Formula → List Bytes
  | term label => [label]
  | group _ fs => termsEach fs

/-- The labels that formulas ask for. -/
def termsEach : List Formula → List Bytes
  | [] => []
  | f :: fs => terms f ++ termsEach fs

end

mutual

/-- A formula that holds still does if all its terms that were held are. -/
theorem holds_of_terms (f : Formula) (h : ∀ l ∈ f.terms, l ∈ A → l ∈ B)
    (hf : f.holds A = true) : f.holds B = true := by
  cases f with
  | term label => exact h label (List.mem_singleton_self label) hf
  | group c fs =>
    cases c with
    | all => exact allHold_of_terms fs h hf
    | any => exact anyHolds_of_terms fs h hf

/-- So do all formulas of a list. -/
theorem allHold_of_terms (fs : List Formula) (h : ∀ l ∈ termsEach fs, l ∈ A → l ∈ B)
    (hfs : allHold A fs = true) : allHold B fs = true := by
  cases fs with
  | nil => rfl
  | cons f rest =>
    obtain ⟨hterms, hrest⟩ := List.forall_mem_append.mp h
    rw [allHold, Bool.and_eq_true] at hfs ⊢
    exact ⟨holds_of_terms f hterms hfs.1, allHold_of_terms rest hrest hfs.2⟩

/-- And so does the one of a list that holds. -/
theorem anyHolds_of_terms (fs : List Formula) (h : ∀ l ∈ termsEach fs, l ∈ A → l ∈ B)
    (hfs : anyHolds A fs = true) : anyHolds B fs = true := by
  cases fs with
  | nil => cases hfs
  | cons f rest =>
    obtain ⟨hterms, hrest⟩ := List.forall_mem_append.mp h
    rw [anyHolds, Bool.or_eq_true] at hfs ⊢
    exact hfs.imp (holds_of_terms f hterms) (anyHolds_of_terms rest hrest)

end

/-- Label sets with the same terms of a formula satisfy it alike. -/
theorem holds_congr {f : Formula} (h : ∀ l ∈ f.terms, (l ∈ A ↔ l ∈ B)) :
    f.holds A = f.holds B :=
  Bool.eq_iff_iff.mpr ⟨f.holds_of_terms fun l hl ↦ (h l hl).mp,
    f.holds_of_terms fun l hl ↦ (h l hl).mpr⟩

/-- A formula that holds still does for a larger label set. -/
theorem holds_mono (h : ∀ l ∈ A, l ∈ B) {f : Formula} (hf : f.holds A = true) :
    f.holds B = true :=
  f.holds_of_terms (fun l _ ↦ h l) hf

end Formula

variable {formula : Bytes}

/-- Callers who hold the same terms of a formula are admitted alike. -/
theorem permits_congr
    (h : ∀ f, Formula.parse formula = .ok f → ∀ l ∈ f.terms, (l ∈ A ↔ l ∈ B)) :
    permits formula A = permits formula B := by
  cases formula with
  | nil => rfl
  | cons b rest =>
    unfold permits
    cases hf : Formula.parse (b :: rest) with
    | error e => rfl
    | ok f => exact Formula.holds_congr (h f hf)

/-- A caller who is given more labels is still admitted. -/
theorem permits_mono (h : ∀ l ∈ A, l ∈ B) (hA : permits formula A = true) :
    permits formula B = true := by
  rw [permits_eq_true_iff] at hA ⊢
  refine hA.imp_right ?_
  rintro ⟨f, hf, hholds⟩
  exact ⟨f, hf, Formula.holds_mono h hholds⟩

end RowVault.Visibility
