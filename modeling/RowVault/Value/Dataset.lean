import RowVault.Value.Basic

/-!
# Datasets

A dataset holds at most one value for each field, in the order in which the fields were first
added. Adding a field that is present replaces its value in place.
-/

namespace RowVault

/-- Put a value into a list: in place of the first one of the same field, else at the end. -/
def FieldValue.putInto (v : FieldValue) : List FieldValue → List FieldValue
  | [] => [v]
  | w :: ws => if w.field = v.field then v :: ws else w :: v.putInto ws

/-- Putting a value keeps the order of the fields and appends a new one. -/
theorem FieldValue.map_field_putInto (v : FieldValue) (ws : List FieldValue) :
    (v.putInto ws).map (·.field) =
      if v.field ∈ ws.map (·.field) then ws.map (·.field) else ws.map (·.field) ++ [v.field] := by
  induction ws with
  | nil => rfl
  | cons w ws ih =>
    unfold putInto
    by_cases h : w.field = v.field
    · simp [h]
    · have h' : ¬ v.field = w.field := fun e ↦ h e.symm
      rw [if_neg h, List.map_cons, ih]
      by_cases hm : v.field ∈ ws.map (·.field)
      · simp [hm]
      · simp only [List.map_cons, List.mem_cons, h', hm, or_self, if_false, List.cons_append]

private theorem FieldValue.find?_putInto (v : FieldValue) (ws : List FieldValue) (field : Bytes) :
    (v.putInto ws).find? (·.field = field) =
      if v.field = field then some v else ws.find? (·.field = field) := by
  induction ws with
  | nil => simp [putInto, List.find?_cons]; split <;> simp_all
  | cons w ws ih =>
    unfold putInto
    by_cases h : w.field = v.field
    · rw [if_pos h, List.find?_cons, List.find?_cons, h]
      by_cases hv : v.field = field <;> simp [hv]
    · rw [if_neg h, List.find?_cons, List.find?_cons, ih]
      by_cases hw : w.field = field
      · have hv : ¬ v.field = field := fun e ↦ h (hw.trans e.symm)
        simp [hw, hv]
      · simp [hw]

/-- Values of distinct fields, in the order in which the fields were first added. -/
structure Dataset where
  fields : List FieldValue
  nodup : (fields.map (·.field)).Nodup
  deriving DecidableEq, Repr

namespace Dataset

/-- The dataset without fields. -/
def empty : Dataset := ⟨[], by simp⟩

/-- Add a value, in place of an earlier one of the same field. -/
def add (d : Dataset) (v : FieldValue) : Dataset where
  fields := v.putInto d.fields
  nodup := by
    rw [v.map_field_putInto]
    split
    · exact d.nodup
    · next h =>
      rw [List.nodup_append]
      refine ⟨d.nodup, by simp, ?_⟩
      intro a ha b hb e
      rw [List.mem_singleton] at hb
      exact h (hb ▸ e ▸ ha)

/-- Add values one after another to the empty dataset. -/
def ofList (vs : List FieldValue) : Dataset := vs.foldl add empty

/-- The value of a field. -/
def get? (d : Dataset) (field : Bytes) : Option Value :=
  (d.fields.find? (·.field = field)).map (·.value)

/-- The number of fields. -/
def size (d : Dataset) : Nat := d.fields.length

/-- Nothing is in the empty dataset. -/
theorem get?_empty (field : Bytes) : empty.get? field = none := rfl

/-- Adding a value changes its own field only. -/
theorem get?_add (d : Dataset) (v : FieldValue) (field : Bytes) :
    (d.add v).get? field = if v.field = field then some v.value else d.get? field := by
  rw [get?, add, FieldValue.find?_putInto]
  split <;> rfl

/-- Adding a value appends its field, unless it is there. -/
theorem map_field_add (d : Dataset) (v : FieldValue) :
    (d.add v).fields.map (·.field) =
      if v.field ∈ d.fields.map (·.field) then d.fields.map (·.field)
      else d.fields.map (·.field) ++ [v.field] :=
  v.map_field_putInto d.fields

end Dataset

end RowVault
