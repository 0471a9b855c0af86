import RowVault.Store.Rows

/-!
# Row sets as filings come and go

Removing filings from the rows of an index keeps exactly the rows of other filings. Placing a filing
displaces the filings that hold one of its places, and the filing itself where it lists a place
twice.
-/

namespace RowVault

/-- The places of the rows that an entry lists. -/
def EntryInfo.places (i : EntryInfo) : List RowKey := i.rows.map (·.place)

/-- Whether a row is wanted and visible. -/
def StoredRow.shows {T : Type} (labels : Labels) (wanted : StoredRow T → Bool)
    (r : StoredRow T) : Bool :=
  wanted r && r.isVisible labels

namespace RowSet

variable {T : Type} {rows : RowSet T} {f g : Filing T} {place : RowKey} {r : StoredRow T} {n : Nat}

/-- The rows that satisfy a condition. -/
def only (rows : RowSet T) (p : StoredRow T → Bool) : RowSet T := rows.filter fun _ r ↦ p r

/-- Look-ups meet the rows that satisfy the condition. -/
@[simp] theorem getElem?_only (rows : RowSet T) (p : StoredRow T → Bool) (place : RowKey) :
    (rows.only p)[place]? = rows[place]?.filter p :=
  Std.ExtTreeMap.getElem?_filter'

/-- The rows that satisfy the condition stay in their order. -/
theorem all_only (rows : RowSet T) (p : StoredRow T → Bool) :
    (rows.only p).all = rows.all.filter p := by
  simp only [all, only, Std.ExtTreeMap.toList_filter, List.filter_map]
  rfl

/-- All rows are kept if the condition holds of all of them. -/
theorem only_eq_self {p : StoredRow T → Bool}
    (h : ∀ (place : RowKey) (r : StoredRow T), rows[place]? = some r → p r = true) :
    rows.only p = rows := by
  apply Std.ExtTreeMap.ext_getElem?
  intro place
  rw [getElem?_only]
  cases hr : rows[place]? with
  | none => rfl
  | some r => simp [Option.filter_some, h place r hr]

/-- Conditions that agree on all rows keep the same rows. -/
theorem only_congr {p q : StoredRow T → Bool}
    (h : ∀ (place : RowKey) (r : StoredRow T), rows[place]? = some r → p r = q r) :
    rows.only p = rows.only q := by
  apply Std.ExtTreeMap.ext_getElem?
  intro place
  rw [getElem?_only, getElem?_only]
  cases hr : rows[place]? with
  | none => rfl
  | some r => rw [Option.filter_some, Option.filter_some, h place r hr]

/-- Two conditions are asked one after the other. -/
theorem only_only (rows : RowSet T) (p q : StoredRow T → Bool) :
    (rows.only p).only q = rows.only fun r ↦ p r && q r := by
  apply Std.ExtTreeMap.ext_getElem?
  intro place
  simp only [getElem?_only, Option.filter_filter]

/-- Every row is looked up at its place. -/
theorem mem_all_iff : r ∈ rows.all ↔ ∃ place : RowKey, rows[place]? = some r := by
  simp only [all, List.mem_map, Prod.exists, exists_eq_right,
    Std.ExtTreeMap.mem_toList_iff_getElem?_eq_some]

/-- Rows between two places are rows. -/
theorem mem_all_of_mem_between {lower : RowKey} {upper : Option RowKey}
    (h : r ∈ rows.between lower upper) : r ∈ rows.all := by
  obtain ⟨p, hp, rfl⟩ := List.mem_map.mp h
  exact List.mem_map_of_mem (List.mem_filter.mp hp).1

/-! ## Places -/

/-- Every row is at its own place. This is how rows are put into a row set. -/
def Placed (rows : RowSet T) : Prop :=
  ∀ (place : RowKey) (r : StoredRow T), rows[place]? = some r → r.place = place

/-- Rows that are not there are not misplaced. -/
theorem placed_empty : Placed (∅ : RowSet T) := by
  intro place r hr
  simp at hr

/-- A row that is put at its own place leaves the others at theirs. -/
theorem Placed.insert (h : rows.Placed) (r : StoredRow T) : Placed (rows.insert r.place r) := by
  intro place q hq
  rw [Std.ExtTreeMap.getElem?_insert] at hq
  split at hq
  · next he =>
    cases hq
    exact Std.LawfulEqOrd.eq_of_compare he
  · exact h place q hq

/-- The rows are those that are found at their own places. -/
theorem Placed.mem_all_iff (h : rows.Placed) : r ∈ rows.all ↔ rows[r.place]? = some r := by
  rw [RowSet.mem_all_iff]
  constructor
  · rintro ⟨place, hr⟩
    rwa [h place r hr]
  · intro hr
    exact ⟨r.place, hr⟩

/-! ## Noted filings -/

/-- A filing is noted under its number. -/
theorem mem_numbers_noteFiling (f : Filing T) (noted : List (Filing T)) (n : Nat) :
    n ∈ (noteFiling f noted).map (·.number) ↔ n ∈ noted.map (·.number) ∨ n = f.number := by
  unfold noteFiling
  split
  · next h =>
    obtain ⟨g, hg, he⟩ := List.any_eq_true.mp h
    refine ⟨.inl, ?_⟩
    rintro (h | rfl)
    · exact h
    · exact List.mem_map.mpr ⟨g, hg, by simpa using he⟩
  · simp

/-- Only the filing at hand is noted. -/
theorem mem_of_mem_noteFiling {noted : List (Filing T)} (h : g ∈ noteFiling f noted) :
    g ∈ noted ∨ g = f := by
  unfold noteFiling at h
  split at h
  · exact .inl h
  · simpa using h

/-- No number is noted twice. -/
theorem nodup_noteFiling (f : Filing T) {noted : List (Filing T)}
    (h : (noted.map (·.number)).Nodup) : ((noteFiling f noted).map (·.number)).Nodup := by
  unfold noteFiling
  split
  · exact h
  · next hn =>
    rw [List.map_append, List.nodup_append]
    refine ⟨h, by simp, ?_⟩
    intro a ha b hb e
    obtain ⟨g, hg, rfl⟩ := List.mem_map.mp ha
    have hb' : b = f.number := by simpa using hb
    exact hn (List.any_eq_true.mpr ⟨g, hg, by simp [e, hb']⟩)

/-! ## Removal -/

/-- A listed place is emptied if the filing holds it; other places stay as they are. -/
theorem getElem?_removeListed (n : Nat) (rows : RowSet T) (listed : List EncodedRow)
    (place : RowKey) :
    (rows.removeListed n listed).1[place]? =
      if place ∈ listed.map (·.place) then
        rows[place]?.filter fun r ↦ decide (r.filing.number ≠ n)
      else rows[place]? := by
  induction listed generalizing rows with
  | nil => simp [removeListed]
  | cons r rest ih =>
    unfold removeListed
    cases hr : rows[r.place]? with
    | none =>
      dsimp only
      rw [ih]
      by_cases hp : place = r.place
      · simp [hp, hr]
      · simp [hp]
    | some stored =>
      dsimp only
      split
      · next hn =>
        rw [ih, Std.ExtTreeMap.getElem?_erase]
        by_cases hp : place = r.place
        · simp [hp, hr, hn, Option.filter_some]
        · simp [hp, Ne.symm hp]
      · next hn =>
        rw [ih]
        by_cases hp : place = r.place
        · simp [hp, hr, hn, Option.filter_some]
        · simp [hp]

/-- Something is removed if the filing holds a listed place. -/
theorem removeListed_pos_iff (n : Nat) (rows : RowSet T) (listed : List EncodedRow) :
    0 < (rows.removeListed n listed).2 ↔
      ∃ r ∈ listed, ∃ stored, rows[r.place]? = some stored ∧ stored.filing.number = n := by
  induction listed generalizing rows with
  | nil => simp [removeListed]
  | cons r rest ih =>
    unfold removeListed
    cases hr : rows[r.place]? with
    | none =>
      dsimp only
      rw [ih]
      simp [hr]
    | some stored =>
      dsimp only
      split
      · next hn => simp [hr, hn]
      · next hn =>
        rw [ih]
        simp [hr, hn]

/-- Every row of a filing's number is at a place that the filing lists. -/
def Lists (rows : RowSet T) (f : Filing T) : Prop :=
  ∀ (place : RowKey) (r : StoredRow T), rows[place]? = some r → r.filing.number = f.number →
    place ∈ f.info.places

/-- Removing a filing that lists all its rows keeps the rows of other filings. -/
theorem removeFiling_eq (h : rows.Lists f) :
    (rows.removeFiling f).1 = rows.only fun r ↦ decide (r.filing.number ≠ f.number) := by
  apply Std.ExtTreeMap.ext_getElem?
  intro place
  rw [removeFiling, getElem?_removeListed, getElem?_only]
  split
  · rfl
  · next hp =>
    cases hr : rows[place]? with
    | none => rfl
    | some r =>
      have hn : r.filing.number ≠ f.number := fun e ↦ hp (h place r hr e)
      simp [Option.filter_some, hn]

/-- Something is removed if the filing has a row. -/
theorem removeFiling_pos_iff (h : rows.Lists f) :
    0 < (rows.removeFiling f).2 ↔
      ∃ (place : RowKey) (r : StoredRow T),
        rows[place]? = some r ∧ r.filing.number = f.number := by
  rw [removeFiling, removeListed_pos_iff]
  constructor
  · rintro ⟨l, -, r, hr, hn⟩
    exact ⟨l.place, r, hr, hn⟩
  · rintro ⟨place, r, hr, hn⟩
    obtain ⟨l, hl, rfl⟩ := List.mem_map.mp (h place r hr hn)
    exact ⟨l, hl, r, hr, hn⟩

/-- Fewer rows are listed all the more. -/
theorem Lists.only (h : rows.Lists f) (p : StoredRow T → Bool) : (rows.only p).Lists f := by
  intro place r hr hn
  rw [getElem?_only, Option.filter_eq_some_iff] at hr
  exact h place r hr.1 hn

/-- Removing filings that list all their rows keeps the rows of other filings. -/
theorem removeEach_eq (filings : List (Filing T)) (h : ∀ f ∈ filings, rows.Lists f) :
    rows.removeEach filings =
      rows.only fun r ↦ decide (r.filing.number ∉ filings.map (·.number)) := by
  induction filings generalizing rows with
  | nil =>
    apply Std.ExtTreeMap.ext_getElem?
    intro place
    cases hr : rows[place]? <;> simp [removeEach, hr, Option.filter_some]
  | cons f rest ih =>
    have hf := removeFiling_eq (h f (by simp))
    have hrest : ∀ g ∈ rest, (rows.only fun r ↦ decide (r.filing.number ≠ f.number)).Lists g :=
      fun g hg ↦ (h g (by simp [hg])).only _
    change (rows.removeFiling f).1.removeEach rest = _
    rw [hf, ih hrest]
    apply Std.ExtTreeMap.ext_getElem?
    intro place
    simp only [getElem?_only, Option.filter_filter]
    congr 1
    funext r
    simp

/-! ## Placing -/

/-- Places that are not listed keep their rows. -/
theorem getElem?_placeListed_of_not_mem (f : Filing T) (noted : List (Filing T))
    {listed : List EncodedRow} (h : place ∉ listed.map (·.place)) :
    (rows.placeListed f noted listed).1[place]? = rows[place]? := by
  induction listed generalizing rows noted with
  | nil => rfl
  | cons r rest ih =>
    rw [List.map_cons, List.mem_cons, not_or] at h
    rw [placeListed, ih _ h.2, Std.ExtTreeMap.getElem?_insert]
    simp [Ne.symm h.1]

/-- A listed row is at its place, if its place tells it from the other listed rows. -/
theorem getElem?_placeListed_of_mem (f : Filing T) (noted : List (Filing T))
    {listed : List EncodedRow} {l : EncodedRow} (hl : l ∈ listed)
    (h : ∀ a ∈ listed, a.place = l.place → a = l) :
    (rows.placeListed f noted listed).1[l.place]? = some ⟨l, f⟩ := by
  induction listed generalizing rows noted with
  | nil => cases hl
  | cons r rest ih =>
    rw [placeListed]
    by_cases hrest : l ∈ rest
    · exact ih _ hrest fun a ha ↦ h a (List.mem_cons_of_mem r ha)
    · have hr : r = l := by
        rcases List.mem_cons.mp hl with e | e
        · exact e.symm
        · exact absurd e hrest
      have hp : l.place ∉ rest.map (·.place) := by
        intro hm
        obtain ⟨a, ha, he⟩ := List.mem_map.mp hm
        exact hrest (h a (List.mem_cons_of_mem r ha) he ▸ ha)
      rw [getElem?_placeListed_of_not_mem _ _ hp, hr, Std.ExtTreeMap.getElem?_insert_self]

/-- A filing displaces the numbers that hold one of its places. -/
def Displaces (rows : RowSet T) (f : Filing T) (n : Nat) : Prop :=
  ∃ l ∈ f.info.rows, ∃ r, rows[l.place]? = some r ∧ r.filing.number = n

private theorem mem_numbers_noteDisplaced (noted : List (Filing T)) (o : Option (StoredRow T))
    (n : Nat) :
    n ∈ (noteDisplaced noted o).map (·.number) ↔
      n ∈ noted.map (·.number) ∨ ∃ r, o = some r ∧ r.filing.number = n := by
  cases o with
  | none => simp [noteDisplaced]
  | some r =>
    rw [noteDisplaced, mem_numbers_noteFiling]
    simp [eq_comm]

private theorem exists_insert_iff (f : Filing T) (rows : RowSet T) (l : EncodedRow)
    (rest : List EncodedRow) (n : Nat) :
    (∃ a ∈ rest, ∃ r, (rows.insert l.place ⟨l, f⟩)[a.place]? = some r ∧ r.filing.number = n) ↔
      (n = f.number ∧ l.place ∈ rest.map (·.place)) ∨
        ∃ a ∈ rest, a.place ≠ l.place ∧ ∃ r, rows[a.place]? = some r ∧ r.filing.number = n := by
  simp only [Std.ExtTreeMap.getElem?_insert, Std.LawfulEqOrd.compare_eq_iff_eq]
  constructor
  · rintro ⟨a, ha, r, hr, hn⟩
    split at hr
    · next he =>
      cases hr
      exact .inl ⟨hn.symm, List.mem_map.mpr ⟨a, ha, he.symm⟩⟩
    · next he => exact .inr ⟨a, ha, Ne.symm he, r, hr, hn⟩
  · rintro (⟨hn, hm⟩ | ⟨a, ha, he, r, hr, hn⟩)
    · obtain ⟨a, ha, he⟩ := List.mem_map.mp hm
      exact ⟨a, ha, ⟨l, f⟩, by rw [if_pos he.symm], hn.symm⟩
    · exact ⟨a, ha, r, by rw [if_neg (Ne.symm he)]; exact hr, hn⟩

/-- The numbers that are displaced: those that hold a listed place, and the filing's own one if a
place is listed twice. -/
theorem mem_numbers_placeListed (f : Filing T) (rows : RowSet T) (noted : List (Filing T))
    (listed : List EncodedRow) (n : Nat) :
    n ∈ (rows.placeListed f noted listed).2.map (·.number) ↔
      n ∈ noted.map (·.number) ∨
        (∃ l ∈ listed, ∃ r, rows[l.place]? = some r ∧ r.filing.number = n) ∨
        (n = f.number ∧ ¬ (listed.map (·.place)).Nodup) := by
  induction listed generalizing rows noted with
  | nil => simp [placeListed]
  | cons l rest ih =>
    rw [placeListed, ih, mem_numbers_noteDisplaced, exists_insert_iff]
    simp only [List.map_cons, List.nodup_cons, List.mem_cons, or_and_right, exists_or,
      exists_eq_left]
    constructor
    · rintro ((h | h) | (h | ⟨a, ha, -, h⟩) | h)
      · exact .inl h
      · exact .inr (.inl (.inl h))
      · exact .inr (.inr ⟨h.1, fun hd ↦ hd.1 h.2⟩)
      · exact .inr (.inl (.inr ⟨a, ha, h⟩))
      · exact .inr (.inr ⟨h.1, fun hd ↦ h.2 hd.2⟩)
    · rintro (h | (h | ⟨a, ha, h⟩) | ⟨hn, hd⟩)
      · exact .inl (.inl h)
      · exact .inl (.inr h)
      · by_cases he : a.place = l.place
        · exact .inl (.inr (he ▸ h))
        · exact .inr (.inl (.inr ⟨a, ha, he, h⟩))
      · by_cases hm : l.place ∈ rest.map (·.place)
        · exact .inr (.inl (.inl ⟨hn, hm⟩))
        · exact .inr (.inr ⟨hn, fun h ↦ hd ⟨hm, h⟩⟩)

/-- What is displaced held a listed place, or is the filing itself. -/
theorem mem_of_mem_placeListed {noted : List (Filing T)} {listed : List EncodedRow}
    (h : g ∈ (rows.placeListed f noted listed).2) :
    g ∈ noted ∨ g = f ∨ ∃ l ∈ listed, ∃ r, rows[l.place]? = some r ∧ r.filing = g := by
  induction listed generalizing rows noted with
  | nil => exact .inl h
  | cons l rest ih =>
    rcases ih h with h | h | ⟨a, ha, r, hr, hg⟩
    · cases hl : rows[l.place]? with
      | none =>
        rw [hl] at h
        exact .inl h
      | some r =>
        rw [hl] at h
        rcases mem_of_mem_noteFiling h with h | rfl
        · exact .inl h
        · exact .inr (.inr ⟨l, by simp, r, hl, rfl⟩)
    · exact .inr (.inl h)
    · rw [Std.ExtTreeMap.getElem?_insert] at hr
      split at hr
      · cases hr
        exact .inr (.inl hg.symm)
      · exact .inr (.inr ⟨a, List.mem_cons_of_mem l ha, r, hr, hg⟩)

/-- No number is displaced twice. -/
theorem nodup_placeListed (f : Filing T) (rows : RowSet T) {noted : List (Filing T)}
    (listed : List EncodedRow) (h : (noted.map (·.number)).Nodup) :
    ((rows.placeListed f noted listed).2.map (·.number)).Nodup := by
  induction listed generalizing rows noted with
  | nil => exact h
  | cons l rest ih =>
    apply ih _
    cases rows[l.place]? with
    | none => exact h
    | some r => exact nodup_noteFiling r.filing h

end RowSet

end RowVault
