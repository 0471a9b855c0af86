import RowVault.Proofs.Entry.Encoded
import RowVault.Proofs.Store.RowSets
import RowVault.Store.Ingest

/-!
# Entries are stored whole

In the rows of an index, every row is at its own place, and every row that its entry lists is stored
with the same filing. Removing filings by number keeps this, and so does storing a filing of a fresh
number: afterwards the rows are those of the filing, unless it lists a place twice, and those of the
filings that it does not displace.
-/

namespace RowVault

/-- Every row is at its place, among the rows that its entry lists, all of which are stored. -/
structure RowSet.WF {T : Type} (rows : RowSet T) : Prop where
  place_eq : ∀ {place : RowKey} {r}, rows[place]? = some r → r.place = place
  sound : ∀ {place : RowKey} {r}, rows[place]? = some r → r.filing.info.WF
  listed : ∀ {place : RowKey} {r}, rows[place]? = some r → r.row ∈ r.filing.info.rows
  whole : ∀ {place : RowKey} {r}, rows[place]? = some r →
    ∀ l ∈ r.filing.info.rows, rows[l.place]? = some ⟨l, r.filing⟩
  filing_eq : ∀ {place other : RowKey} {r q}, rows[place]? = some r → rows[other]? = some q →
    r.filing.number = q.filing.number → r.filing = q.filing

namespace RowSet

variable {T : Type} {rows : RowSet T} {f g : Filing T} {place : RowKey} {r : StoredRow T}

/-- There is nothing to ask of no rows. -/
theorem wf_empty : (∅ : RowSet T).WF where
  place_eq h := by simp at h
  sound h := by simp at h
  listed h := by simp at h
  whole h := by simp at h
  filing_eq h := by simp at h

/-- Every row is at its own place. -/
theorem WF.placed (h : rows.WF) : rows.Placed := fun _ _ ↦ h.place_eq

/-- Every row carries the encoding of its row id. -/
theorem WF.encode_eq (h : rows.WF) (hr : rows[place]? = some r) :
    r.row.id.encode = .ok r.row.raw :=
  (h.sound hr).encoded r.row (h.listed hr)

/-- A stored filing lists all rows of its number. -/
theorem WF.lists (h : rows.WF) (hr : rows[place]? = some r) : rows.Lists r.filing := by
  intro other q hq hn
  rw [← h.place_eq hq, ← h.filing_eq hq hr hn]
  exact List.mem_map_of_mem (h.listed hq)

/-- The filings of rows decide whether a condition holds of them. -/
def Respects (rows : RowSet T) (p : StoredRow T → Bool) : Prop :=
  ∀ {place other : RowKey} {r q}, rows[place]? = some r → rows[other]? = some q →
    r.filing.number = q.filing.number → p r = p q

/-- Where all rows of a filing are kept or removed together, entries stay whole. -/
theorem WF.only (h : rows.WF) {p : StoredRow T → Bool} (hp : rows.Respects p) :
    (rows.only p).WF := by
  have hsome : ∀ {place : RowKey} {r},
      (rows.only p)[place]? = some r ↔ rows[place]? = some r ∧ p r = true := by
    intro place r
    rw [getElem?_only, Option.filter_eq_some_iff]
  constructor
  · intro place r hr
    exact h.place_eq (hsome.1 hr).1
  · intro place r hr
    exact h.sound (hsome.1 hr).1
  · intro place r hr
    exact h.listed (hsome.1 hr).1
  · intro place r hr l hl
    obtain ⟨hr, hk⟩ := hsome.1 hr
    have hrow := h.whole hr l hl
    exact hsome.2 ⟨hrow, hp hr hrow rfl ▸ hk⟩
  · intro place other r q hr hq hn
    exact h.filing_eq (hsome.1 hr).1 (hsome.1 hq).1 hn

/-! ## Storing a filing -/

/-- The filings that a filing displaces when its rows are placed. -/
def displaced (rows : RowSet T) (f : Filing T) : List (Filing T) :=
  (rows.placeListed f [] f.info.rows).2

/-- The rows after a filing has been stored. -/
def stored (rows : RowSet T) (f : Filing T) : RowSet T :=
  (rows.placeListed f [] f.info.rows).1.removeEach (rows.displaced f)

/-- No row has the number of a filing. -/
def Fresh (rows : RowSet T) (f : Filing T) : Prop :=
  ∀ (place : RowKey) (r : StoredRow T), rows[place]? = some r → r.filing.number ≠ f.number

/-- The displaced numbers hold a place of the filing, or are its own one if it lists a place
twice. -/
theorem mem_numbers_displaced (rows : RowSet T) (f : Filing T) (n : Nat) :
    n ∈ (rows.displaced f).map (·.number) ↔
      rows.Displaces f n ∨ (n = f.number ∧ ¬ f.info.places.Nodup) := by
  rw [displaced, mem_numbers_placeListed]
  simp [Displaces, EntryInfo.places]

/-- A displaced filing is the filing itself or held one of its places. -/
theorem mem_displaced (h : g ∈ rows.displaced f) :
    g = f ∨ ∃ l ∈ f.info.rows, ∃ r, rows[l.place]? = some r ∧ r.filing = g := by
  rcases mem_of_mem_placeListed h with h | h
  · cases h
  · exact h

private theorem getElem?_placed (hi : f.info.WF) {l : EncodedRow} (hl : l ∈ f.info.rows) :
    (rows.placeListed f [] f.info.rows).1[l.place]? = some ⟨l, f⟩ :=
  getElem?_placeListed_of_mem f [] hl fun _ ha he ↦ hi.eq_of_place ha hl he

private theorem lists_displaced (h : rows.WF) (hi : f.info.WF) (hf : rows.Fresh f)
    (hg : g ∈ rows.displaced f) : (rows.placeListed f [] f.info.rows).1.Lists g := by
  intro place r hr hn
  by_cases hp : place ∈ f.info.places
  · obtain ⟨l, hl, rfl⟩ := List.mem_map.mp hp
    rw [getElem?_placed hi hl] at hr
    cases hr
    rcases mem_displaced hg with rfl | ⟨a, ha, q, hq, rfl⟩
    · exact hp
    · exact absurd hn.symm (hf _ q hq)
  · rw [getElem?_placeListed_of_not_mem f [] hp] at hr
    rcases mem_displaced hg with rfl | ⟨a, ha, q, hq, rfl⟩
    · exact absurd hn (hf place r hr)
    · exact h.lists hq place r hr hn

/-- After a filing has been stored, its rows are there, unless it lists a place twice, beside those
of the filings that it does not displace. -/
theorem getElem?_stored_eq_some_iff (h : rows.WF) (hi : f.info.WF) (hf : rows.Fresh f) :
    (rows.stored f)[place]? = some r ↔
      (f.info.places.Nodup ∧ r.filing = f ∧ r.row ∈ f.info.rows ∧ r.place = place) ∨
        (rows[place]? = some r ∧ ¬ rows.Displaces f r.filing.number) := by
  rw [stored, removeEach_eq _ fun g hg ↦ lists_displaced h hi hf hg, getElem?_only,
    Option.filter_eq_some_iff, decide_eq_true_eq, mem_numbers_displaced, not_or, not_and,
    Decidable.not_not]
  constructor
  · rintro ⟨hr, hd, hn⟩
    by_cases hp : place ∈ f.info.places
    · obtain ⟨l, hl, rfl⟩ := List.mem_map.mp hp
      rw [getElem?_placed hi hl] at hr
      cases hr
      exact .inl ⟨hn rfl, rfl, hl, rfl⟩
    · rw [getElem?_placeListed_of_not_mem f [] hp] at hr
      exact .inr ⟨hr, hd⟩
  · rintro (⟨hn, rfl, hl, rfl⟩ | ⟨hr, hd⟩)
    · refine ⟨getElem?_placed hi hl, ?_, fun _ ↦ hn⟩
      rintro ⟨a, ha, q, hq, he⟩
      exact hf _ q hq he
    · have hp : place ∉ f.info.places := by
        intro hp
        obtain ⟨l, hl, rfl⟩ := List.mem_map.mp hp
        exact hd ⟨l, hl, r, hr, rfl⟩
      rw [getElem?_placeListed_of_not_mem f [] hp]
      exact ⟨hr, hd, fun he ↦ absurd he (hf place r hr)⟩

/-- Storing a filing of a fresh number keeps entries whole. -/
theorem WF.stored (h : rows.WF) (hi : f.info.WF) (hf : rows.Fresh f) : (rows.stored f).WF := by
  have hsome (place : RowKey) (r : StoredRow T) :=
    @getElem?_stored_eq_some_iff T rows f place r h hi hf
  constructor
  · intro place r hr
    rcases (hsome _ _).mp hr with ⟨-, -, -, hp⟩ | ⟨hr, -⟩
    · exact hp
    · exact h.place_eq hr
  · intro place r hr
    rcases (hsome _ _).mp hr with ⟨-, rfl, -, -⟩ | ⟨hr, -⟩
    · exact hi
    · exact h.sound hr
  · intro place r hr
    rcases (hsome _ _).mp hr with ⟨-, rfl, hl, -⟩ | ⟨hr, -⟩
    · exact hl
    · exact h.listed hr
  · intro place r hr l hl
    rcases (hsome _ _).mp hr with ⟨hn, rfl, -, -⟩ | ⟨hr, hd⟩
    · exact (hsome _ _).mpr (.inl ⟨hn, rfl, hl, rfl⟩)
    · exact (hsome _ _).mpr (.inr ⟨h.whole hr l hl, hd⟩)
  · intro place other r q hr hq hn
    rcases (hsome _ _).mp hr with ⟨-, hrf, -, -⟩ | ⟨hr, -⟩
    · rcases (hsome _ _).mp hq with ⟨-, hqf, -, -⟩ | ⟨hq, -⟩
      · rw [hrf, hqf]
      · exact absurd (hrf ▸ hn).symm (hf other q hq)
    · rcases (hsome _ _).mp hq with ⟨-, hqf, -, -⟩ | ⟨hq, -⟩
      · exact absurd (hqf ▸ hn) (hf place r hr)
      · exact h.filing_eq hr hq hn

end RowSet

end RowVault
