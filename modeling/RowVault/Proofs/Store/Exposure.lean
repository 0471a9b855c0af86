import RowVault.Proofs.Store.Deletion
import RowVault.Proofs.Store.Lookups

/-!
# What visible rows show

A visible row shows its row id, the values and the entry of its filing, and which rows were filed
with it, but neither the number of its filing nor the formulas of its fields. What a caller reads
from an index is determined by what the visible rows of the index show: filters are asked about
visible rows only, windows are cut out by row id, and whole filings are visible or hidden.
-/

namespace RowVault

variable {T : Type}

/-- What a visible row shows. -/
structure Exposed (T : Type) where
  row : EncodedRow
  values : List FieldValue
  entry : T
  /-- The rows that were filed together with the row, itself among them. -/
  together : List EncodedRow
  deriving DecidableEq, Repr

namespace RowSet

/-- The rows of a filing. -/
def filedAs (rows : RowSet T) (number : Nat) : List EncodedRow :=
  (rows.all.filter fun r ↦ r.filing.number == number).map (·.row)

/-- What a row shows. -/
def expose (rows : RowSet T) (r : StoredRow T) : Exposed T :=
  ⟨r.row, r.filing.info.fields.map (·.value), r.filing.entry, rows.filedAs r.filing.number⟩

/-- What the visible rows show, in order. -/
def exposed (rows : RowSet T) (labels : Labels) : List (Exposed T) :=
  (rows.all.filter (·.isVisible labels)).map rows.expose

section

variable {rows : RowSet T} {labels : Labels}

/-- The rows that are stored under a number tell it apart from those of other rows. -/
theorem WF.filedAs_inj (h : rows.WF) {r : StoredRow T} (hr : r ∈ rows.all) (q : StoredRow T) :
    rows.filedAs r.filing.number = rows.filedAs q.filing.number ↔
      r.filing.number = q.filing.number := by
  constructor
  · intro he
    have hm : r.row ∈ rows.filedAs r.filing.number :=
      List.mem_map_of_mem (List.mem_filter.mpr ⟨hr, by simp⟩)
    rw [he] at hm
    obtain ⟨x, hx, hrow⟩ := List.mem_map.mp hm
    obtain ⟨hx, hn⟩ := List.mem_filter.mp hx
    obtain ⟨p, hp⟩ := mem_all_iff.mp hr
    obtain ⟨p', hp'⟩ := mem_all_iff.mp hx
    -- Rows with one row id are at one place.
    have hplace : p = p' := by
      rw [← h.place_eq hp, ← h.place_eq hp', StoredRow.place, StoredRow.place, hrow]
    rw [hplace, hp'] at hp
    cases hp
    exact eq_of_beq hn
  · intro he
    rw [he]

/-- Where all rows of a filing are kept, they are still together. -/
theorem filedAs_only {p : StoredRow T → Bool} {number : Nat}
    (hp : ∀ q ∈ rows.all, q.filing.number = number → p q = true) :
    (rows.only p).filedAs number = rows.filedAs number := by
  rw [filedAs, filedAs, all_only, List.filter_filter]
  congr 1
  apply List.filter_congr
  intro q hq
  cases hn : q.filing.number == number with
  | false => rfl
  | true => rw [hp q hq (eq_of_beq hn), Bool.and_true]

/-- Where filings are removed as a whole, the rows that are left show what they showed before. -/
theorem exposed_only {p : StoredRow T → Bool} (hp : rows.Respects p) {keep : Exposed T → Bool}
    (hkeep : ∀ r ∈ rows.all, r.isVisible labels = true → keep (rows.expose r) = p r) :
    (rows.only p).exposed labels = (rows.exposed labels).filter keep := by
  rw [exposed, exposed, all_only, List.filter_map, List.filter_filter, List.filter_filter]
  have hkept : rows.all.filter (fun r ↦ r.isVisible labels && p r) =
      rows.all.filter fun r ↦ (keep ∘ rows.expose) r && r.isVisible labels := by
    apply List.filter_congr
    intro r hr
    cases hv : r.isVisible labels with
    | false => rw [Bool.false_and, Bool.and_false]
    | true => rw [Function.comp_apply, hkeep r hr hv, Bool.true_and, Bool.and_true]
  rw [← hkept]
  apply List.map_congr_left
  intro r hr
  obtain ⟨hr, hc⟩ := List.mem_filter.mp hr
  obtain ⟨place, hplace⟩ := mem_all_iff.mp hr
  rw [expose, expose, filedAs_only]
  intro q hq hn
  obtain ⟨other, hother⟩ := mem_all_iff.mp hq
  rw [hp hother hplace hn]
  exact (Bool.and_eq_true_iff.mp hc).2

/-- A condition on what visible rows show picks the rows that meet it. -/
theorem map_expose_filter_shows (listed : List (StoredRow T)) (wanted : StoredRow T → Bool)
    {p : Exposed T → Bool} (hp : ∀ r ∈ listed, p (rows.expose r) = wanted r) :
    (listed.filter (StoredRow.shows labels wanted)).map rows.expose =
      ((listed.filter (·.isVisible labels)).map rows.expose).filter p := by
  rw [List.filter_map, List.filter_filter]
  congr 1
  apply List.filter_congr
  intro r hr
  rw [StoredRow.shows, Function.comp_apply, hp r hr]

/-- Whether a place lies between two places. -/
def lies (lower : RowKey) (upper : Option RowKey) (place : RowKey) : Bool :=
  (compare lower place).isLE && upper.all fun u ↦ compare place u == .lt

/-- The rows between two places are those whose own place lies there. -/
theorem Placed.between_eq (h : rows.Placed) (lower : RowKey) (upper : Option RowKey) :
    rows.between lower upper = rows.all.filter fun r ↦ lies lower upper r.place := by
  rw [between, all, List.filter_map]
  congr 1
  apply List.filter_congr
  rintro ⟨place, r⟩ hm
  have hr := Std.ExtTreeMap.mem_toList_iff_getElem?_eq_some.mp hm
  rw [Function.comp_apply, h place r hr]
  rfl

/-- What the visible rows of windows show is cut out of what all visible rows show. -/
theorem WF.map_expose_withinEach (h : rows.WF) (labels : Labels) (windows : List Window) :
    ((rows.withinEach windows).filter (·.isVisible labels)).map rows.expose =
      windows.flatMap fun w ↦ (rows.exposed labels).filter fun x ↦
        lies (interval w).1 (interval w).2 x.row.place := by
  induction windows with
  | nil => rfl
  | cons w rest ih =>
    have hw : ((rows.within w).filter (·.isVisible labels)).map rows.expose =
        (rows.exposed labels).filter fun x ↦ lies (interval w).1 (interval w).2 x.row.place := by
      rw [within, h.placed.between_eq, List.filter_filter, exposed, List.filter_map,
        List.filter_filter]
      congr 1
      apply List.filter_congr
      intro r hr
      rw [Bool.and_comm]
      rfl
    rw [withinEach, List.flatMap_cons, List.filter_append, List.map_append, hw, List.flatMap_cons]
    exact congrArg (_ ++ ·) ih

end

end RowSet

/-! ## Sifting -/

/-- Filters see the values of a row, and not how they were written. -/
theorem DecodedRow.ofRow_congr (model : IndexModel) (id : RowId) {fields others : List FieldInfo}
    (h : fields.map (·.value) = others.map (·.value)) :
    ofRow model id fields = ofRow model id others := by
  have hsplit : ∀ (p : Bytes → Bool) (fields : List FieldInfo),
      (fields.filter fun f ↦ p f.field).map (·.value) =
        (fields.map (·.value)).filter fun v ↦ p v.field := by
    intro p fields
    rw [List.filter_map]
    rfl
  rw [ofRow, ofRow, hsplit (fun field ↦ (model.reader? field).isSome),
    hsplit fun field ↦ !(model.reader? field).isSome, h,
    hsplit (fun field ↦ (model.reader? field).isSome),
    hsplit fun field ↦ !(model.reader? field).isSome]

/-- Hidden rows make no difference to sifting. -/
theorem sift_filter (model : IndexModel) (labels : Labels) (client own : List Filter)
    (rows : List (StoredRow T)) :
    sift model labels client own (rows.filter (·.isVisible labels)) =
      sift model labels client own rows := by
  induction rows generalizing client own with
  | nil => rfl
  | cons r rest ih =>
    rcases sift_cases model labels client own r with
      hv | ⟨hv, _, ha⟩ | ⟨hv, _, _, ha, ho⟩ | ⟨hv, _, _, ha, ho⟩
    · rw [List.filter_cons_of_neg (by simp [hv]), sift_cons_hidden hv]
      exact ih client own
    · rw [List.filter_cons_of_pos hv, sift_cons_refused hv ha, sift_cons_refused hv ha, ih]
    · rw [List.filter_cons_of_pos hv, sift_cons_passed hv ha ho, sift_cons_passed hv ha ho, ih]
    · rw [List.filter_cons_of_pos hv, sift_cons_kept hv ha ho, sift_cons_kept hv ha ho, ih]

section

variable {X : Type} {φ ψ : StoredRow T → X} {model : IndexModel} {labels : Labels}

-- Visible rows that show the same are sifted alike: they are paired off one by one.
private theorem sift_congr_visible (hdecoded : ∀ r q, φ r = ψ q → r.decoded model = q.decoded model)
    {rows others : List (StoredRow T)} (client own : List Filter)
    (hr : ∀ r ∈ rows, r.isVisible labels = true) (hq : ∀ q ∈ others, q.isVisible labels = true)
    (h : rows.map φ = others.map ψ) :
    (sift model labels client own rows).1.map φ = (sift model labels client own others).1.map ψ ∧
      (sift model labels client own rows).2 = (sift model labels client own others).2 := by
  induction rows generalizing others client own with
  | nil =>
    rw [List.map_nil, eq_comm, List.map_eq_nil_iff] at h
    rw [h]
    exact ⟨rfl, rfl⟩
  | cons r rest ih =>
    cases others with
    | nil => cases h
    | cons q others =>
      rw [List.map_cons, List.map_cons, List.cons.injEq] at h
      obtain ⟨hhead, htail⟩ := h
      rw [List.forall_mem_cons] at hr hq
      have hd := hdecoded r q hhead
      rcases sift_cases model labels client own r with
        hv | ⟨-, client', ha⟩ | ⟨-, client', own', ha, ho⟩ | ⟨-, client', own', ha, ho⟩
      · rw [hr.1] at hv
        cases hv
      · rw [sift_cons_refused hr.1 ha, sift_cons_refused hq.1 (hd ▸ ha)]
        exact ih client' own hr.2 hq.2 htail
      · rw [sift_cons_passed hr.1 ha ho, sift_cons_passed hq.1 (hd ▸ ha) (hd ▸ ho)]
        exact ih client' own' hr.2 hq.2 htail
      · obtain ⟨hrows, hclient⟩ := ih client' own' hr.2 hq.2 htail
        rw [sift_cons_kept hr.1 ha ho, sift_cons_kept hq.1 (hd ▸ ha) (hd ▸ ho)]
        exact ⟨by rw [List.map_cons, List.map_cons, hhead, hrows], hclient⟩

/-- Rows that show the same are sifted alike, and leave the filters alike. -/
theorem sift_congr (hdecoded : ∀ r q, φ r = ψ q → r.decoded model = q.decoded model)
    {rows others : List (StoredRow T)} (client own : List Filter)
    (h : (rows.filter (·.isVisible labels)).map φ = (others.filter (·.isVisible labels)).map ψ) :
    (sift model labels client own rows).1.map φ = (sift model labels client own others).1.map ψ ∧
      (sift model labels client own rows).2 = (sift model labels client own others).2 := by
  rw [← sift_filter, ← sift_filter model labels client own others]
  exact sift_congr_visible hdecoded client own (fun r hr ↦ (List.mem_filter.mp hr).2)
    (fun q hq ↦ (List.mem_filter.mp hq).2) h

end

end RowVault
