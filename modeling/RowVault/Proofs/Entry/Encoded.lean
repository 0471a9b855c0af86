import RowVault.Entry.Encode
import RowVault.Proofs.Row.Identity

/-!
# What encoding gives

The rows of an encoded entry differ in nothing but their keys, and each has the encoding that it
carries. Each persisted field carries the formula that joins what its writer asks for and what the
caller asks for.
-/

namespace RowVault

/-- The rows of an entry carry their encodings and differ in nothing but their keys. -/
structure EntryInfo.WF (i : EntryInfo) : Prop where
  encoded : ∀ r ∈ i.rows, r.id.encode = .ok r.raw
  alike : ∀ r ∈ i.rows, ∀ l ∈ i.rows, l.id = { r.id with key := l.id.key }

namespace EntryInfo

variable {i : EntryInfo} {r l : EncodedRow}

/-- Rows of one entry at one place are the same. -/
theorem WF.eq_of_place (h : i.WF) (hr : r ∈ i.rows) (hl : l ∈ i.rows) (hp : r.place = l.place) :
    r = l := by
  have hk := ((RowKey.ofRow_inj (h.encoded r hr) (h.encoded l hl)).mp hp).1
  have hid : l.id = r.id := by rw [h.alike r hr l hl, ← hk]
  have hraw := h.encoded l hl
  rw [hid, h.encoded r hr] at hraw
  cases r
  cases l
  simp_all

/-- All rows of one entry come from one adapter. -/
theorem WF.adapter_eq (h : i.WF) (hr : r ∈ i.rows) (hl : l ∈ i.rows) :
    l.id.adapter = r.id.adapter := by
  rw [h.alike r hr l hl]

/-- All rows of one entry have one data id. -/
theorem WF.data_eq (h : i.WF) (hr : r ∈ i.rows) (hl : l ∈ i.rows) : l.id.data = r.id.data := by
  rw [h.alike r hr l hl]

end EntryInfo

/-- The rows of keys carry their encodings and have the keys in their order. -/
theorem Encoding.rows_eq_ok {e : Encoding} {duplicates : Int32} {keys : List Bytes}
    {rows : List EncodedRow} (h : e.rows duplicates keys = .ok rows) :
    rows.map (·.id) = keys.map (fun key ↦ ⟨key, e.data, e.adapter, duplicates⟩) ∧
      ∀ r ∈ rows, r.id.encode = .ok r.raw := by
  induction keys generalizing rows with
  | nil =>
    cases h
    simp
  | cons key keys ih =>
    unfold Encoding.rows at h
    cases hk : e.row duplicates key with
    | error x =>
      rw [hk] at h
      cases h
    | ok r =>
      cases hr : e.rows duplicates keys with
      | error x =>
        rw [hk, hr] at h
        cases h
      | ok rest =>
        rw [hk, hr] at h
        cases h
        obtain ⟨hids, hall⟩ := ih hr
        have hrow : r.id = ⟨key, e.data, e.adapter, duplicates⟩ ∧ r.id.encode = .ok r.raw := by
          unfold row at hk
          dsimp only at hk
          split at hk
          · next raw hraw =>
            cases hk
            exact ⟨rfl, hraw⟩
          · cases hk
        refine ⟨by rw [List.map_cons, List.map_cons, hids, hrow.1], ?_⟩
        intro a ha
        rcases List.mem_cons.mp ha with rfl | ha
        · exact hrow.2
        · exact hall a ha

/-- What is asked of a caller who wants to see a field. -/
structure Demand where
  value : FieldValue
  /-- What the writer of the field asks for. -/
  own : Bytes
  /-- What the caller of the ingest asks for. -/
  asked : Bytes
  deriving DecidableEq, Repr

/-- What is asked for the fields of a plan that have a writer, in its order. -/
def planDemands (formula : FieldValue → Bytes) (plan : List (FieldValue × Option FieldWriter)) :
    List Demand :=
  plan.filterMap fun (v, writer) ↦
    writer.map fun w ↦ ⟨v, w.visibility v.field v.value, formula v⟩

/-- The fields of a plan carry what is asked for them, joined. -/
theorem encodeFields_eq_ok {adapter : Bytes} {formula : FieldValue → Bytes}
    {plan : List (FieldValue × Option FieldWriter)} {fields : List FieldInfo}
    (h : (encodeFields adapter formula plan).value = .ok fields) :
    fields.map (fun f ↦ (f.value, f.visibility)) =
      (planDemands formula plan).map fun d ↦ (d.value, Visibility.conjoin d.own d.asked) := by
  induction plan generalizing fields with
  | nil =>
    cases h
    rfl
  | cons p rest ih =>
    obtain ⟨v, writer⟩ := p
    cases writer with
    | none => exact ih h
    | some w =>
      unfold encodeFields at h
      cases hw : w.write v.value with
      | error e =>
        simp only [hw] at h
        cases h
      | ok written =>
        simp only [hw, Traced.value_bind] at h
        cases hr : (encodeFields adapter formula rest).value with
        | error e =>
          rw [hr] at h
          cases h
        | ok infos =>
          rw [hr] at h
          cases h
          rw [List.map_cons, ih hr]
          rfl

/-- What is asked for the persisted fields of an entry, in their order. -/
def demands {T : Type} (adapter : Adapter T) (index : Index) (visibility : VisibilityWriter T)
    (entry : T) : List Demand :=
  planDemands (fun v ↦ visibility.formula entry v.field v.value)
    ((adapter.encode entry index.model).plan adapter index.model)

section

variable {T : Type} {adapter : Adapter T} {index : Index} {visibility : VisibilityWriter T}
  {entry : T} {info : EntryInfo}

/-- An entry that is encoded has no insertion key and is empty, or has the rows of its keys and the
fields of its plan. -/
theorem encodeEntry_eq_ok (h : (encodeEntry adapter index visibility entry).value = .ok info) :
    let encoding := adapter.encode entry index.model
    let keys := index.strategy.insertionKeys encoding.common
    keys = [] ∧ info = .empty ∨
      keys ≠ [] ∧ encoding.rows (encoding.duplicates keys.length) keys = .ok info.rows ∧
        (encodeFields encoding.adapter (fun v ↦ visibility.formula entry v.field v.value)
          (encoding.plan adapter index.model)).value = .ok info.fields := by
  unfold encodeEntry at h
  dsimp only at h
  split at h
  · next hk => exact .inl ⟨hk, (Except.ok.inj h).symm⟩
  · next key keys hk =>
    right
    split at h
    · cases h
    · next rows hrows =>
      simp only [Traced.value_bind] at h
      split at h
      · cases h
      · next fields hfields =>
        cases h
        dsimp only
        rw [hk]
        exact ⟨nofun, hrows, hfields⟩

/-- An encoded entry is empty exactly if the strategy of the index gives it no insertion key. -/
theorem isEmpty_iff_of_encodeEntry
    (h : (encodeEntry adapter index visibility entry).value = .ok info) :
    info.isEmpty = true ↔
      index.strategy.insertionKeys (adapter.encode entry index.model).common = [] := by
  rcases encodeEntry_eq_ok h with ⟨hk, rfl⟩ | ⟨hk, hrows, -⟩
  · exact ⟨fun _ ↦ hk, fun _ ↦ rfl⟩
  · refine ⟨?_, fun hnil ↦ absurd hnil hk⟩
    intro hempty
    have hids := (Encoding.rows_eq_ok hrows).1
    rw [show info.rows = [] from List.isEmpty_iff.mp hempty] at hids
    exact List.map_eq_nil_iff.mp hids.symm

/-- The rows of an encoded entry have insertion keys that the strategy of the index gives it, and
agree in the rest. -/
theorem id_of_encodeEntry (h : (encodeEntry adapter index visibility entry).value = .ok info)
    {r : EncodedRow} (hr : r ∈ info.rows) :
    let encoding := adapter.encode entry index.model
    let keys := index.strategy.insertionKeys encoding.common
    r.id.key ∈ keys ∧
      r.id = ⟨r.id.key, encoding.data, encoding.adapter, encoding.duplicates keys.length⟩ := by
  rcases encodeEntry_eq_ok h with ⟨-, rfl⟩ | ⟨-, hrows, -⟩
  · cases hr
  · have hm : r.id ∈ info.rows.map (·.id) := List.mem_map_of_mem hr
    rw [(Encoding.rows_eq_ok hrows).1] at hm
    obtain ⟨key, hkey, he⟩ := List.mem_map.mp hm
    rw [← he]
    exact ⟨hkey, rfl⟩

/-- An encoded entry is well-formed. -/
theorem wf_of_encodeEntry (h : (encodeEntry adapter index visibility entry).value = .ok info) :
    info.WF where
  encoded := by
    rcases encodeEntry_eq_ok h with ⟨-, rfl⟩ | ⟨-, hrows, -⟩
    · exact nofun
    · exact (Encoding.rows_eq_ok hrows).2
  alike r hr l hl := by
    rw [(id_of_encodeEntry h hl).2, (id_of_encodeEntry h hr).2]

/-- The rows of an encoded entry name the adapter of its encoding. -/
theorem adapter_of_encodeEntry (h : (encodeEntry adapter index visibility entry).value = .ok info)
    {r : EncodedRow} (hr : r ∈ info.rows) :
    r.id.adapter = (adapter.encode entry index.model).adapter := by
  rw [(id_of_encodeEntry h hr).2]

/-- The rows of an encoded entry have insertion keys that the strategy of the index gives it. -/
theorem key_mem_of_encodeEntry
    (h : (encodeEntry adapter index visibility entry).value = .ok info) {r : EncodedRow}
    (hr : r ∈ info.rows) :
    r.id.key ∈ index.strategy.insertionKeys (adapter.encode entry index.model).common :=
  (id_of_encodeEntry h hr).1

/-- The fields of an entry with rows carry what is asked for them, joined. -/
theorem fields_of_encodeEntry (h : (encodeEntry adapter index visibility entry).value = .ok info)
    (hn : info.isEmpty = false) :
    info.fields.map (fun f ↦ (f.value, f.visibility)) =
      (demands adapter index visibility entry).map fun d ↦
        (d.value, Visibility.conjoin d.own d.asked) := by
  rcases encodeEntry_eq_ok h with ⟨-, rfl⟩ | ⟨-, -, hfields⟩
  · cases hn
  · exact encodeFields_eq_ok hfields

end

end RowVault
