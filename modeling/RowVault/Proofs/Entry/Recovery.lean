import RowVault.Entry.Decode
import RowVault.Proofs.Entry.Encoded
import RowVault.Scripted.Entry

/-!
# What decoding gives back

A row is decoded from its bytes and from the persisted fields of its entry, and the index model alone
tells common fields from extended ones. If the adapter has split the entry as the model does, the
common fields are those that the adapter gave, and the extended ones are those that could be kept.
No field is on both sides, so looking a field up among the persisted ones and looking it up in the
decoded row have the same result.
-/

namespace RowVault

/-! ## Datasets made of values -/

/-- A value of a new field is put at the end. -/
theorem FieldValue.putInto_of_notMem {v : FieldValue} {vs : List FieldValue}
    (h : v.field ∉ vs.map (·.field)) : v.putInto vs = vs ++ [v] := by
  induction vs with
  | nil => rfl
  | cons w ws ih =>
    rw [List.map_cons, List.mem_cons, not_or] at h
    rw [putInto, if_neg (Ne.symm h.1), ih h.2, List.cons_append]

namespace Dataset

variable {d : Dataset} {vs : List FieldValue}

/-- Datasets are known by their values. -/
theorem eq_of_fields {d' : Dataset} (h : d.fields = d'.fields) : d = d' := by
  cases d
  cases d'
  cases h
  rfl

/-- Values of new and distinct fields are added in their order. -/
theorem fields_foldl_add (h : ((d.fields ++ vs).map (·.field)).Nodup) :
    (vs.foldl add d).fields = d.fields ++ vs := by
  induction vs generalizing d with
  | nil => simp
  | cons v vs ih =>
    have hnew : (d.add v).fields = d.fields ++ [v] := by
      refine FieldValue.putInto_of_notMem fun hmem ↦ ?_
      rw [List.map_append, List.nodup_append] at h
      exact h.2.2 _ hmem _ List.mem_cons_self rfl
    rw [List.foldl_cons, ih (by rwa [hnew, List.append_assoc]), hnew, List.append_assoc]
    rfl

/-- A dataset is made again of its values. -/
theorem ofList_fields (d : Dataset) : ofList d.fields = d :=
  eq_of_fields (fields_foldl_add d.nodup)

/-- The values that pass a test, in their order. -/
def only (d : Dataset) (p : FieldValue → Bool) : Dataset where
  fields := d.fields.filter p
  nodup := d.nodup.sublist (List.filter_sublist.map _)

end Dataset

/-! ## Persisted fields -/

/-- A field of a model can be read. -/
theorem IndexModel.isSome_reader? (m : IndexModel) (field : Bytes) :
    (m.reader? field).isSome = m.contains field :=
  Option.isSome_map

/-- A field of a model can be written. -/
theorem IndexModel.isSome_writer? (m : IndexModel) (field : Bytes) :
    (m.writer? field).isSome = m.contains field :=
  Option.isSome_map

/-- Of values beside their writers, those with a writer are asked for. -/
theorem map_value_planDemands (formula : FieldValue → Bytes)
    (writer? : FieldValue → Option FieldWriter) (vs : List FieldValue) :
    (planDemands formula (vs.map fun v ↦ (v, writer? v))).map (·.value) =
      vs.filter fun v ↦ (writer? v).isSome := by
  induction vs with
  | nil => rfl
  | cons v vs ih =>
    rw [List.map_cons, planDemands, List.filterMap_cons, List.filter_cons]
    cases writer? v with
    | none => exact ih
    | some w => exact congrArg (v :: ·) ih

namespace Encoding

variable {T : Type} {e : Encoding} {adapter : Adapter T} {model : IndexModel}

/-- The model knows the common fields of an encoding and none of the extended ones. -/
structure SplitBy (e : Encoding) (model : IndexModel) : Prop where
  common : ∀ v ∈ e.common.fields, model.contains v.field = true
  extended : ∀ v ∈ e.extended.fields, model.contains v.field = false

/-- The extended fields that are persisted: they have a value and the adapter has a writer. -/
def kept (e : Encoding) (adapter : Adapter T) : Dataset :=
  e.extended.only fun v ↦ !v.value.isNull && (adapter.writer? v.field).isSome

/-- The fields with a writer are all common ones and the extended ones that are kept. -/
theorem map_value_plan (h : e.SplitBy model) (formula : FieldValue → Bytes) :
    (planDemands formula (e.plan adapter model)).map (·.value) =
      e.common.fields ++ (e.kept adapter).fields := by
  have hcommon : e.common.fields.filter (fun v ↦ (model.writer? v.field).isSome) =
      e.common.fields := by
    rw [List.filter_eq_self]
    intro v hv
    rw [model.isSome_writer?, h.common v hv]
  have happend (plan plan' : List (FieldValue × Option FieldWriter)) :
      planDemands formula (plan ++ plan') = planDemands formula plan ++ planDemands formula plan' :=
    List.filterMap_append
  rw [plan, happend, List.map_append, map_value_planDemands, map_value_planDemands, hcommon,
    List.filter_filter]
  simp only [kept, Dataset.only, Bool.and_comm]

/-- Unless the entry opts out, a row has as many duplicates as there are further rows, up to the
largest number. -/
theorem toInt_duplicates (e : Encoding) {rows : Nat} (h : rows ≠ 0) :
    (e.duplicates rows).toInt =
      if e.deduplicated then min (rows - 1 : Int) Int32.maxValue.toInt else -1 := by
  unfold duplicates
  split
  · have hmax : Int32.maxValue.toInt = 0x7FFFFFFF := rfl
    rw [Int32.toInt_ofNat_of_lt (by omega), hmax]
    omega
  · rfl

end Encoding

/-- An entry with insertion keys has a row for each of them, whose bytes tell the key. -/
theorem decode_rowIds_of_encodeEntry {T : Type} {adapter : Adapter T} {index : Index}
    {visibility : VisibilityWriter T} {entry : T} {info : EntryInfo}
    (h : (encodeEntry adapter index visibility entry).value = .ok info)
    (hkeys : index.strategy.insertionKeys (adapter.encode entry index.model).common ≠ []) :
    let encoding := adapter.encode entry index.model
    let keys := index.strategy.insertionKeys encoding.common
    info.rowIds.map RowId.decode = keys.map fun key ↦
      .ok ⟨key, encoding.data, encoding.adapter, encoding.duplicates keys.length⟩ := by
  intro encoding keys
  obtain ⟨hnil, -⟩ | ⟨-, hrows, -⟩ := encodeEntry_eq_ok h
  · exact absurd hnil hkeys
  · obtain ⟨hids, hencoded⟩ := Encoding.rows_eq_ok hrows
    calc info.rowIds.map RowId.decode
        = info.rows.map fun r ↦ RowId.decode r.raw := List.map_map
      _ = info.rows.map fun r ↦ .ok r.id :=
        List.map_congr_left fun r hr ↦ RowId.decode_of_encode (hencoded r hr)
      _ = (info.rows.map (·.id)).map .ok := List.map_map.symm
      _ = _ := by rw [hids, List.map_map]; rfl

/-! ## Decoded rows -/

/-- A field that no value of a dataset has is not found. -/
theorem Dataset.get?_eq_none {d : Dataset} {field : Bytes} (h : ∀ v ∈ d.fields, v.field ≠ field) :
    d.get? field = none := by
  rw [get?, Option.map_eq_none_iff, List.find?_eq_none]
  intro v hv
  simpa using h v hv

/-- What is persisted of two datasets is looked up in one and then in the other. -/
theorem EntryInfo.value?_of_append {i : EntryInfo} {c x : Dataset}
    (h : i.fields.map (·.value) = c.fields ++ x.fields) (field : Bytes) :
    i.value? field = (c.get? field).or (x.get? field) := by
  have hvalue : i.value? field =
      ((i.fields.map (·.value)).find? (·.field = field)).map (·.value) := by
    simp only [value?, Bool.beq_eq_decide_eq, List.find?_map, Option.map_map]
    rfl
  rw [hvalue, h, List.find?_append, Option.map_or]
  rfl

/-- Datasets that a model tells apart are decoded from the fields that are persisted of them. -/
theorem DecodedRow.ofRow_of_append {model : IndexModel} {fields : List FieldInfo} {c x : Dataset}
    (h : fields.map (·.value) = c.fields ++ x.fields)
    (hc : ∀ v ∈ c.fields, model.contains v.field = true)
    (hx : ∀ v ∈ x.fields, model.contains v.field = false) (id : RowId) :
    DecodedRow.ofRow model id fields = ⟨id.adapter, id.data, id.key, id.duplicates, c, x⟩ := by
  have hside (p : Bytes → Bool) : (fields.filter fun f ↦ p f.field).map (·.value) =
      c.fields.filter (p ·.field) ++ x.fields.filter (p ·.field) := by
    rw [← List.filter_append, ← h, List.filter_map]
    rfl
  have hcommon : (fields.filter fun f ↦ model.contains f.field).map (·.value) = c.fields := by
    rw [hside model.contains, List.filter_eq_self.mpr hc,
      List.filter_eq_nil_iff.mpr (by simpa using hx), List.append_nil]
  have hextended : (fields.filter fun f ↦ !model.contains f.field).map (·.value) = x.fields := by
    rw [hside (!model.contains ·), List.filter_eq_nil_iff.mpr (by simpa using hc),
      List.filter_eq_self.mpr (by simpa using hx), List.nil_append]
  simp only [ofRow, model.isSome_reader?, hcommon, hextended, Dataset.ofList_fields]

/-- If an adapter splits an entry as the index model does, decoding inverts encoding. An entry with
insertion keys that is encoded has a row for each key, in their order, whose bytes decode to the key,
the data id, the adapter and the number of duplicates. Decoded with the persisted fields, each row
has the common fields of the encoding, and its extended fields without those that are null or have
no writer, in their order. A persisted field is the one that is found in the decoded row, and it is
found on one side at most. -/
theorem decoded_rows_recover_encoding {T : Type} {adapter : Adapter T} {index : Index}
    {visibility : VisibilityWriter T} {entry : T} {info : EntryInfo}
    (hsplit : (adapter.encode entry index.model).SplitBy index.model)
    (h : (encodeEntry adapter index visibility entry).value = .ok info)
    (hkeys : index.strategy.insertionKeys (adapter.encode entry index.model).common ≠ []) :
    let encoding := adapter.encode entry index.model
    let keys := index.strategy.insertionKeys encoding.common
    ∃ duplicates : Int32,
      duplicates.toInt =
        (if encoding.deduplicated then min (keys.length - 1 : Int) Int32.maxValue.toInt else -1) ∧
      info.rowIds.map RowId.decode =
        keys.map (fun key ↦ .ok ⟨key, encoding.data, encoding.adapter, duplicates⟩) ∧
      ∀ r ∈ info.rows, RowId.decode r.raw = .ok r.id ∧
        let row := DecodedRow.ofRow index.model r.id info.fields
        row = ⟨encoding.adapter, encoding.data, r.id.key, duplicates, encoding.common,
          encoding.extended.only fun v ↦ !v.value.isNull && (adapter.writer? v.field).isSome⟩ ∧
        ∀ field, info.value? field = (row.common.get? field).or (row.extended.get? field) ∧
          (row.common.get? field = none ∨ row.extended.get? field = none) := by
  intro encoding keys
  have hempty : info.isEmpty = false := by
    rw [← Bool.not_eq_true, isEmpty_iff_of_encodeEntry h]
    exact hkeys
  have hfields : info.fields.map (·.value) =
      encoding.common.fields ++ (encoding.kept adapter).fields := by
    have hdemands := congrArg (List.map Prod.fst) (fields_of_encodeEntry h hempty)
    rw [List.map_map, List.map_map] at hdemands
    exact hdemands.trans (Encoding.map_value_plan hsplit _)
  have hkept : ∀ v ∈ (encoding.kept adapter).fields, index.model.contains v.field = false :=
    fun v hv ↦ hsplit.extended v (List.mem_filter.mp hv).1
  refine ⟨encoding.duplicates keys.length,
    encoding.toInt_duplicates (mt List.length_eq_zero_iff.mp hkeys),
    decode_rowIds_of_encodeEntry h hkeys, ?_⟩
  intro r hr
  refine ⟨RowId.decode_of_encode ((wf_of_encodeEntry h).encoded r hr), ?_⟩
  have hrow : DecodedRow.ofRow index.model r.id info.fields =
      ⟨encoding.adapter, encoding.data, r.id.key, encoding.duplicates keys.length,
        encoding.common, encoding.kept adapter⟩ := by
    rw [DecodedRow.ofRow_of_append hfields hsplit.common hkept, (id_of_encodeEntry h hr).2]
  dsimp only
  rw [hrow]
  refine ⟨rfl, fun field ↦ ⟨EntryInfo.value?_of_append hfields field, ?_⟩⟩
  by_cases hmodel : index.model.contains field = true
  · right
    refine Dataset.get?_eq_none ?_
    rintro v hv rfl
    rw [hkept v hv] at hmodel
    cases hmodel
  · left
    refine Dataset.get?_eq_none ?_
    rintro v hv rfl
    exact hmodel (hsplit.common v hv)

private def pairIndex : Index where
  strategy :=
    { id := [0x73]
      insertionKeys common :=
        match common.get? [0x66] with
        | some (.blob bytes) => bytes.map ([·])
        | _ => []
      queryRanges _ _ := [] }
  model := ⟨[0x6D], [.ofCodec [0x66] {}, .ofCodec [0x67] {}]⟩

/-- An entry with two keys comes back with its null common field, and without its null extended
field and the one that has no writer. -/
theorem decoded_rows_recover_encoding_nulls :
    let plan : Scripted.AdapterPlan :=
      { id := [0x61], codecs := [{ field := [0x68] }, { field := [0x69] }] }
    let entry : Scripted.Entry :=
      { id := [0x64]
        fields := [⟨[0x68], .null⟩, ⟨[0x69], .bool true⟩, ⟨[0x67], .null⟩, ⟨[0x66], .blob [1, 2]⟩,
          ⟨[0x6A], .bool false⟩] }
    ∃ info, (encodeEntry plan.adapter pairIndex .unconstrained entry).value = .ok info ∧
      info.rowIds.map RowId.decode =
        [.ok ⟨[1], [0x64], [0x61], 1⟩, .ok ⟨[2], [0x64], [0x61], 1⟩] ∧
      ∀ r ∈ info.rows,
        let row := DecodedRow.ofRow pairIndex.model r.id info.fields
        row.common.fields = [⟨[0x67], .null⟩, ⟨[0x66], .blob [1, 2]⟩] ∧
          row.extended.fields = [⟨[0x69], .bool true⟩] ∧
          info.value? [0x69] = some (.bool true) ∧ info.value? [0x6A] = none := by
  intro plan entry
  have hsplit : (plan.adapter.encode entry pairIndex.model).SplitBy pairIndex.model :=
    ⟨by decide, by decide⟩
  obtain ⟨info, h⟩ :
      ∃ info, (encodeEntry plan.adapter pairIndex .unconstrained entry).value = .ok info :=
    ⟨_, rfl⟩
  obtain ⟨duplicates, hduplicates, hrowIds, hrows⟩ :=
    decoded_rows_recover_encoding hsplit h (by decide)
  obtain rfl : duplicates = 1 := Int32.toInt_inj.mp (hduplicates.trans (by decide))
  refine ⟨info, h, hrowIds, ?_⟩
  intro r hr row
  obtain ⟨-, hrow, hvalue⟩ := hrows r hr
  refine ⟨congrArg (·.common.fields) hrow, congrArg (·.extended.fields) hrow, ?_, ?_⟩
  · rw [(hvalue _).1, hrow]
    rfl
  · rw [(hvalue _).1, hrow]
    rfl

end RowVault
