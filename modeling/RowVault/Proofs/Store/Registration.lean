import RowVault.Proofs.Query.Selection
import RowVault.Proofs.Store.Access
import RowVault.Scripted.Entry

/-!
# Registered and passed indices

The first index that is registered under an identifier stands, and so does the first adapter. An
ingest uses the registered adapter, whichever one it is passed; but it encodes its entries for the
index that it is passed. So a row is encoded for the index that queries use, if all calls pass the
same index under its identifier, and need not be otherwise.
-/

namespace RowVault

variable {T : Type}

/-- The index that a call registers, unless its identifier is taken. -/
def Call.index? : Call T → Option Index
  | .register _ index => some index
  | .ingest _ index _ _ _ => some index
  | .delete _ _ => none
  | .deleteEntry _ _ _ _ => none

/-- The indices that calls pass under an identifier, one after the other. -/
def passed (id : Bytes) (calls : List (Call T)) : List Index :=
  (calls.filterMap Call.index?).filter fun i ↦ i.id = id

namespace Store

variable {s : Store T} {id : Bytes} {a : Adapter T} {calls : List (Call T)}

/-! ## Registries -/

/-- The index that is found after a registration: the one before, or else the new one. -/
theorem getElem?_indices_register (s : Store T) (adapter : Adapter T) (index : Index)
    (id : Bytes) :
    (s.register adapter index).value.indices[id]? =
      s.indices[id]?.or (if index.id = id then some index else none) := by
  rw [indices_register]
  exact OrderedMap.getElem?_insertIfNew s.indices index.id id index

/-- The index that is found after a call: the one before, or else the one that the call passes. -/
theorem WF.getElem?_indices_perform (h : s.WF) (c : Call T) (id : Bytes) :
    (s.perform c).2.indices[id]? = s.indices[id]?.or (passed id [c]).head? := by
  have hpassed : ∀ index : Index,
      ([index].filter fun i ↦ i.id = id).head? = if index.id = id then some index else none := by
    intro index
    by_cases hid : index.id = id <;> simp [hid]
  cases c with
  | register adapter index =>
    exact (s.getElem?_indices_register adapter index id).trans
      (congrArg _ (hpassed index).symm)
  | ingest adapter index visibility entries fault =>
    have hindices : (s.perform (.ingest adapter index visibility entries fault)).2.indices =
        (s.register adapter index).value.indices := indices_ingest s adapter index _ _ _
    rw [hindices, getElem?_indices_register]
    exact congrArg _ (hpassed index).symm
  | delete q o =>
    have hindices : (s.perform (.delete q o)).2.indices = s.indices :=
      (s.sameFrame_delete h.rows q o).indices
    rw [hindices]
    exact Option.or_none.symm
  | deleteEntry index data adapter labels =>
    have hindices : (s.perform (.deleteEntry index data adapter labels)).2.indices = s.indices :=
      (s.sameFrame_deleteEntry (h.rows index) data adapter labels).indices
    rw [hindices]
    exact Option.or_none.symm

/-- The index that is found after a history: the one before, or else the first one passed. -/
theorem WF.getElem?_indices_after (h : s.WF) (calls : List (Call T)) (id : Bytes) :
    (s.after calls).indices[id]? = s.indices[id]?.or (passed id calls).head? := by
  induction calls generalizing s with
  | nil => exact Option.or_none.symm
  | cons c rest ih =>
    have happend : passed id (c :: rest) = passed id [c] ++ passed id rest := by
      rw [passed, passed, passed, ← List.filter_append, ← List.filterMap_append]
      rfl
    rw [after_cons, ih (h.perform c), h.getElem?_indices_perform c id, happend,
      List.head?_append, Option.or_assoc]

/-- An adapter that is registered stands, whatever is called. -/
theorem WF.getElem?_adapters_perform (h : s.WF) (c : Call T) (ha : s.adapters[id]? = some a) :
    (s.perform c).2.adapters[id]? = some a := by
  have hregister : ∀ adapter index,
      (s.register adapter index).value.adapters[id]? = some a := by
    intro adapter index
    rw [adapters_register, OrderedMap.getElem?_insertIfNew, ha, Option.some_or]
  cases c with
  | register adapter index => exact hregister adapter index
  | ingest adapter index visibility entries fault =>
    have hadapters : (s.perform (.ingest adapter index visibility entries fault)).2.adapters =
        (s.register adapter index).value.adapters := adapters_ingest s adapter index _ _ _
    rw [hadapters]
    exact hregister adapter index
  | delete q o =>
    have hadapters : (s.perform (.delete q o)).2.adapters = s.adapters :=
      (s.sameFrame_delete h.rows q o).adapters
    rw [hadapters]
    exact ha
  | deleteEntry index data adapter labels =>
    have hadapters : (s.perform (.deleteEntry index data adapter labels)).2.adapters =
        s.adapters := (s.sameFrame_deleteEntry (h.rows index) data adapter labels).adapters
    rw [hadapters]
    exact ha

/-- An adapter that is registered stands, whatever the history. -/
theorem WF.getElem?_adapters_after (h : s.WF) (calls : List (Call T))
    (ha : s.adapters[id]? = some a) : (s.after calls).adapters[id]? = some a := by
  induction calls generalizing s with
  | nil => exact ha
  | cons c rest ih => exact ih (h.perform c) (h.getElem?_adapters_perform c ha)

/-! ## What entries are encoded with -/

/-- An entry has been encoded by the adapter that is registered ever since. -/
theorem Ingested.getElem?_adapters {start : Store T} (hwf : start.WF) {index : Bytes}
    {f : Filing T} {o : Origin T} (h : start.Ingested calls index f o) :
    (start.after calls).adapters[o.adapter.id]? = some o.adapter := by
  obtain ⟨earlier, later, given, entries, fault, rfl, -, hadapter, -⟩ := h
  have hearlier := hwf.after earlier
  obtain ⟨hregistered, hid⟩ := hearlier.registered given o.index
  rw [← hadapter] at hregistered hid
  rw [after_append, after_cons, hid]
  refine (hearlier.perform _).getElem?_adapters_after later ?_
  exact (congrArg (·[given.id]?) (adapters_ingest _ given o.index _ _ _)).trans hregistered

/-- An entry has been encoded for an index that a call has passed. -/
theorem Ingested.mem_passed {start : Store T} {index : Bytes} {f : Filing T} {o : Origin T}
    (h : start.Ingested calls index f o) : o.index ∈ passed index calls := by
  obtain ⟨earlier, later, given, entries, fault, rfl, hindex, -⟩ := h
  have hcall : Call.ingest given o.index o.visibility entries fault ∈
      earlier ++ .ingest given o.index o.visibility entries fault :: later :=
    List.mem_append_right _ List.mem_cons_self
  exact List.mem_filter.mpr ⟨List.mem_filterMap.mpr ⟨_, hcall, rfl⟩, decide_eq_true hindex⟩

/-- Each row of a store has been encoded by the adapter that is registered, for an index that a call
has passed. The index that queries use for it is the one that was passed first; so both are the same
if all calls pass one index under its identifier. -/
theorem rows_encoded_for_passed_index (config : Config) (statistics : StatisticsStore)
    (calls : List (Call T)) :
    let start : Store T := fresh config statistics
    let s := start.after calls
    (∀ id, s.indices[id]? = (passed id calls).head?) ∧
      (∀ target, ∀ i ∈ s.targeted target, s.indices[i.id]? = some i) ∧
      ∀ id, ∀ r ∈ (s.rowsOf id).all, ∃ o, start.Ingested calls id r.filing o ∧
        r.row ∈ r.filing.info.rows ∧
        (encodeEntry o.adapter o.index o.visibility r.filing.entry).value = .ok r.filing.info ∧
        s.adapters[o.adapter.id]? = some o.adapter ∧
        o.index ∈ passed id calls ∧
        ((∀ i ∈ passed id calls, ∀ j ∈ passed id calls, i = j) →
          s.indices[id]? = some o.index) := by
  intro start s
  have hstart : start.WF := wf_fresh config statistics
  have hwf : s.WF := hstart.after calls
  have hindices : ∀ id, s.indices[id]? = (passed id calls).head? := by
    intro id
    have hnone : start.indices[id]? = none := Std.ExtTreeMap.getElem?_empty
    rw [hstart.getElem?_indices_after calls id, hnone, Option.none_or]
  refine ⟨hindices, ?_, ?_⟩
  · intro target i hi
    rw [targeted_eq] at hi
    exact hwf.getElem?_of_mem_named hi
  · intro id r hr
    obtain ⟨o, ho⟩ := exists_ingested hstart (all_rowsOf_fresh config statistics) calls hr
    obtain ⟨entries, hfrom⟩ := ho.exists_from
    obtain ⟨place, hplace⟩ := RowSet.mem_all_iff.mp hr
    refine ⟨o, ho, (hwf.rows id).listed hplace, hfrom.encoded, ho.getElem?_adapters hstart,
      ho.mem_passed, ?_⟩
    intro hsame
    rw [hindices]
    cases hpassed : passed id calls with
    | nil => exact absurd (hpassed ▸ ho.mem_passed) List.not_mem_nil
    | cons i rest =>
      have hi : i ∈ passed id calls := hpassed ▸ List.mem_cons_self
      rw [hsame o.index ho.mem_passed i hi]
      rfl

private def fixedIndex (key : UInt8) : Index :=
  ⟨⟨[0x73], fun _ ↦ [[key]], fun _ _ ↦ []⟩, ⟨[0x6D], []⟩⟩

private def fixedAdapter : Adapter Scripted.Entry :=
  Scripted.AdapterPlan.adapter { id := [0x61] }

private def fixedCall (key : UInt8) : Call Scripted.Entry :=
  .ingest fixedAdapter (fixedIndex key) .unconstrained [{ id := [0x64] }] fun _ ↦ none

private def fixedRow (key : UInt8) : StoredRow Scripted.Entry :=
  let row : EncodedRow :=
    ⟨⟨[key], [0x64], [0x61], 0⟩, [key, 0x64, 0x61, 0, 0, 0, 1, 0, 0, 0, 1, 0, 0, 0, 0]⟩
  ⟨row, 0, ⟨[row], []⟩, { id := [0x64] }⟩

/-- An index is registered, and the same one is passed to an ingest: the row of the entry has been
encoded for the registered index. -/
theorem rows_encoded_for_passed_index_again :
    let calls := [.register fixedAdapter (fixedIndex 1), fixedCall 1]
    let s := (fresh {} {} : Store Scripted.Entry).after calls
    ∃ o : Origin Scripted.Entry,
      (encodeEntry o.adapter o.index o.visibility (fixedRow 1).filing.entry).value =
          .ok (fixedRow 1).filing.info ∧
        s.indices[(fixedIndex 1).id]? = some o.index := by
  intro calls s
  have hr : fixedRow 1 ∈ (s.rowsOf (fixedIndex 1).id).all := by decide +kernel
  have hpassed : passed (fixedIndex 1).id calls = [fixedIndex 1, fixedIndex 1] := rfl
  obtain ⟨o, -, -, hencoded, -, -, hindex⟩ :=
    (rows_encoded_for_passed_index {} {} calls).2.2 _ _ hr
  refine ⟨o, hencoded, hindex ?_⟩
  rw [hpassed]
  simp

/-- An index is registered, and another one with the same identifier is passed to an ingest: the
registered one stands, but the row of the entry is none that any entry is encoded with for it. -/
theorem rows_encoded_for_other_index :
    let s := (fresh {} {} : Store Scripted.Entry).after
      [.register fixedAdapter (fixedIndex 1), fixedCall 2]
    s.indices[(fixedIndex 1).id]? = some (fixedIndex 1) ∧
      ∃ r ∈ (s.rowsOf (fixedIndex 1).id).all,
        ∀ (adapter : Adapter Scripted.Entry) (visibility : VisibilityWriter Scripted.Entry)
          (entry : Scripted.Entry) (info : EntryInfo),
          (encodeEntry adapter (fixedIndex 1) visibility entry).value = .ok info →
            r.row ∉ info.rows := by
  intro s
  refine ⟨?_, fixedRow 2, by decide +kernel, ?_⟩
  · exact ((wf_fresh {} {}).getElem?_indices_after _ _).trans rfl
  · intro adapter visibility entry info hencoded hrow
    have hkey : ([2] : Bytes) ∈ [[1]] := key_mem_of_encodeEntry hencoded hrow
    exact absurd hkey (by decide)

end Store

end RowVault
