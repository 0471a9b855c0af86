import RowVault.Proofs.Row.Decoding
import RowVault.Proofs.Store.Invariant
import RowVault.Scripted.Entry

/-!
# Entries are stored whole in every reachable store

Every call keeps a row set for each registered index, and for no other one. In these row sets each
row is at the place of its own row id, and a filing that has a row has all rows that it lists, so no
history leaves a part of an entry behind.
-/

namespace RowVault

variable {T : Type}

/-! ## Row sets that stay -/

/-- Two collections of row sets are of the same indices. -/
def SameIndices (rows after : Std.ExtTreeMap Bytes (RowSet T)) : Prop :=
  ∀ index, index ∈ after ↔ index ∈ rows

namespace SameIndices

variable {rows between after : Std.ExtTreeMap Bytes (RowSet T)}

/-- Row sets are of the same indices as themselves. -/
theorem refl (rows : Std.ExtTreeMap Bytes (RowSet T)) : SameIndices rows rows :=
  fun _ ↦ Iff.rfl

/-- Indices that stay the same twice are the same. -/
theorem trans (h : SameIndices rows between) (hb : SameIndices between after) :
    SameIndices rows after :=
  fun index ↦ (hb index).trans (h index)

/-- Rows of an index are replaced. -/
theorem insert {index : Bytes} (h : index ∈ rows) (x : RowSet T) :
    SameIndices rows (rows.insert index x) := by
  intro other
  rw [Std.ExtTreeMap.mem_insert, Std.LawfulEqOrd.compare_eq_iff_eq]
  constructor
  · rintro (rfl | ho)
    · exact h
    · exact ho
  · exact .inr

/-- Collections of the same indices with the same rows are the same. -/
theorem eq (h : SameIndices rows after)
    (hat : ∀ index, rowsAt after index = rowsAt rows index) : after = rows := by
  apply Std.ExtTreeMap.ext_getElem?
  intro index
  by_cases hm : index ∈ rows
  · have hm' := (h index).mpr hm
    have he := hat index
    rw [rowsAt, rowsAt, Std.ExtTreeMap.getD_eq_getD_getElem?, Std.ExtTreeMap.getD_eq_getD_getElem?,
      Std.ExtTreeMap.getElem?_eq_some_getElem hm, Std.ExtTreeMap.getElem?_eq_some_getElem hm'] at he
    rw [Std.ExtTreeMap.getElem?_eq_some_getElem hm, Std.ExtTreeMap.getElem?_eq_some_getElem hm']
    exact congrArg some he
  · rw [Std.ExtTreeMap.getElem?_eq_none hm, Std.ExtTreeMap.getElem?_eq_none (mt (h index).mp hm)]

end SameIndices

namespace Deletion

/-- Removing a victim replaces rows of its index, if it has any. -/
theorem sameIndices_remove (d : Deletion T) (v : Victim T) :
    SameIndices d.rows (d.remove v).value.rows := by
  rw [remove]
  cases hv : d.rows[v.index]? with
  | none => exact .refl _
  | some rows =>
    dsimp only
    split
    · apply SameIndices.insert
      rw [Std.ExtTreeMap.mem_iff_isSome_getElem?, hv]
      rfl
    · exact .refl _

/-- Removing victims replaces rows of their indices. -/
theorem sameIndices_removeEach (d : Deletion T) (victims : List (Victim T)) :
    SameIndices d.rows (d.removeEach victims).value.rows := by
  induction victims generalizing d with
  | nil => exact .refl _
  | cons v rest ih => exact (d.sameIndices_remove v).trans (ih _)

end Deletion

namespace Store

/-- Removing the victims of adapters replaces rows of their indices. -/
theorem sameIndices_removeDoomed (s : Store T) (entries : Nat)
    (groups : List (Bytes × List (Victim T))) :
    SameIndices s.rows (s.removeDoomed entries groups).value.store.rows := by
  induction groups generalizing s entries with
  | nil => exact .refl _
  | cons group rest ih =>
    obtain ⟨adapter, victims⟩ := group
    rw [removeDoomed]
    simp only [Traced.value_bind]
    apply SameIndices.trans _ (ih _ _)
    exact Deletion.sameIndices_removeEach _ victims

/-- A deletion by query keeps the row sets of all indices. -/
theorem sameIndices_delete (s : Store T) (q : Query) (o : QueryOptions) :
    SameIndices s.rows (s.delete q o).value.store.rows :=
  s.sameIndices_removeDoomed 0 _

/-- An index that has rows has a row set. -/
theorem mem_rows_of_mem_all {s : Store T} {index : Bytes} {r : StoredRow T}
    (h : r ∈ (s.rowsOf index).all) : index ∈ s.rows := by
  apply Decidable.byContradiction
  intro hn
  rw [rowsOf, Std.ExtTreeMap.getD_eq_fallback hn] at h
  simp [RowSet.all] at h

/-- A deletion of an entry keeps the row sets of all indices. -/
theorem sameIndices_deleteEntry (s : Store T) {index : Bytes} (hwf : (s.rowsOf index).WF)
    (data adapter : Bytes) (labels : Labels) :
    SameIndices s.rows (s.deleteEntry index data adapter labels).value.2.rows := by
  cases h : (s.rowsOf index).all.any (exposes data adapter labels) with
  | false =>
    rw [value_deleteEntry_of_none h]
    exact .refl _
  | true =>
    obtain ⟨r, hr, -⟩ := List.any_eq_true.mp h
    rw [value_deleteEntry_of_any hwf h]
    exact SameIndices.insert (mem_rows_of_mem_all hr) _

/-! ## A row set for each registered index -/

/-- There is a row set for each registered index, and for no other one. -/
def Shelved (s : Store T) : Prop := ∀ index, index ∈ s.rows ↔ index ∈ s.indices

/-- Row sets that stay are those of the registered indices, if these stay as well. -/
theorem Shelved.of_sameIndices {s t : Store T} (h : s.Shelved) (hrows : SameIndices s.rows t.rows)
    (hindices : t.indices = s.indices) : t.Shelved := by
  intro index
  rw [hrows index, h index, hindices]

/-- An index is registered with its row set. -/
theorem Shelved.register {s : Store T} (h : s.Shelved) (adapter : Adapter T) (index : Index) :
    (s.register adapter index).value.Shelved := by
  intro id
  rw [value_register]
  dsimp only
  rw [Std.ExtTreeMap.mem_insertIfNew, Std.ExtTreeMap.mem_insertIfNew, h id]

/-- An ingest registers its index, and replaces the rows of that one. -/
theorem Shelved.ingest {s : Store T} (h : s.Shelved) (adapter : Adapter T) (index : Index)
    (visibility : VisibilityWriter T) (entries : List T) (fault : Nat → Option HostFault) :
    (s.ingest adapter index visibility entries fault).value.store.Shelved := by
  have hregister := h.register adapter index
  have hindex : index.id ∈ (s.register adapter index).value.rows := by
    rw [value_register]
    exact Std.ExtTreeMap.mem_insertIfNew_self
  rw [value_ingest]
  exact hregister.of_sameIndices (SameIndices.insert hindex _) rfl

/-- Every call keeps a row set for each registered index. -/
theorem Shelved.perform {s : Store T} (h : s.Shelved) (hwf : s.WF) (c : Call T) :
    (s.perform c).2.Shelved := by
  cases c with
  | register adapter index => exact h.register adapter index
  | ingest adapter index visibility entries fault =>
    exact h.ingest adapter index visibility entries fault
  | delete q o =>
    exact h.of_sameIndices (s.sameIndices_delete q o) (s.sameFrame_delete hwf.rows q o).indices
  | deleteEntry index data adapter labels =>
    exact h.of_sameIndices (s.sameIndices_deleteEntry (hwf.rows index) data adapter labels)
      (s.sameFrame_deleteEntry (hwf.rows index) data adapter labels).indices

/-- Every reachable store has a row set for each registered index. -/
theorem Reachable.shelved {s : Store T} (h : s.Reachable) : s.Shelved := by
  have hboth : s.WF ∧ s.Shelved := by
    apply h.induction
    · intro config statistics
      refine ⟨wf_fresh config statistics, ?_⟩
      intro index
      simp [fresh]
    · intro t c ht
      exact ⟨ht.1.perform c, ht.2.perform ht.1 c⟩
  exact hboth.2

/-- In every reachable store, there is a row set for each registered index and for no other one.
Each row of it is at the place of its row id, its bytes decode to this row id, and its filing lists
it. Every row that the filing lists is stored there as well, with the same filing; and rows with the
number of the filing have the very same filing. -/
theorem entries_stored_whole {s : Store T} (h : s.Reachable) :
    (∀ index, index ∈ s.rows ↔ index ∈ s.indices) ∧
    ∀ (index : Bytes) (rows : RowSet T), s.rows[index]? = some rows →
      ∀ (place : RowKey) (r : StoredRow T), rows[place]? = some r →
        place = RowKey.ofRow r.row.id r.row.raw ∧
        RowId.decode r.row.raw = .ok r.row.id ∧
        r.row ∈ r.filing.info.rows ∧
        (∀ l ∈ r.filing.info.rows,
          rows[RowKey.ofRow l.id l.raw]? = some ⟨l, r.filing⟩) ∧
        ∀ (other : RowKey) (q : StoredRow T), rows[other]? = some q →
          q.filing.number = r.filing.number → q.filing = r.filing := by
  refine ⟨h.shelved, ?_⟩
  intro index rows hrows place r hr
  have hwf : rows.WF := by
    have hat := h.wf.rows index
    rwa [rowsOf, Std.ExtTreeMap.getD_eq_getD_getElem?, hrows] at hat
  have hlisted := hwf.listed hr
  refine ⟨(hwf.place_eq hr).symm, ?_, hlisted, hwf.whole hr, ?_⟩
  · exact RowId.decode_of_encode ((hwf.sound hr).encoded _ hlisted)
  · intro other q hq hn
    exact hwf.filing_eq hq hr hn

private def overlapIndex : Index :=
  let keys (common : Dataset) : List Bytes :=
    if common.get? [0x66] = some (.bool true) then [[0x01], [0x02]] else [[0x02], [0x03]]
  ⟨⟨[0x73], keys, fun _ _ ↦ []⟩, ⟨[0x6D], [.ofCodec [0x66] {}]⟩⟩

private def overlapCall (flag : Bool) : Call Scripted.Entry :=
  .ingest (Scripted.AdapterPlan.adapter { id := [0x61] }) overlapIndex .unconstrained
    [{ id := [0x64], fields := [⟨[0x66], .bool flag⟩] }] fun _ ↦ none

/-- An entry that comes again under one of its two keys loses the row of the other one as well. -/
theorem entries_stored_whole_overlapping :
    let s := (fresh {} {} : Store Scripted.Entry).after [overlapCall true, overlapCall false]
    overlapIndex.id ∈ s.rows ∧
      (s.rowsOf overlapIndex.id).all.map (·.row.id.key) = [[0x02], [0x03]] ∧
      ∀ r ∈ (s.rowsOf overlapIndex.id).all, ∀ l ∈ r.filing.info.rows,
        (s.rowsOf overlapIndex.id)[RowKey.ofRow l.id l.raw]? = some ⟨l, r.filing⟩ := by
  intro s
  have hreachable : s.Reachable := ⟨{}, {}, _, rfl⟩
  obtain ⟨hindices, hwhole⟩ := entries_stored_whole hreachable
  have hmem : overlapIndex.id ∈ s.rows := (hindices _).mpr (by decide +kernel)
  refine ⟨hmem, by decide +kernel, ?_⟩
  intro r hr l hl
  obtain ⟨place, hr⟩ := RowSet.mem_all_iff.mp hr
  have hrows : s.rows[overlapIndex.id]? = some (s.rowsOf overlapIndex.id) := by
    rw [rowsOf, Std.ExtTreeMap.getD_eq_getD_getElem?, Std.ExtTreeMap.getElem?_eq_some_getElem hmem,
      Option.getD_some]
  obtain ⟨-, -, -, hlisted, -⟩ := hwhole _ _ hrows place r hr
  exact hlisted l hl

end Store

end RowVault
