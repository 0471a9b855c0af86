import RowVault.Proofs.Store.Deliveries
import RowVault.Proofs.Store.Lookups
import RowVault.Scripted.Delivery

/-!
# Lookups by row id

A lookup by row id goes straight to the place that the bytes tell, while rows are put at the places
of the row ids that they were encoded with. Both are the same place for the bytes of a stored row,
so the lookup finds what a walk over all rows would find. At the place of other bytes there is no
row, or one whose number of duplicates differs, which is not found either.
-/

namespace RowVault

variable {T : Type}

namespace RowSet

variable {rows : RowSet T} {r q : StoredRow T} {raw : Bytes}

/-- The bytes of a stored row lead to its place. -/
theorem WF.bind_decode?_raw (h : rows.WF) (hr : r ∈ rows.all) :
    ((RowKey.decode? r.row.raw).bind fun place ↦ rows[place]?) = some r := by
  have hplace := h.placed.mem_all_iff.mp hr
  rw [RowKey.decode?_of_encode (h.encode_eq hplace), Option.bind_some]
  exact hplace

/-- Stored rows whose bytes differ at most in the number of duplicates are the same. -/
theorem WF.eq_of_identityOf (h : rows.WF) (hr : r ∈ rows.all) (hq : q ∈ rows.all)
    (hid : RowId.identityOf r.row.raw = RowId.identityOf q.row.raw) : r = q := by
  have hr := h.placed.mem_all_iff.mp hr
  have hq := h.placed.mem_all_iff.mp hq
  have hids : r.row.id.identity = q.row.id.identity := by
    rw [← RowId.identityOf_bytes, ← RowId.identityOf_bytes,
      (RowId.encode_eq_ok_iff.mp (h.encode_eq hr)).2.2,
      (RowId.encode_eq_ok_iff.mp (h.encode_eq hq)).2.2, hid]
  have hplace : r.place = q.place :=
    (RowKey.ofRow_inj (h.encode_eq hr) (h.encode_eq hq)).mpr
      ((RowId.identity_inj (h.encode_eq hr) (h.encode_eq hq)).mp hids)
  rw [hplace, hq] at hr
  exact (Option.some.inj hr).symm

end RowSet

namespace Store

variable {s : Store T}

/-- A lookup by row id gives an entry just if it is that of a visible row with these bytes. -/
theorem WF.value_getByRowId_eq_some_iff (h : s.WF) {index raw : Bytes} {labels : Labels}
    {entry : T} :
    (s.getByRowId index raw labels).value = some entry ↔
      ∃ r ∈ (s.rowsOf index).all, r.row.raw = raw ∧ r.isVisible labels = true ∧
        r.filing.entry = entry := by
  rw [value_getByRowId, Option.map_eq_some_iff]
  simp only [Option.filter_eq_some_iff, StoredRow.shows, Bool.and_eq_true, decide_eq_true_eq]
  constructor
  · rintro ⟨r, ⟨hfound, hraw, hv⟩, hentry⟩
    obtain ⟨place, -, hr⟩ := Option.bind_eq_some_iff.mp hfound
    exact ⟨r, RowSet.mem_all_iff.mpr ⟨place, hr⟩, hraw, hv, hentry⟩
  · rintro ⟨r, hr, rfl, hv, hentry⟩
    exact ⟨r, ⟨(h.rows index).bind_decode?_raw hr, rfl, hv⟩, hentry⟩

/-- In every reachable store, a lookup by row id gives the entry of the visible row of the index that
has exactly these bytes, as a walk over all rows would; and nothing if there is none. In particular,
it gives nothing for bytes that do not decode, for those of a row that is not stored, and for those
that differ from a stored row in nothing but the number of duplicates. -/
theorem keyed_lookup_finds_row (h : s.Reachable) (index raw : Bytes) (labels : Labels) :
    (∀ entry, (s.getByRowId index raw labels).value = some entry ↔
      ∃ r ∈ (s.rowsOf index).all, r.row.raw = raw ∧ r.isVisible labels = true ∧
        r.filing.entry = entry) ∧
    (s.getByRowId index raw labels).value =
      ((s.rowsOf index).all.find? fun r ↦ decide (r.row.raw = raw) && r.isVisible labels).map
        (·.filing.entry) ∧
    (∀ e, RowId.decode raw = .error e → (s.getByRowId index raw labels).value = none) ∧
    ((∀ r ∈ (s.rowsOf index).all, r.row.raw ≠ raw) →
      (s.getByRowId index raw labels).value = none) ∧
    ∀ r ∈ (s.rowsOf index).all, RowId.identityOf raw = RowId.identityOf r.row.raw →
      raw ≠ r.row.raw → (s.getByRowId index raw labels).value = none := by
  have hrows := h.wf.rows index
  have hsome (entry : T) := @WF.value_getByRowId_eq_some_iff T s h.wf index raw labels entry
  have hnone (hall : ∀ r ∈ (s.rowsOf index).all, r.row.raw ≠ raw) :
      (s.getByRowId index raw labels).value = none := by
    rw [Option.eq_none_iff_forall_ne_some]
    intro entry hentry
    obtain ⟨r, hr, hraw, -⟩ := (hsome entry).mp hentry
    exact hall r hr hraw
  refine ⟨hsome, ?_, ?_, hnone, ?_⟩
  · cases hfind : (s.rowsOf index).all.find? fun r ↦
        decide (r.row.raw = raw) && r.isVisible labels with
    | some r =>
      have hmatch := List.find?_some hfind
      rw [Bool.and_eq_true, decide_eq_true_eq] at hmatch
      exact (hsome _).mpr ⟨r, List.mem_of_find?_eq_some hfind, hmatch.1, hmatch.2, rfl⟩
    | none =>
      rw [Option.map_none, Option.eq_none_iff_forall_ne_some]
      intro entry hentry
      obtain ⟨r, hr, hraw, hv, -⟩ := (hsome entry).mp hentry
      exact List.find?_eq_none.mp hfind r hr (by simp [hraw, hv])
  · intro e he
    apply hnone
    rintro r hr rfl
    rw [RowId.decode_of_encode (hrows.encode_eq (hrows.placed.mem_all_iff.mp hr))] at he
    cases he
  · intro r hr hid hne
    apply hnone
    -- A stored row with the bytes would be the row that they differ from.
    rintro q hq rfl
    exact hne (congrArg (·.row.raw) (hrows.eq_of_identityOf hq hr hid))

/-- A row id of an entry with two keys leads to the entry. With another number of duplicates, or cut
off, it leads nowhere. -/
theorem keyed_lookup_finds_row_duplicated :
    let s := (fresh {} {}).after [(Delivery.ofBytes [.ofBytes [0x64] [1, 2]]).call]
    let raw (duplicates : UInt8) : Bytes :=
      [1, 0x64, 0x61, 0, 0, 0, 1, 0, 0, 0, 1, 0, 0, 0, duplicates]
    (s.getByRowId Index.ofBytes.id (raw 1) ∅).value = some (.ofBytes [0x64] [1, 2]) ∧
      (s.getByRowId Index.ofBytes.id (raw 0) ∅).value = none ∧
      (s.getByRowId Index.ofBytes.id ((raw 1).take 11) ∅).value = none := by
  intro s raw
  have hreachable : s.Reachable := ⟨{}, {}, _, rfl⟩
  have hexact := (keyed_lookup_finds_row hreachable Index.ofBytes.id (raw 1) ∅).1
  have hother := (keyed_lookup_finds_row hreachable Index.ofBytes.id (raw 0) ∅).2.2.2.2
  have hshort := (keyed_lookup_finds_row hreachable Index.ofBytes.id ((raw 1).take 11) ∅).2.2.1
  have hfound : (s.getByRowId Index.ofBytes.id (raw 1) ∅).value = some (.ofBytes [0x64] [1, 2]) :=
    (hexact _).mpr (by decide +kernel)
  obtain ⟨r, hr, hraw, -⟩ := (hexact _).mp hfound
  refine ⟨hfound, ?_, hshort (.tooShort 11 12) (by decide +kernel)⟩
  apply hother r hr
  · rw [hraw]
    rfl
  · rw [hraw]
    decide

end Store

end RowVault
