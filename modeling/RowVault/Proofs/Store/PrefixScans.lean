import RowVault.Proofs.Store.Invariant
import RowVault.Proofs.Store.Lookups
import RowVault.Proofs.Store.RowWindows
import RowVault.Scripted.Entry

/-!
# Scans of row ids that begin alike

Rows are ordered by insertion key and not by the bytes of their row ids. A row id begins with its
key, so where it begins with a byte string, one of the key and the byte string begins the other. The
windows of a scan hold just these keys, each window below the next one; a row of such a key is met
once, and yielded if its row id does begin with the byte string.
-/

namespace RowVault

variable {T : Type}

/-! ## The windows of a beginning -/

namespace Window

variable {start key : Bytes}

private theorem take_lt_take {m n : Nat} (hlt : m < n) (hn : n ≤ start.length) :
    start.take m < start.take n := by
  refine Std.lt_of_le_of_ne (List.take_prefix_take_left (Nat.le_of_lt hlt)).le ?_
  intro he
  have hlength := congrArg List.length he
  simp only [List.length_take] at hlength
  omega

/-- The windows of a beginning lie one below the other. -/
theorem pairwise_below_ofRowIdStart (start : Bytes) : (ofRowIdStart start).Pairwise Below := by
  rw [ofRowIdStart, List.pairwise_append, List.pairwise_map]
  refine ⟨?_, List.pairwise_singleton _ _, ?_⟩
  · refine List.pairwise_lt_range.imp_of_mem ?_
    intro m n _ hn hlt a b ha hb
    rw [holds_exactly.mp ha, holds_exactly.mp hb]
    exact take_lt_take hlt (Nat.le_of_lt (List.mem_range.mp hn))
  · intro w hw v hv a b ha hb
    obtain ⟨n, hn, rfl⟩ := List.mem_map.mp hw
    rw [List.mem_singleton.mp hv, holds_beginningWith] at hb
    rw [holds_exactly.mp ha]
    have hlt := take_lt_take (List.mem_range.mp hn) (Nat.le_refl start.length)
    rw [List.take_length] at hlt
    exact Std.lt_of_lt_of_le hlt hb.le

/-- A key lies in one of the windows of a beginning if it begins the latter or begins with it. -/
theorem any_holds_ofRowIdStart :
    (ofRowIdStart start).any (·.holds key) = true ↔ key <+: start ∨ start <+: key := by
  rw [ofRowIdStart, List.any_append, Bool.or_eq_true, List.any_eq_true]
  simp only [List.any_cons, List.any_nil, Bool.or_false, holds_beginningWith]
  constructor
  · rintro (⟨w, hw, hkey⟩ | hkey)
    · obtain ⟨n, -, rfl⟩ := List.mem_map.mp hw
      rw [holds_exactly.mp hkey]
      exact .inl (List.take_prefix n start)
    · exact .inr hkey
  · rintro (hkey | hkey)
    · rcases Nat.lt_or_ge key.length start.length with hlt | hge
      · refine .inl ⟨_, List.mem_map_of_mem (List.mem_range.mpr hlt), ?_⟩
        exact holds_exactly.mpr (List.prefix_iff_eq_take.mp hkey)
      · -- A key that is as long as what it begins is all of it.
        rw [hkey.eq_of_length_le hge]
        exact .inr (List.prefix_refl start)
    · exact .inr hkey

end Window

/-! ## The rows of a beginning -/

namespace RowSet

variable {rows : RowSet T} {r : StoredRow T} {start : Bytes}

/-- The row id of a stored row begins with its insertion key. -/
theorem WF.key_prefix (h : rows.WF) (hr : r ∈ rows.all) : r.row.id.key <+: r.row.raw := by
  obtain ⟨place, hr⟩ := mem_all_iff.mp hr
  rw [← (RowId.encode_eq_ok_iff.mp (h.encode_eq hr)).2.2, RowId.bytes, RowId.identity]
  simp only [List.append_assoc]
  exact List.prefix_append _ _

/-- A row whose row id begins with a byte string is in one of the windows of the beginning. -/
theorem WF.any_holds_of_prefix (h : rows.WF) (hr : r ∈ rows.all) (hstart : start <+: r.row.raw) :
    (Window.ofRowIdStart start).any (·.holds r.row.id.key) = true :=
  Window.any_holds_ofRowIdStart.mpr (List.prefix_or_prefix_of_prefix (h.key_prefix hr) hstart)

end RowSet

namespace Store

variable {s : Store T}

/-- The rows that a scan of row ids of a beginning yields: the visible ones whose row id begins with
it. -/
def beginning (s : Store T) (index start : Bytes) (labels : Labels) : List (StoredRow T) :=
  (s.rowsOf index).all.filter (StoredRow.shows labels (start.isPrefixOf ·.row.raw))

/-- The windows of a beginning leave out no row that is looked for. -/
theorem WF.filter_rowsBeginning (h : s.WF) (index start : Bytes) (labels : Labels) :
    (s.rowsBeginning index start).filter (StoredRow.shows labels (start.isPrefixOf ·.row.raw)) =
      s.beginning index start labels := by
  have hrows := h.rows index
  rw [rowsBeginning, beginning,
    hrows.placed.withinEach_eq (Window.pairwise_below_ofRowIdStart start), List.filter_filter]
  apply List.filter_congr
  intro r hr
  rw [StoredRow.shows]
  cases hstart : start.isPrefixOf r.row.raw with
  | false => rfl
  | true =>
    rw [hrows.any_holds_of_prefix hr (List.isPrefixOf_iff_prefix.mp hstart), Bool.and_true]

/-- In every reachable store, a scan of row ids of a beginning yields the entries of the visible rows
of the index whose row id begins with the byte string, also where their keys are shorter than it:
one entry for each such row, once, in the order of insertion keys and identities, up to where the
caller stops. -/
theorem prefix_scan_yields_matches (h : s.Reachable) (index start : Bytes) (labels : Labels) :
    (∀ take, (s.entriesBeginning index start labels take).value =
      (cut take (s.beginning index start labels)).map (·.filing.entry)) ∧
    (∀ r, r ∈ s.beginning index start labels ↔
      (s.rowsOf index)[r.place]? = some r ∧ start <+: r.row.raw ∧ r.isVisible labels = true) ∧
    (s.beginning index start labels).Nodup ∧
    (s.beginning index start labels).Pairwise StoredRow.Precedes := by
  have hplaced := (h.wf.rows index).placed
  have hordered : (s.beginning index start labels).Pairwise StoredRow.Precedes :=
    hplaced.precedes.filter _
  refine ⟨?_, ?_, hordered.imp StoredRow.Precedes.ne, hordered⟩
  · intro take
    rw [value_entriesBeginning, h.wf.filter_rowsBeginning]
  · intro r
    rw [beginning, List.mem_filter, hplaced.mem_all_iff, StoredRow.shows, Bool.and_eq_true,
      List.isPrefixOf_iff_prefix]

private def nestedKeys : List Bytes := [[], [0x01], [0x01, 0x64], [0xFF], [0xFF, 0xFF]]

private def nestedCall : Call Scripted.Entry :=
  .ingest (Scripted.AdapterPlan.adapter { id := [0x61] })
    ⟨⟨[0x73], fun _ ↦ nestedKeys, fun _ _ ↦ []⟩, ⟨[0x6D], []⟩⟩ .unconstrained
    [{ id := [0x64] }, { id := [0x65] }] fun _ ↦ none

/-- Two entries with five keys each. A beginning may end in a key, in the data id behind a shorter
key, or behind all row ids. -/
theorem prefix_scan_yields_matches_nested :
    let s := (fresh {} {} : Store Scripted.Entry).after [nestedCall]
    let scan (start : Bytes) := (s.entriesBeginning [0x73, 0x5F, 0x6D] start ∅).value.map (·.id)
    scan [0x01, 0x64] = [[0x64], [0x64], [0x65]] ∧
      scan [0xFF] = [[0x64], [0x65], [0x64], [0x65]] ∧
      (scan []).length = 10 ∧
      scan (List.replicate 30 0xFF) = [] := by
  intro s scan
  have hreachable : s.Reachable := ⟨{}, {}, _, rfl⟩
  have hscan (start : Bytes) : scan start =
      (s.beginning [0x73, 0x5F, 0x6D] start ∅).map (·.filing.entry.id) := by
    have hvalue := (prefix_scan_yields_matches hreachable [0x73, 0x5F, 0x6D] start ∅).1 none
    show (s.entriesBeginning [0x73, 0x5F, 0x6D] start ∅).value.map (·.id) = _
    rw [hvalue, List.map_map]
    rfl
  rw [hscan, hscan, hscan, hscan]
  decide +kernel

end Store

end RowVault
