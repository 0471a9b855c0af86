import RowVault.Proofs.Query.Stateless
import RowVault.Proofs.Store.Deliveries
import RowVault.Proofs.Store.Lookups
import RowVault.Proofs.Store.Owners
import RowVault.Proofs.Store.Wholeness
import RowVault.Scripted.Delivery

/-!
# Two ways to delete an entry

The visible rows of an adapter's entry can be deleted by the entry's data id, or by the query for
everything, called for this index, this adapter and this data id. The first way erases row by row,
and takes a filing back when its first row is erased. The second one notes the filings of the hits
and removes each of them with all rows that it lists. In a reachable store, the two ways leave the
same store.
-/

namespace RowVault

variable {T : Type}

/-- The call for one entry of an adapter in one index, without a limit. -/
def QueryOptions.ofEntry (index data adapter : Bytes) (labels : Labels) : QueryOptions where
  adapters := [adapter]
  index := some index
  limit := some 0
  labels := labels
  filters := [.entries [data]]

/-! ## Victims of one adapter in one index -/

namespace Doomed

/-- What has been noted of an adapter's rows in an index, where these are their filings. The adapter
has no group before its first victim. -/
def ofFilings (index adapter : Bytes) (filings : List (Filing T)) : List (Victim T) × Doomed T :=
  let victims : List (Victim T) := filings.map (⟨index, ·⟩)
  (victims.reverse, if filings.isEmpty then ∅ else (∅ : Doomed T).insert adapter victims)

variable {index adapter : Bytes} {filings : List (Filing T)}

/-- A victim is known if its filing is. -/
theorem any_same_ofFilings (f : Filing T) :
    (ofFilings index adapter filings).1.any (Victim.same ⟨index, f⟩) =
      filings.any (·.number == f.number) := by
  rw [ofFilings, List.any_reverse, List.any_map]
  congr 1
  funext g
  simp only [Function.comp_apply, Victim.same, beq_self_eq_true, Bool.true_and]
  exact BEq.comm

/-- One more victim is listed last among those of the adapter. -/
theorem insert_ofFilings (f : Filing T) :
    (ofFilings index adapter filings).2.insert adapter
        ((ofFilings index adapter filings).2.getD adapter [] ++ [⟨index, f⟩]) =
      (ofFilings index adapter (filings ++ [f])).2 := by
  cases filings with
  | nil => simp [ofFilings]
  | cons g rest =>
    apply Std.ExtTreeMap.ext_getElem?
    intro a
    by_cases ha : adapter = a <;> simp [ofFilings, ha]

/-- Noting a hit in the index from the adapter is noting its filing. -/
theorem note_ofFilings {r : StoredRow T} (hr : r.row.id.adapter = adapter) :
    note (ofFilings index adapter filings) ⟨index, r⟩ =
      ofFilings index adapter (RowSet.noteFiling r.filing filings) := by
  rw [note, RowSet.noteFiling]
  dsimp only
  rw [any_same_ofFilings]
  split
  · rfl
  · rw [hr, insert_ofFilings]
    simp [ofFilings]

/-- The hits in one index from one adapter are noted as their filings are. -/
theorem noted_of_adapter {found : List (StoredRow T)}
    (h : ∀ r ∈ found, r.row.id.adapter = adapter) :
    noted (found.map (⟨index, ·⟩)) = ofFilings index adapter (RowSet.noteEach [] found) := by
  have hall : ∀ filings : List (Filing T),
      (found.map (⟨index, ·⟩)).foldl note (ofFilings index adapter filings) =
        ofFilings index adapter (RowSet.noteEach filings found) := by
    induction found with
    | nil => exact fun _ ↦ rfl
    | cons r rest ih =>
      obtain ⟨hr, hrest⟩ := List.forall_mem_cons.mp h
      intro filings
      rw [List.map_cons, List.foldl_cons, note_ofFilings hr, ih hrest]
      rfl
  exact hall []

/-- The victims of hits in one index from one adapter are a single group. -/
theorem ofHits_of_adapter (index : Bytes) {found : List (StoredRow T)}
    (h : ∀ r ∈ found, r.row.id.adapter = adapter) (hne : RowSet.noteEach [] found ≠ []) :
    ofHits (found.map (⟨index, ·⟩)) =
      [(adapter, (RowSet.noteEach [] found).map (⟨index, ·⟩))] := by
  change (noted _).2.toList = _
  rw [noted_of_adapter h, ofFilings]
  dsimp only
  rw [if_neg (by simpa using hne), OrderedMap.toList_insert_empty]

end Doomed

namespace Store

variable {s : Store T} (index data adapter : Bytes) (labels : Labels)

/-! ## What the query yields -/

/-- The call for an entry remembers nothing. -/
theorem stateless_ofEntry :
    Query.everything.Stateless (.ofEntry index data adapter labels) where
  client f hf := by
    rw [List.mem_singleton.mp hf]
    exact Filter.stateless_entries [data]
  own _ _ hf := nomatch hf

/-- The call for an entry lets the rows pass that belong to it. -/
theorem passes_ofEntry (i : Index) (r : StoredRow T) :
    Query.everything.passes (.ofEntry index data adapter labels) i r =
      r.belongsTo data adapter := by
  have hadapters : (Filter.adapters [adapter]).accepts (r.decoded i.model) =
      (r.row.id.adapter == adapter) := by
    rw [Filter.accepts, Filter.ask]
    exact Bool.or_false _
  have hentries : (Filter.entries [data]).accepts (r.decoded i.model) =
      (r.row.id.data == data) := by
    rw [Filter.accepts, Filter.ask]
    exact Bool.or_false _
  have hclient : (QueryOptions.ofEntry index data adapter labels).clientFilters =
      [.adapters [adapter], .entries [data]] := rfl
  rw [Query.passes, hclient, List.all_cons, List.all_cons, hadapters, hentries]
  simp [StoredRow.belongsTo, Query.everything, Bool.and_comm]

/-- The call for an entry yields its visible rows in the index. -/
theorem WF.query_ofEntry (hs : s.WF) :
    (s.query .everything (.ofEntry index data adapter labels)).value =
      ((s.rowsOf index).all.filter (exposes data adapter labels)).map (⟨index, ·⟩) := by
  have hnamed : s.targeted (some index) = s.indices[index]?.toList := s.targeted_eq (some index)
  rw [value_query_of_unlimited rfl, listing_eq_flatMap _ (stateless_ofEntry ..)]
  change ((s.targeted (some index)).filter fun _ ↦ true).flatMap _ = _
  rw [hnamed, List.filter_true]
  cases hi : s.indices[index]? with
  | none =>
    have hnone : (s.rowsOf index).all = [] := by
      rw [List.eq_nil_iff_forall_not_mem]
      intro r hr
      have := hs.indexed r hr
      rw [hi] at this
      cases this
    rw [hnone]
    rfl
  | some i =>
    rw [Option.toList_some, List.flatMap_singleton, rowsFor_everything, hs.index_id hi]
    congr 1
    apply List.filter_congr
    intro r _
    rw [passes_ofEntry]
    exact Bool.and_comm _ _

/-! ## What both deletions leave -/

/-- A row goes with a visible row of the entry exactly if it is one itself. -/
theorem WF.any_owns_ofEntry (hs : s.WF) {i : Bytes} {place : RowKey} {r : StoredRow T}
    (hr : (s.rowsOf i)[place]? = some r) :
    (s.query .everything (.ofEntry index data adapter labels)).value.any (·.victim.owns i r) =
      (index == i && exposes data adapter labels r) := by
  rw [hs.query_ofEntry, List.any_map, Bool.eq_iff_iff, List.any_eq_true, Bool.and_eq_true,
    beq_iff_eq]
  constructor
  · rintro ⟨q, hq, howns⟩
    obtain ⟨hq, hexposed⟩ := List.mem_filter.mp hq
    obtain ⟨other, hq⟩ := RowSet.mem_all_iff.mp hq
    obtain ⟨hi, hn⟩ := Bool.and_eq_true_iff.mp howns
    obtain rfl : index = i := eq_of_beq hi
    rw [(hs.rows index).respects_exposes data adapter labels hq hr (eq_of_beq hn)] at hexposed
    exact ⟨rfl, hexposed⟩
  · rintro ⟨rfl, hexposed⟩
    refine ⟨r, List.mem_filter.mpr ⟨RowSet.mem_all_iff.mpr ⟨place, hr⟩, hexposed⟩, ?_⟩
    simp [Victim.owns, Hit.victim]

/-- Both deletions leave the same rows in every index. -/
theorem WF.rows_delete_ofEntry (hs : s.WF) :
    (s.delete .everything (.ofEntry index data adapter labels)).value.store.rows =
      (s.deleteEntry index data adapter labels).value.2.rows := by
  have hdelete := s.sameIndices_delete .everything (.ofEntry index data adapter labels)
  have hentry := s.sameIndices_deleteEntry (hs.rows index) data adapter labels
  refine SameIndices.eq (fun i ↦ (hdelete i).trans (hentry i).symm) fun i ↦ ?_
  change rowsOf _ i = rowsOf _ i
  rw [s.rowsOf_delete hs.rows, s.rowsOf_deleteEntry (hs.rows index)]
  apply RowSet.only_congr
  intro place r hr
  rw [hs.any_owns_ofEntry index data adapter labels hr]

/-- The filings with visible rows of an entry, each once. -/
def filingsOf (s : Store T) (index data adapter : Bytes) (labels : Labels) : List (Filing T) :=
  RowSet.noteEach [] ((s.rowsOf index).all.filter (exposes data adapter labels))

/-- An entry has visible rows if filings are noted. -/
theorem WF.filingsOf_ne_nil_iff {index data adapter : Bytes} {labels : Labels} (hs : s.WF) :
    s.filingsOf index data adapter labels ≠ [] ↔
      (s.rowsOf index).all.any (exposes data adapter labels) = true := by
  rw [List.any_eq_true, filingsOf]
  constructor
  · intro hne
    obtain ⟨f, hf⟩ := List.exists_mem_of_ne_nil _ hne
    rw [(hs.rows index).mem_noteEach fun r hr ↦ (List.mem_filter.mp hr).1] at hf
    obtain ⟨r, hr, -⟩ := hf
    exact ⟨r, List.mem_filter.mp hr⟩
  · rintro ⟨r, hr⟩
    apply List.ne_nil_of_mem (a := r.filing)
    rw [(hs.rows index).mem_noteEach fun r hr ↦ (List.mem_filter.mp hr).1]
    exact ⟨r, List.mem_filter.mpr hr, rfl⟩

/-- The call for an entry takes back the filings that have visible rows, in one tally. -/
theorem WF.value_delete_ofEntry {index data adapter : Bytes} {labels : Labels} (hs : s.WF)
    (hne : s.filingsOf index data adapter labels ≠ []) :
    ∃ rows, (s.delete .everything (.ofEntry index data adapter labels)).value =
      ⟨(s.filingsOf index data adapter labels).length, s.settle adapter
        ((s.filingsOf index data adapter labels).map (·.info)) rows⟩ := by
  have hadapter : ∀ r ∈ (s.rowsOf index).all.filter (exposes data adapter labels),
      r.row.id.adapter = adapter := by
    intro r hr
    have he := (List.mem_filter.mp hr).2
    simp only [exposes, StoredRow.shows, StoredRow.belongsTo, Bool.and_eq_true, beq_iff_eq] at he
    exact he.1.2
  have hgroups := Doomed.ofHits_of_adapter index hadapter hne
  rw [← hs.query_ofEntry] at hgroups
  have hdistinct := Doomed.distinct_ofHits
    (s.query .everything (.ofEntry index data adapter labels)).value
  rw [hgroups, Doomed.victims, List.flatMap_singleton] at hdistinct
  have hstands : ∀ v ∈ (s.filingsOf index data adapter labels).map (⟨index, ·⟩),
      Victim.Stands s.rows v := by
    intro v hv
    obtain ⟨h, hh, rfl, -⟩ := Doomed.of_mem_ofHits (hgroups ▸ List.mem_singleton_self _) hv
    exact stands_of_mem_query hs.rows hh
  obtain ⟨rows, hv, -⟩ := s.value_removeDoomed_cons 0 adapter _ [] hstands hdistinct
  refine ⟨rows, ?_⟩
  rw [delete, Traced.value_bind, hgroups]
  refine hv.trans ?_
  rw [removeDoomed, Traced.value_pure, List.length_map, Nat.zero_add, List.map_map]
  rfl

/-- Both deletions take back the same filings in the same order, if they find any. -/
theorem WF.store_delete_ofEntry (hs : s.WF) :
    (s.delete .everything (.ofEntry index data adapter labels)).value.store =
        (s.deleteEntry index data adapter labels).value.2 ∧
      ((s.deleteEntry index data adapter labels).value.1 = true ↔
        0 < (s.delete .everything (.ofEntry index data adapter labels)).value.entries) := by
  cases h : (s.rowsOf index).all.any (exposes data adapter labels) with
  | false =>
    have hnone : (s.query .everything (.ofEntry index data adapter labels)).value = [] := by
      rw [hs.query_ofEntry, List.map_eq_nil_iff]
      exact List.filter_eq_nil_iff.mpr (List.any_eq_false.mp h)
    have hdelete : (s.delete .everything (.ofEntry index data adapter labels)).value = ⟨0, s⟩ := by
      rw [delete, Traced.value_bind, hnone]
      rfl
    rw [hdelete, value_deleteEntry_of_none h]
    exact ⟨rfl, by simp⟩
  | true =>
    have hne := hs.filingsOf_ne_nil_iff.mpr h
    obtain ⟨rows, hdelete⟩ := hs.value_delete_ofEntry hne
    have hrows := hs.rows_delete_ofEntry index data adapter labels
    have hentry := value_deleteEntry_of_any (hs.rows index) h
    rw [filings_erased_eq (hs.rows index)] at hentry
    rw [hdelete, hentry] at hrows ⊢
    obtain rfl : rows = _ := hrows
    exact ⟨rfl, by simpa [List.length_pos_iff] using hne⟩

/-- Behind the deletion of an entry, none of its rows is visible. -/
theorem getEntry_deleteEntry {index : Bytes} (hwf : (s.rowsOf index).WF) :
    ((s.deleteEntry index data adapter labels).value.2.getEntry index data adapter labels).value =
      none := by
  have hnone : (s.rowsOf index).all.filter (fun r ↦ exposes data adapter labels r &&
      !(index == index && exposes data adapter labels r)) = [] := by
    rw [List.filter_eq_nil_iff]
    intro r _
    simp
  rw [value_getEntry, s.rowsOf_deleteEntry hwf, RowSet.all_only, List.filter_filter, hnone]
  rfl

/-- In every reachable store, the two ways to delete an adapter's entry from an index leave the same
store: the same rows in every index, and the same ledger, whose store has been called for the same
changes in the same order. The deletion by data id tells that it has removed something exactly if
the deletion by query counts entries. Afterwards, the entry is not found any more. -/
theorem delete_paths_agree (hs : s.Reachable) :
    let byEntry := (s.deleteEntry index data adapter labels).value
    let byQuery := (s.delete .everything (.ofEntry index data adapter labels)).value
    byQuery.store = byEntry.2 ∧
      (byEntry.1 = true ↔ 0 < byQuery.entries) ∧
      (byEntry.2.getEntry index data adapter labels).value = none := by
  obtain ⟨hstore, hany⟩ := hs.wf.store_delete_ofEntry index data adapter labels
  exact ⟨hstore, hany, getEntry_deleteEntry data adapter labels (hs.wf.rows index)⟩

-- Three versions of an entry under different keys, of which the last one asks for another label,
-- and another entry.
private def versions : Store Scripted.Entry :=
  let entry (data : UInt8) (keys formula : Bytes) : Scripted.Entry :=
    { Scripted.Entry.ofBytes [data] keys with visibility := formula }
  let entries :=
    [entry 0x64 [1, 2] [0x78], entry 0x64 [3] [], entry 0x64 [4] [0x79], entry 0x65 [1] []]
  (fresh {} {}).after
    [{ Delivery.ofBytes entries with visibility := Scripted.visibilityOfEntry }.call]

/-- Two of the three versions are visible. Both deletions take them back in one change, and leave
the third version and the other entry. -/
theorem delete_paths_agree_versions :
    let labels : Labels := .ofList ([[0x78]] : List Bytes)
    let byEntry := (versions.deleteEntry Index.ofBytes.id [0x64] [0x61] labels).value
    let byQuery :=
      (versions.delete .everything (.ofEntry Index.ofBytes.id [0x64] [0x61] labels)).value
    byEntry.1 = true ∧ byQuery.entries = 2 ∧
      (byEntry.2.rowsOf Index.ofBytes.id).all.map (·.row.id.key) = [[1], [4]] ∧
      byEntry.2.ledger.store.calls =
        ⟨⟨[0x61], .count⟩, .count (-2)⟩ :: versions.ledger.store.calls ∧
      byQuery.store = byEntry.2 ∧
      (byEntry.2.getEntry Index.ofBytes.id [0x64] [0x61] labels).value = none := by
  intro labels byEntry byQuery
  have hreachable : versions.Reachable := ⟨{}, {}, _, rfl⟩
  obtain ⟨hstore, hany, hnone⟩ :=
    delete_paths_agree Index.ofBytes.id [0x64] [0x61] labels hreachable
  have hentries : byQuery.entries = 2 := by decide +kernel
  refine ⟨hany.mpr ?_, hentries, by decide +kernel, by decide +kernel, hstore, hnone⟩
  rw [hentries]
  exact Nat.zero_lt_two

end Store

end RowVault
