import RowVault.Proofs.Query.Stateless
import RowVault.Proofs.Store.Deliveries
import RowVault.Scripted.Delivery

/-!
# A deletion is a query and the removal of what it yields

A deletion removes from each index the entries of which the query yields a row there, with all of
their rows, and nothing else. It counts each of them once for each index. Without a limit and with
filters that remember nothing, the query yields nothing of what is left, so that another deletion
removes nothing.
-/

namespace RowVault

variable {T : Type}

/-- The entry of a hit, in its index. -/
def Hit.owner (h : Hit T) : Bytes × Filing T := (h.index, h.row.filing)

namespace Store

variable {s : Store T} {q : Query} {o : QueryOptions} {h g : Hit T}

/-- A hit is a row at its place, in the index that it names. -/
theorem WF.getElem?_of_mem_query (hs : s.WF) (hm : h ∈ (s.query q o).value) :
    (s.rowsOf h.index)[h.row.place]? = some h.row := by
  obtain ⟨i, -, hi, hr, -⟩ := of_mem_query hm
  rw [← hi] at hr
  obtain ⟨place, hr⟩ := RowSet.mem_all_iff.mp hr
  rw [(hs.rows h.index).place_eq hr]
  exact hr

/-- A hit goes with the rows of its entry in its index. -/
theorem WF.owns_iff (hs : s.WF) (hm : h ∈ (s.query q o).value) {index : Bytes} {place : RowKey}
    {r : StoredRow T} (hr : (s.rowsOf index)[place]? = some r) :
    h.victim.owns index r = true ↔ h.owner = (index, r.filing) := by
  have hrow := hs.getElem?_of_mem_query hm
  simp only [Victim.owns, Hit.victim, Hit.owner, Bool.and_eq_true, beq_iff_eq, Prod.mk.injEq]
  constructor
  · rintro ⟨rfl, hn⟩
    exact ⟨rfl, (hs.rows h.index).filing_eq hrow hr hn⟩
  · rintro ⟨rfl, hf⟩
    exact ⟨rfl, congrArg Filing.number hf⟩

/-- Hits are the same victim exactly if their entries are the same in the same index. -/
theorem WF.owner_eq_iff (hs : s.WF) (hm : h ∈ (s.query q o).value) (hg : g ∈ (s.query q o).value) :
    h.owner = g.owner ↔ h.victim.same g.victim = true :=
  (hs.owns_iff hm (hs.getElem?_of_mem_query hg)).symm

/-- A deletion keeps the rows of the entries that the query does not yield in their index. -/
theorem WF.getElem?_delete_eq_some_iff (hs : s.WF) {index : Bytes} {place : RowKey}
    {r : StoredRow T} :
    ((s.delete q o).value.store.rowsOf index)[place]? = some r ↔
      (s.rowsOf index)[place]? = some r ∧
        ∀ h ∈ (s.query q o).value, h.owner ≠ (index, r.filing) := by
  rw [s.rowsOf_delete hs.rows, RowSet.getElem?_only, Option.filter_eq_some_iff]
  refine and_congr_right fun hr ↦ ?_
  rw [Bool.not_eq_true', List.any_eq_false]
  exact forall₂_congr fun h hm ↦ not_congr (hs.owns_iff hm hr)

/-- A deletion counts the entries that the query yields, each once for each index. -/
theorem WF.entries_delete (hs : s.WF) (q : Query) (o : QueryOptions) :
    ∃ owners : List (Bytes × Filing T), owners.Nodup ∧
      (∀ x, x ∈ owners ↔ ∃ h ∈ (s.query q o).value, h.owner = x) ∧
      (s.delete q o).value.entries = owners.length := by
  obtain ⟨_, _, hv, -⟩ := s.value_delete hs.rows q o
  obtain ⟨hnodup, hmem⟩ := Doomed.keys_noted (fun v ↦ (v.index, v.filing))
    fun h hm g hg ↦ hs.owner_eq_iff hm hg
  refine ⟨_, hnodup, ?_, ?_⟩
  · intro x
    rw [hmem, List.mem_map]
    rfl
  · rw [hv, List.length_map]

/-! ## Once more -/

/-- What a query with stateless filters and without a limit would yield of the rows that a deletion
leaves, it has yielded before. -/
theorem WF.query_delete (hs : s.WF) (hf : q.Stateless o)
    (hlimit : o.effectiveLimit s.config.defaultLimit = none) :
    ((s.delete q o).value.store.query q o).value = [] := by
  have hframe := s.sameFrame_delete hs.rows q o
  have ht : (s.delete q o).value.store.WF := hs.perform (.delete q o)
  have htargeted : (s.delete q o).value.store.targeted o.index = s.targeted o.index := by
    simp only [targeted, targets, hframe.indices]
  rw [value_query_of_unlimited (by rw [hframe.config, hlimit]), listing_eq_flatMap _ hf, htargeted,
    List.flatMap_eq_nil_iff]
  intro i hi
  rw [List.map_eq_nil_iff, List.filter_eq_nil_iff]
  intro r hr haccepted
  -- The row has been among the candidates of the first scan, which has therefore yielded it.
  rw [rowsFor_eq (ht.rows i.id), List.mem_filter, hframe.config] at hr
  obtain ⟨hr, hwanted⟩ := hr
  obtain ⟨place, hr⟩ := RowSet.mem_all_iff.mp hr
  obtain ⟨hr, hkept⟩ := hs.getElem?_delete_eq_some_iff.mp hr
  refine hkept ⟨i.id, r⟩ ?_ rfl
  rw [value_query_of_unlimited hlimit, listing_eq_flatMap _ hf]
  refine List.mem_flatMap.mpr ⟨i, hi, List.mem_map_of_mem (List.mem_filter.mpr ⟨?_, haccepted⟩)⟩
  rw [rowsFor_eq (hs.rows i.id)]
  exact List.mem_filter.mpr ⟨RowSet.mem_all_iff.mpr ⟨place, hr⟩, hwanted⟩

/-- In every reachable store, a deletion removes from each index all rows of the entries of which
the query yields a row there, and keeps all other rows of all indices. It returns how many entries
these are, each counted once for each index. Where the filters are stateless and there is no limit,
the query yields nothing afterwards, and the same deletion returns zero. -/
theorem delete_removes_yielded_entries (hs : s.Reachable) (q : Query) (o : QueryOptions) :
    let hits := (s.query q o).value
    let done := (s.delete q o).value
    (∀ (index : Bytes) (place : RowKey) (r : StoredRow T),
      (done.store.rowsOf index)[place]? = some r ↔
        (s.rowsOf index)[place]? = some r ∧ ∀ h ∈ hits, h.owner ≠ (index, r.filing)) ∧
    (∀ h ∈ hits, ∀ l ∈ h.row.filing.info.rows,
      (s.rowsOf h.index)[l.place]? = some ⟨l, h.row.filing⟩ ∧
        (done.store.rowsOf h.index)[l.place]? = none) ∧
    (∃ owners : List (Bytes × Filing T), owners.Nodup ∧
      (∀ x, x ∈ owners ↔ ∃ h ∈ hits, h.owner = x) ∧ done.entries = owners.length) ∧
    (q.Stateless o → o.effectiveLimit s.config.defaultLimit = none →
      (done.store.delete q o).value.entries = 0 ∧ (done.store.query q o).value = []) := by
  intro hits done
  have hwf := hs.wf
  refine ⟨fun _ _ _ ↦ hwf.getElem?_delete_eq_some_iff, ?_, hwf.entries_delete q o, ?_⟩
  · intro h hm l hl
    have hrow := (hwf.rows h.index).whole (hwf.getElem?_of_mem_query hm) l hl
    refine ⟨hrow, ?_⟩
    rw [Option.eq_none_iff_forall_ne_some]
    intro r hr
    obtain ⟨hr, hkept⟩ := hwf.getElem?_delete_eq_some_iff.mp hr
    rw [hrow] at hr
    obtain rfl := Option.some.inj hr
    exact hkept h hm rfl
  · intro hf hlimit
    have hnone := hwf.query_delete hf hlimit
    refine ⟨?_, hnone⟩
    have hdone : done.store.WF := hwf.perform (.delete q o)
    obtain ⟨owners, -, howners, hentries⟩ := hdone.entries_delete q o
    rw [hentries, List.length_eq_zero_iff, List.eq_nil_iff_forall_not_mem]
    intro x hx
    obtain ⟨h, hm, -⟩ := (howners x).mp hx
    rw [hnone] at hm
    cases hm

private theorem stateless_ofKey (key : Bytes) : (Query.ofKey key).Stateless {} where
  client _ hf := nomatch hf
  own _ f hf := by
    rw [List.mem_singleton.mp hf]
    exact Filter.stateless_host (fun _ _ ↦ rfl) []

private def commonKey : Store Scripted.Entry :=
  (fresh {} {}).after
    [(Delivery.ofBytes [.ofBytes [0x64] [1, 2], .ofBytes [0x65] [2, 3], .ofBytes [0x66] [4]]).call]

/-- A deletion of the rows of a key removes two entries with all of their rows, and none when it is
called again. -/
theorem delete_removes_yielded_entries_of_key :
    let done := (commonKey.delete (.ofKey [2]) {}).value
    done.entries = 2 ∧
      (done.store.rowsOf Index.ofBytes.id).all.map (·.row.id.key) = [[4]] ∧
      (∀ h ∈ (commonKey.query (.ofKey [2]) {}).value, ∀ l ∈ h.row.filing.info.rows,
        (done.store.rowsOf h.index)[l.place]? = none) ∧
      (done.store.delete (.ofKey [2]) {}).value.entries = 0 := by
  intro done
  obtain ⟨-, hremoved, -, hagain⟩ :=
    delete_removes_yielded_entries (s := commonKey) ⟨{}, {}, _, rfl⟩ (.ofKey [2]) {}
  refine ⟨by decide +kernel, by decide +kernel, ?_, ?_⟩
  · exact fun h hm l hl ↦ (hremoved h hm l hl).2
  · exact (hagain (stateless_ofKey [2]) rfl).1

end Store

end RowVault
