import RowVault.Proofs.Store.Exposure
import RowVault.Proofs.Store.Invariant
import RowVault.Scripted.Entry

/-!
# Hidden rows do not interfere

Two stores may hold any rows that a caller does not see. If they agree in their configuration, in
their indices and in what the visible rows show, the caller cannot tell them apart: queries and
lookups give the same, deletions return the same and remove the same visible rows, and no deletion
touches a hidden row.
-/

namespace RowVault

variable {T : Type}

/-! ## Counting victims -/

/-- Filings that are told apart in the same way are noted equally often. -/
theorem Doomed.length_noted_congr {K : Type} (κ μ : Victim T → K) {hits others : List (Hit T)}
    (hκ : ∀ h ∈ hits, ∀ g ∈ hits, κ h.victim = κ g.victim ↔ h.victim.same g.victim = true)
    (hμ : ∀ h ∈ others, ∀ g ∈ others, μ h.victim = μ g.victim ↔ h.victim.same g.victim = true)
    (h : hits.map (fun h ↦ κ h.victim) = others.map fun h ↦ μ h.victim) :
    (noted hits).1.length = (noted others).1.length := by
  obtain ⟨hnodup, hmem⟩ := keys_noted κ hκ
  obtain ⟨hnodup', hmem'⟩ := keys_noted μ hμ
  have hperm : ((noted hits).1.map κ).Perm ((noted others).1.map μ) := by
    rw [List.perm_ext_iff_of_nodup hnodup hnodup']
    intro k
    rw [hmem, hmem', h]
  have hlength := hperm.length_eq
  rwa [List.length_map, List.length_map] at hlength

namespace Store

/-- What a hit of a query shows. -/
def shown (s : Store T) (h : Hit T) : Bytes × Exposed T :=
  (h.index, (s.rowsOf h.index).expose h.row)

/-- The rows of an index that a caller does not see. -/
def hidden (s : Store T) (labels : Labels) (index : Bytes) : List (StoredRow T) :=
  (s.rowsOf index).all.filter fun r ↦ !r.isVisible labels

/-- Stores that agree in their configuration, in their indices and in what visible rows show. -/
structure Alike (labels : Labels) (s t : Store T) : Prop where
  config : s.config = t.config
  indices : s.indices = t.indices
  exposed : ∀ index, (s.rowsOf index).exposed labels = (t.rowsOf index).exposed labels

section

variable {s t : Store T} {labels : Labels}

/-! ## Reads -/

/-- The scans of an index meet visible rows that show the same. -/
theorem Alike.exposed_start (h : Alike labels s t) (hs : s.WF) (ht : t.WF) (q : Query) (i : Index) :
    (((IndexScan.start s q i).ahead).filter (·.isVisible labels)).map (s.rowsOf i.id).expose =
      (((IndexScan.start t q i).ahead).filter (·.isVisible labels)).map (t.rowsOf i.id).expose := by
  by_cases hq : q.supports i = true
  · have hahead : ∀ x : Store T, (IndexScan.start x q i).ahead = x.rowsFor q i := by
      intro x
      rw [IndexScan.start, if_pos hq]
    rw [hahead, hahead, rowsFor, rowsFor, h.config]
    cases q.windows? t.config i with
    | none => exact h.exposed i.id
    | some windows =>
      dsimp only
      rw [(hs.rows i.id).map_expose_withinEach, (ht.rows i.id).map_expose_withinEach, h.exposed]
  · have hahead : ∀ x : Store T, (IndexScan.start x q i).ahead = [] := by
      intro x
      rw [IndexScan.start, if_neg hq]
    rw [hahead, hahead]
    rfl

/-- The hits of scans over the same indices show the same. -/
theorem Alike.shown_siftEach (h : Alike labels s t) (hs : s.WF) (ht : t.WF) (q : Query)
    (client : List Filter) (indices : List Index) :
    (siftEach labels client (indices.map (IndexScan.start s q))).map s.shown =
      (siftEach labels client (indices.map (IndexScan.start t q))).map t.shown := by
  induction indices generalizing client with
  | nil => rfl
  | cons i rest ih =>
    have hindex : ∀ x : Store T, (IndexScan.start x q i).index = i := by
      intro x
      rw [IndexScan.start]
      split <;> rfl
    have hfilters : (IndexScan.start s q i).filters = (IndexScan.start t q i).filters := by
      rw [IndexScan.start, IndexScan.start]
      split <;> rfl
    have hdecoded : ∀ r p : StoredRow T,
        (s.rowsOf i.id).expose r = (t.rowsOf i.id).expose p →
          r.decoded i.model = p.decoded i.model := by
      intro r p he
      have hrow : r.row = p.row := congrArg Exposed.row he
      have hvalues : r.filing.info.fields.map (·.value) = p.filing.info.fields.map (·.value) :=
        congrArg Exposed.values he
      rw [StoredRow.decoded, StoredRow.decoded, hrow,
        DecodedRow.ofRow_congr i.model p.row.id hvalues]
    obtain ⟨hrows, hclient⟩ := sift_congr hdecoded client (IndexScan.start t q i).filters
      (h.exposed_start hs ht q i)
    have hshown : ∀ (x : Store T) (rows : List (StoredRow T)),
        (rows.map fun r ↦ (⟨i.id, r⟩ : Hit T)).map x.shown =
          (rows.map (x.rowsOf i.id).expose).map fun y ↦ (i.id, y) := by
      intro x rows
      rw [List.map_map, List.map_map]
      rfl
    rw [List.map_cons, List.map_cons, siftEach, siftEach, List.map_append, List.map_append, hindex,
      hindex, hfilters, hshown, hshown, hrows, hclient, ih]

/-- The hits of a query show the same. -/
theorem Alike.shown_query (h : Alike labels s t) (hs : s.WF) (ht : t.WF) (q : Query)
    (o : QueryOptions) (take : Option Nat) (ho : o.labels = labels) :
    (s.query q o take).value.map s.shown = (t.query q o take).value.map t.shown := by
  have hcut : ∀ (limit : Option Nat) (hits : List (Hit T)) (f : Hit T → Bytes × Exposed T),
      (cut limit hits).map f = cut limit (hits.map f) := by
    intro limit hits f
    cases limit with
    | none => rfl
    | some n => exact List.map_take
  have htargeted : s.targeted o.index = t.targeted o.index := by
    simp only [targeted, targets, h.indices]
  rw [value_query, value_query, hcut, hcut, hcut, hcut, h.config, listing, listing, ho, htargeted,
    h.shown_siftEach hs ht]

private theorem WF.getByRowId_of_exposed (hs : s.WF) (ht : t.WF) {index raw : Bytes} {e : T}
    (h : (s.rowsOf index).exposed labels = (t.rowsOf index).exposed labels)
    (hg : (s.getByRowId index raw labels).value = some e) :
    (t.getByRowId index raw labels).value = some e := by
  rw [Store.value_getByRowId, Option.map_eq_some_iff] at hg
  obtain ⟨r, hr, hentry⟩ := hg
  obtain ⟨hr, hshows⟩ := Option.filter_eq_some_iff.mp hr
  obtain ⟨place, hplace, hr⟩ := Option.bind_eq_some_iff.mp hr
  obtain ⟨hraw, hv⟩ := Bool.and_eq_true_iff.mp hshows
  have hm : (s.rowsOf index).expose r ∈ (s.rowsOf index).exposed labels :=
    List.mem_map_of_mem (List.mem_filter.mpr ⟨RowSet.mem_all_iff.mpr ⟨place, hr⟩, hv⟩)
  -- A row of the other store shows the same, so it is at the same place.
  rw [h] at hm
  obtain ⟨p, hp, hexpose⟩ := List.mem_map.mp hm
  obtain ⟨hp, hpv⟩ := List.mem_filter.mp hp
  obtain ⟨other, hother⟩ := RowSet.mem_all_iff.mp hp
  have hrow : p.row = r.row := congrArg Exposed.row hexpose
  have hpentry : p.filing.entry = r.filing.entry := congrArg Exposed.entry hexpose
  have hsame : other = place := by
    rw [← (ht.rows index).place_eq hother, ← (hs.rows index).place_eq hr, StoredRow.place,
      StoredRow.place, hrow]
  rw [hsame] at hother
  have hshows' : StoredRow.shows labels (fun r ↦ decide (r.row.raw = raw)) p = true := by
    rw [StoredRow.shows, hrow, hpv, Bool.and_true]
    exact hraw
  rw [Store.value_getByRowId, hplace, Option.bind_some, hother, Option.filter_some, if_pos hshows',
    Option.map_some, hpentry, hentry]

/-- Lookups by row id give the same. -/
theorem Alike.value_getByRowId (h : Alike labels s t) (hs : s.WF) (ht : t.WF) (index raw : Bytes) :
    (s.getByRowId index raw labels).value = (t.getByRowId index raw labels).value := by
  apply Option.ext
  intro e
  constructor
  · exact hs.getByRowId_of_exposed ht (h.exposed index)
  · exact ht.getByRowId_of_exposed hs (h.exposed index).symm

/-- Lookups by data id give the same. -/
theorem Alike.value_getEntry (h : Alike labels s t) (index data adapter : Bytes) :
    (s.getEntry index data adapter labels).value =
      (t.getEntry index data adapter labels).value := by
  have hread : ∀ x : Store T, (x.getEntry index data adapter labels).value =
      (((x.rowsOf index).exposed labels).filter fun y ↦
        y.row.id.data == data && y.row.id.adapter == adapter).head?.map (·.entry) := by
    intro x
    rw [Store.value_getEntry, RowSet.exposed, ← RowSet.map_expose_filter_shows _
      (·.belongsTo data adapter) fun _ _ ↦ rfl, List.head?_map, Option.map_map]
    rfl
  rw [hread, hread, h.exposed]

/-- Lookups by the beginning of row ids give the same. -/
theorem Alike.value_entriesBeginning (h : Alike labels s t) (hs : s.WF) (ht : t.WF)
    (index start : Bytes) (take : Option Nat) :
    (s.entriesBeginning index start labels take).value =
      (t.entriesBeginning index start labels take).value := by
  have hread : ∀ x : Store T, x.WF → (x.entriesBeginning index start labels take).value =
      (cut take (((Window.ofRowIdStart start).flatMap fun w ↦
        ((x.rowsOf index).exposed labels).filter fun y ↦
          RowSet.lies (RowSet.interval w).1 (RowSet.interval w).2 y.row.place).filter fun y ↦
            start.isPrefixOf y.row.raw)).map (·.entry) := by
    intro x hx
    rw [Store.value_entriesBeginning, ← (hx.rows index).map_expose_withinEach,
      ← RowSet.map_expose_filter_shows _ (start.isPrefixOf ·.row.raw) fun _ _ ↦ rfl]
    cases take with
    | none =>
      rw [cut, cut, List.map_map]
      rfl
    | some n =>
      rw [cut, cut, ← List.map_take, List.map_map]
      rfl
  rw [hread s hs, hread t ht, h.exposed]

/-! ## Deletions -/

/-- A hit tells by what it shows whether its filing owns a row. -/
theorem WF.owns_eq (hs : s.WF) {q : Query} {o : QueryOptions} {h : Hit T}
    (hm : h ∈ (s.query q o).value) {index : Bytes} {r : StoredRow T} :
    h.victim.owns index r =
      ((s.shown h).1 == index &&
        (s.shown h).2.together == ((s.rowsOf index).expose r).together) := by
  obtain ⟨i, -, hi, hr, -⟩ := of_mem_query hm
  rw [← hi] at hr
  have hinj := (hs.rows h.index).filedAs_inj hr r
  by_cases hindex : h.index = index
  · subst hindex
    rw [Bool.eq_iff_iff]
    simp only [Victim.owns, Hit.victim, shown, RowSet.expose, beq_self_eq_true, Bool.true_and,
      beq_iff_eq]
    exact hinj.symm
  · have hne : (h.index == index) = false := beq_false_of_ne hindex
    simp only [Victim.owns, Hit.victim, shown, hne, Bool.false_and]

/-- Whether a visible row outlives the removal of hits, by what it and the hits show. -/
def outlives (hits : List (Bytes × Exposed T)) (index : Bytes) (x : Exposed T) : Bool :=
  !hits.any fun y ↦ y.1 == index && y.2.together == x.together

/-- A deletion by query keeps the visible rows that outlive it. -/
theorem WF.exposed_delete (hs : s.WF) (q : Query) (o : QueryOptions) (index : Bytes) :
    ((s.delete q o).value.store.rowsOf index).exposed labels =
      ((s.rowsOf index).exposed labels).filter
        (outlives ((s.query q o).value.map s.shown) index) := by
  rw [s.rowsOf_delete hs.rows]
  apply RowSet.exposed_only
  · exact RowSet.respects_spares _ _ Hit.victim index
  · intro r hr hv
    rw [outlives, List.any_map]
    congr 1
    rw [Bool.eq_iff_iff, List.any_eq_true, List.any_eq_true]
    constructor
    · rintro ⟨h, hm, hy⟩
      exact ⟨h, hm, (hs.owns_eq hm).trans hy⟩
    · rintro ⟨h, hm, hy⟩
      exact ⟨h, hm, (hs.owns_eq hm).symm.trans hy⟩

/-- A deletion by query removes no hidden row. -/
theorem WF.hidden_delete (hs : s.WF) (q : Query) (o : QueryOptions) (index : Bytes) :
    (s.delete q o).value.store.hidden o.labels index = s.hidden o.labels index := by
  rw [hidden, hidden, s.rowsOf_delete hs.rows, RowSet.all_only, List.filter_filter]
  apply List.filter_congr
  intro r hr
  cases hv : r.isVisible o.labels with
  | true => rfl
  | false =>
    rw [Bool.not_false, Bool.true_and, Bool.not_eq_true', List.any_eq_false]
    intro h hm ho
    rw [hs.isVisible_of_owns hm hr ho] at hv
    cases hv

/-- Deletions by query count the same number of entries. -/
theorem Alike.entries_delete (h : Alike labels s t) (hs : s.WF) (ht : t.WF) (q : Query)
    (o : QueryOptions) (ho : o.labels = labels) :
    (s.delete q o).value.entries = (t.delete q o).value.entries := by
  obtain ⟨_, _, hv, -⟩ := s.value_delete hs.rows q o
  obtain ⟨_, _, hv', -⟩ := t.value_delete ht.rows q o
  rw [hv, hv']
  have hkey : ∀ x : Store T, x.WF → ∀ g ∈ (x.query q o).value, ∀ g' ∈ (x.query q o).value,
      (g.victim.index, (x.rowsOf g.victim.index).filedAs g.victim.filing.number) =
          (g'.victim.index, (x.rowsOf g'.victim.index).filedAs g'.victim.filing.number) ↔
        g.victim.same g'.victim = true := by
    intro x hx g hg g' hg'
    have howns : g.victim.same g'.victim = g.victim.owns g'.index g'.row := rfl
    rw [howns, hx.owns_eq hg]
    simp only [shown, RowSet.expose, Hit.victim, Prod.mk.injEq, Bool.and_eq_true, beq_iff_eq]
  refine Doomed.length_noted_congr
    (fun v ↦ (v.index, (s.rowsOf v.index).filedAs v.filing.number))
    (fun v ↦ (v.index, (t.rowsOf v.index).filedAs v.filing.number)) (hkey s hs) (hkey t ht) ?_
  have hshown := congrArg (List.map fun y : Bytes × Exposed T ↦ (y.1, y.2.together))
    (h.shown_query hs ht q o none ho)
  rw [List.map_map, List.map_map] at hshown
  exact hshown

/-- Stores are still alike after a deletion by query. -/
theorem Alike.delete (h : Alike labels s t) (hs : s.WF) (ht : t.WF) (q : Query) (o : QueryOptions)
    (ho : o.labels = labels) :
    Alike labels (s.delete q o).value.store (t.delete q o).value.store := by
  have hf := s.sameFrame_delete hs.rows q o
  have hf' := t.sameFrame_delete ht.rows q o
  constructor
  · rw [hf.config, hf'.config, h.config]
  · rw [hf.indices, hf'.indices, h.indices]
  · intro index
    rw [hs.exposed_delete, ht.exposed_delete, h.exposed, h.shown_query hs ht q o none ho]

/-- A deletion of an entry keeps the visible rows of other entries. -/
theorem WF.exposed_deleteEntry (hs : s.WF) (index data adapter i : Bytes) :
    ((s.deleteEntry index data adapter labels).value.2.rowsOf i).exposed labels =
      ((s.rowsOf i).exposed labels).filter fun x ↦
        !(index == i && (x.row.id.data == data && x.row.id.adapter == adapter)) := by
  rw [s.rowsOf_deleteEntry (hs.rows index)]
  apply RowSet.exposed_only
  · exact (hs.rows i).respects_spares (index == i) data adapter labels
  · intro r hr hv
    rw [exposes, StoredRow.shows, hv, Bool.and_true]
    rfl

/-- A deletion of an entry removes no hidden row. -/
theorem WF.hidden_deleteEntry (hs : s.WF) (index data adapter i : Bytes) :
    (s.deleteEntry index data adapter labels).value.2.hidden labels i = s.hidden labels i := by
  rw [hidden, hidden, s.rowsOf_deleteEntry (hs.rows index), RowSet.all_only, List.filter_filter]
  apply List.filter_congr
  intro r hr
  cases hv : r.isVisible labels with
  | true => rfl
  | false => simp [exposes, StoredRow.shows, hv]

/-- Deletions of an entry return the same. -/
theorem Alike.fst_deleteEntry (h : Alike labels s t) (hs : s.WF) (ht : t.WF)
    (index data adapter : Bytes) :
    (s.deleteEntry index data adapter labels).value.1 =
      (t.deleteEntry index data adapter labels).value.1 := by
  have hread : ∀ x : Store T, x.WF → (x.deleteEntry index data adapter labels).value.1 =
      ((x.rowsOf index).exposed labels).any fun y ↦
        y.row.id.data == data && y.row.id.adapter == adapter := by
    intro x hx
    obtain ⟨_, _, hv, -⟩ := x.value_deleteEntry (hx.rows index) data adapter labels
    rw [hv, RowSet.exposed, List.any_map, List.any_filter]
    dsimp only
    congr 1
    funext r
    rw [exposes, StoredRow.shows, Bool.and_comm]
    rfl
  rw [hread s hs, hread t ht, h.exposed]

/-- Stores are still alike after a deletion of an entry. -/
theorem Alike.deleteEntry (h : Alike labels s t) (hs : s.WF) (ht : t.WF)
    (index data adapter : Bytes) :
    Alike labels (s.deleteEntry index data adapter labels).value.2
      (t.deleteEntry index data adapter labels).value.2 := by
  have hf := s.sameFrame_deleteEntry (hs.rows index) data adapter labels
  have hf' := t.sameFrame_deleteEntry (ht.rows index) data adapter labels
  constructor
  · rw [hf.config, hf'.config, h.config]
  · rw [hf.indices, hf'.indices, h.indices]
  · intro i
    rw [hs.exposed_deleteEntry, ht.exposed_deleteEntry, h.exposed]

/-! ## Both together -/

/-- A caller who sees the same rows in two reachable stores is given the same answers by both, and
takes the same visible rows and no hidden ones from both. -/
theorem hidden_rows_do_not_interfere (hs : s.Reachable) (ht : t.Reachable) (h : Alike labels s t) :
    (∀ q o take, o.labels = labels →
      (s.query q o take).value.map s.shown = (t.query q o take).value.map t.shown) ∧
    (∀ index raw, (s.getByRowId index raw labels).value = (t.getByRowId index raw labels).value) ∧
    (∀ index data adapter,
      (s.getEntry index data adapter labels).value =
        (t.getEntry index data adapter labels).value) ∧
    (∀ index start take,
      (s.entriesBeginning index start labels take).value =
        (t.entriesBeginning index start labels take).value) ∧
    (∀ q o, o.labels = labels →
      (s.delete q o).value.entries = (t.delete q o).value.entries ∧
      Alike labels (s.delete q o).value.store (t.delete q o).value.store ∧
      ∀ index, (s.delete q o).value.store.hidden labels index = s.hidden labels index ∧
        (t.delete q o).value.store.hidden labels index = t.hidden labels index) ∧
    (∀ index data adapter,
      (s.deleteEntry index data adapter labels).value.1 =
        (t.deleteEntry index data adapter labels).value.1 ∧
      Alike labels (s.deleteEntry index data adapter labels).value.2
        (t.deleteEntry index data adapter labels).value.2 ∧
      ∀ i, (s.deleteEntry index data adapter labels).value.2.hidden labels i = s.hidden labels i ∧
        (t.deleteEntry index data adapter labels).value.2.hidden labels i = t.hidden labels i) := by
  have hs := hs.wf
  have ht := ht.wf
  refine ⟨?_, ?_, ?_, ?_, ?_, ?_⟩
  · intro q o take ho
    exact h.shown_query hs ht q o take ho
  · intro index raw
    exact h.value_getByRowId hs ht index raw
  · intro index data adapter
    exact h.value_getEntry index data adapter
  · intro index start take
    exact h.value_entriesBeginning hs ht index start take
  · rintro q o rfl
    refine ⟨h.entries_delete hs ht q o rfl, h.delete hs ht q o rfl, ?_⟩
    intro index
    exact ⟨hs.hidden_delete q o index, ht.hidden_delete q o index⟩
  · intro index data adapter
    refine ⟨h.fst_deleteEntry hs ht index data adapter, h.deleteEntry hs ht index data adapter, ?_⟩
    intro i
    exact ⟨hs.hidden_deleteEntry index data adapter i, ht.hidden_deleteEntry index data adapter i⟩

end

private def plainEntry (data : Bytes) : Scripted.Entry :=
  { id := data, fields := [⟨[0x66], .bool true⟩] }

private def plainIndex : Index := ⟨⟨[0x73], fun _ ↦ [[0x07]], fun _ _ ↦ []⟩, ⟨[0x6D], []⟩⟩

private def plainCall (formula : Bytes) (ids : List Bytes) : Call Scripted.Entry :=
  .ingest (Scripted.AdapterPlan.adapter { id := [0x61], codecs := [{ field := [0x66] }] })
    plainIndex (.uniform formula) (ids.map plainEntry) fun _ ↦ none

private def hiddenBefore : Store Scripted.Entry :=
  (fresh {} {}).after [plainCall [0x78] [[0x01]], plainCall [] [[0x02]]]

private def hiddenBehind : Store Scripted.Entry :=
  (fresh {} {}).after [plainCall [] [[0x02]], plainCall [0x78] [[0x03], [0x04]]]

private theorem hidden_alike : Alike ∅ hiddenBefore hiddenBehind where
  config := rfl
  indices := rfl
  exposed index := by
    by_cases hi : plainIndex.id = index
    · subst hi
      decide +kernel
    · have hrows : ∀ (s : Store Scripted.Entry) formula ids,
          (s.perform (plainCall formula ids)).2.rowsOf index = s.rowsOf index := by
        intro s formula ids
        exact (rowsOf_ingest s _ _ _ _ _ index).trans (if_neg hi)
      rw [hiddenBefore, hiddenBehind, after_cons, after_cons, after_cons, after_cons, after_nil,
        after_nil, hrows, hrows, hrows, hrows]

/-- A hidden row before the only visible one, or two hidden rows behind it, do not show. -/
theorem hidden_rows_do_not_interfere_around :
    (hiddenBefore.query .everything { limit := some 1 }).value.map hiddenBefore.shown =
        (hiddenBehind.query .everything { limit := some 1 }).value.map hiddenBehind.shown ∧
      (hiddenBefore.delete .everything {}).value.entries =
        (hiddenBehind.delete .everything {}).value.entries ∧
      (hiddenBehind.delete .everything {}).value.store.hidden ∅ plainIndex.id =
        hiddenBehind.hidden ∅ plainIndex.id ∧
      (hiddenBehind.hidden ∅ plainIndex.id).length = 2 := by
  obtain ⟨hquery, -, -, -, hdelete, -⟩ :=
    hidden_rows_do_not_interfere ⟨_, _, _, rfl⟩ ⟨_, _, _, rfl⟩ hidden_alike
  obtain ⟨hentries, -, hhidden⟩ := hdelete .everything {} rfl
  exact ⟨hquery _ _ none rfl, hentries, (hhidden plainIndex.id).2, by decide +kernel⟩

end Store

end RowVault
