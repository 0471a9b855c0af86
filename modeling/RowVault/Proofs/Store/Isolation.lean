import RowVault.Proofs.Query.Stateless
import RowVault.Proofs.Store.Registration

/-!
# Isolation of indices

An index is known to a store by its identifier only: calls that change one identifier change neither
the registration nor the rows of another one, and nothing that is looked up or queried there. The
identifier is made of two parts and a separator between them, which the parts may hold as well; so
two indices share an identifier, and all that is stored under it, where the parts of one can be read
as those of the other.
-/

namespace RowVault

variable {T : Type}

/-! ## Identifiers -/

namespace Index

/-- The identifiers of two indices read the same, split at different separators: the strategy of the
one goes on behind that of the other with what the model of the other begins with. -/
def Overlaps (i j : Index) : Prop :=
  ∃ middle, i.strategy.id = j.strategy.id ++ separator :: middle ∧
    j.model.id = middle ++ separator :: i.model.id

/-- Where the identifiers of two indices overlap, the longer strategy holds a separator, and so does
the longer model. -/
theorem Overlaps.separator_mem {i j : Index} (h : i.Overlaps j) :
    separator ∈ i.strategy.id ∧ separator ∈ j.model.id := by
  obtain ⟨middle, hstrategy, hmodel⟩ := h
  rw [hstrategy, hmodel]
  simp

/-- Overlapping identifiers are the same. -/
theorem Overlaps.id_eq {i j : Index} (h : i.Overlaps j) : i.id = j.id := by
  obtain ⟨middle, hstrategy, hmodel⟩ := h
  rw [id, id, hstrategy, hmodel, List.append_assoc, List.cons_append]

/-- Two indices have the same identifier just if their parts are the same or overlap. -/
theorem id_eq_iff (i j : Index) :
    i.id = j.id ↔ (i.strategy.id = j.strategy.id ∧ i.model.id = j.model.id) ∨
      i.Overlaps j ∨ j.Overlaps i := by
  constructor
  · intro h
    -- One strategy begins with the other; what it goes on with begins with the separator.
    rcases List.append_eq_append_iff.mp h with ⟨rest, hj, hi⟩ | ⟨rest, hi, hj⟩
    · cases rest with
      | nil =>
        rw [List.append_nil] at hj
        exact .inl ⟨hj.symm, (List.cons.inj hi).2⟩
      | cons b middle =>
        obtain ⟨rfl, hmodel⟩ := List.cons.inj hi
        exact .inr (.inr ⟨middle, hj, hmodel⟩)
    · cases rest with
      | nil =>
        rw [List.append_nil] at hi
        exact .inl ⟨hi, (List.cons.inj hj).2.symm⟩
      | cons b middle =>
        obtain ⟨rfl, hmodel⟩ := List.cons.inj hj
        exact .inr (.inl ⟨middle, hi, hmodel⟩)
  · rintro (⟨hstrategy, hmodel⟩ | h | h)
    · rw [id, id, hstrategy, hmodel]
    · exact h.id_eq
    · exact h.id_eq.symm

end Index

/-! ## What a store shows of an index -/

/-- The identifier that a call is directed at: that of the index to which it adds, or in which alone
it removes. -/
def Call.target? : Call T → Option Bytes
  | .register _ index => some index.id
  | .ingest _ index _ _ _ => some index.id
  | .delete _ options => options.index
  | .deleteEntry index _ _ _ => some index

namespace Store

/-- Two stores show the same under an identifier: registration, rows, lookups and queries of the
index, with all that is told and logged on the way, and the hits that queries of all indices have
there, if their filters do not remember rows of other indices and no limit counts these. -/
structure ShowsSame (s t : Store T) (id : Bytes) : Prop where
  registered : s.indices[id]? = t.indices[id]?
  rows : s.rowsOf id = t.rowsOf id
  rowCount : s.rowCount id = t.rowCount id
  getByRowId : ∀ raw labels, s.getByRowId id raw labels = t.getByRowId id raw labels
  getEntry : ∀ data adapter labels,
    s.getEntry id data adapter labels = t.getEntry id data adapter labels
  entriesBeginning : ∀ start labels take,
    s.entriesBeginning id start labels take = t.entriesBeginning id start labels take
  query : ∀ q (o : QueryOptions) take, o.index = some id → s.query q o take = t.query q o take
  hits : ∀ q (o : QueryOptions), o.index = none → q.Stateless o →
    o.effectiveLimit s.config.defaultLimit = none → ∀ hit : Hit T, hit.index = id →
      (hit ∈ (s.query q o).value ↔ hit ∈ (t.query q o).value)

section

variable {s t : Store T} {id : Bytes}

/-- A query of one index depends on its registration and rows only. -/
theorem query_congr (hs : s.WF) (hconfig : s.config = t.config)
    (hindices : s.indices[id]? = t.indices[id]?) (hrows : s.rowsOf id = t.rowsOf id) (q : Query)
    {o : QueryOptions} (take : Option Nat) (ho : o.index = some id) :
    s.query q o take = t.query q o take := by
  have hscan : s.scan q o = t.scan q o := by
    rw [scan, scan, ho, targets, targets, Indices.find, Indices.find, ← hindices, hconfig]
    cases hi : s.indices[id]? with
    | none => rfl
    | some i =>
      have hstart : IndexScan.start s q i = IndexScan.start t q i := by
        rw [IndexScan.start, IndexScan.start, rowsFor, rowsFor, hconfig, hs.index_id hi, hrows]
      simp only [pure_bind, List.map_cons, List.map_nil, hstart]
  rw [query, query, hscan]

/-- The hits that a query of all indices has in one of them depend on its registration and rows
only. -/
theorem mem_query_congr (hs : s.WF) (ht : t.WF) (hconfig : s.config = t.config)
    (hindices : s.indices[id]? = t.indices[id]?) (hrows : s.rowsOf id = t.rowsOf id) {q : Query}
    {o : QueryOptions} (ho : o.index = none) (hq : q.Stateless o)
    (hlimit : o.effectiveLimit s.config.defaultLimit = none) {hit : Hit T} (hid : hit.index = id) :
    hit ∈ (s.query q o).value ↔ hit ∈ (t.query q o).value := by
  have hmem : ∀ x : Store T, x.WF → o.effectiveLimit x.config.defaultLimit = none →
      (hit ∈ (x.query q o).value ↔ ∃ i, x.indices[id]? = some i ∧ q.supports i = true ∧
        hit.row ∈ (x.rowsFor q i).filter fun r ↦ r.isVisible o.labels && q.passes o i r) := by
    intro x hx hlimit
    rw [value_query_of_unlimited hlimit, listing_eq_flatMap x hq, targeted_eq, ho]
    constructor
    · intro hm
      obtain ⟨i, hi, hm⟩ := List.mem_flatMap.mp hm
      obtain ⟨hi, hsupports⟩ := List.mem_filter.mp hi
      obtain ⟨r, hr, rfl⟩ := List.mem_map.mp hm
      exact ⟨i, hid ▸ hx.getElem?_of_mem_named hi, hsupports, hr⟩
    · rintro ⟨i, hi, hsupports, hr⟩
      have hnamed : i ∈ x.named none :=
        List.mem_map.mpr ⟨(id, i), Std.ExtTreeMap.mem_toList_iff_getElem?_eq_some.mpr hi, rfl⟩
      refine List.mem_flatMap.mpr ⟨i, List.mem_filter.mpr ⟨hnamed, hsupports⟩, ?_⟩
      refine List.mem_map.mpr ⟨hit.row, hr, ?_⟩
      rw [hx.index_id hi, ← hid]
  rw [hmem s hs hlimit, hmem t ht (hconfig ▸ hlimit), ← hindices]
  refine exists_congr fun i ↦ and_congr_right fun hi ↦ ?_
  rw [rowsFor, rowsFor, hconfig, hs.index_id hi, hrows]

/-- Stores with the same configuration show the same under an identifier with the same registration
and rows. -/
theorem showsSame_of_rows (hs : s.WF) (ht : t.WF) (hconfig : s.config = t.config)
    (hindices : s.indices[id]? = t.indices[id]?) (hrows : s.rowsOf id = t.rowsOf id) :
    s.ShowsSame t id where
  registered := hindices
  rows := hrows
  rowCount := congrArg _ hrows
  getByRowId raw labels := by rw [getByRowId, getByRowId, hrows]
  getEntry data adapter labels := by rw [getEntry, getEntry, hrows]
  entriesBeginning start labels take := by
    rw [entriesBeginning, entriesBeginning, rowsBeginning, rowsBeginning, hrows]
  query q _ take ho := query_congr hs hconfig hindices hrows q take ho
  hits _ _ ho hq hlimit _ hid := mem_query_congr hs ht hconfig hindices hrows ho hq hlimit hid

/-! ## Calls -/

/-- No index is registered by a call that is directed at another identifier. -/
theorem WF.indices_perform_of_ne (h : s.WF) {c : Call T} {target : Bytes}
    (hc : c.target? = some target) (hne : target ≠ id) :
    (s.perform c).2.indices[id]? = s.indices[id]? := by
  have hpassed : passed id [c] = [] := by
    cases c with
    | register adapter index =>
      obtain rfl := Option.some.inj hc
      simp [passed, Call.index?, hne]
    | ingest adapter index visibility entries fault =>
      obtain rfl := Option.some.inj hc
      simp [passed, Call.index?, hne]
    | delete q o => rfl
    | deleteEntry index data adapter labels => rfl
  rw [h.getElem?_indices_perform, hpassed, List.head?_nil, Option.or_none]

/-- No row is added or removed by a call that is directed at another identifier. -/
theorem WF.rowsOf_perform_of_ne (h : s.WF) {c : Call T} {target : Bytes}
    (hc : c.target? = some target) (hne : target ≠ id) :
    (s.perform c).2.rowsOf id = s.rowsOf id := by
  cases c with
  | register adapter index => exact s.rowsOf_register adapter index id
  | ingest adapter index visibility entries fault =>
    obtain rfl := Option.some.inj hc
    exact (s.rowsOf_ingest adapter index visibility entries fault id).trans (if_neg hne)
  | delete q o =>
    refine (s.rowsOf_delete h.rows q o id).trans (RowSet.only_eq_self fun _ r _ ↦ ?_)
    -- Hits of a query that names an index are of that index.
    have hnone : (s.query q o).value.any (·.victim.owns id r) = false := by
      rw [List.any_eq_false]
      intro hit hm ho
      obtain ⟨i, hi, hindex, -⟩ := of_mem_query hm
      have hi : i ∈ s.named (some target) := by
        rwa [targeted_eq, show o.index = some target from hc] at hi
      have hid : i.id = target := h.index_id (Option.mem_toList.mp hi)
      have hit : hit.index = id := eq_of_beq (Bool.and_eq_true_iff.mp ho).1
      exact hne (hid.symm.trans (hindex.symm.trans hit))
    rw [hnone, Bool.not_false]
  | deleteEntry index data adapter labels =>
    obtain rfl := Option.some.inj hc
    refine (s.rowsOf_deleteEntry (h.rows index) data adapter labels id).trans
      (RowSet.only_eq_self fun _ r _ ↦ ?_)
    rw [beq_false_of_ne hne, Bool.false_and, Bool.not_false]

/-- Calls that are directed at other identifiers change nothing that a store shows under an
identifier. -/
theorem WF.showsSame_after (h : s.WF) {calls : List (Call T)}
    (hcalls : ∀ c ∈ calls, ∃ target, c.target? = some target ∧ target ≠ id) :
    s.ShowsSame (s.after calls) id := by
  have hkept : (s.after calls).indices[id]? = s.indices[id]? ∧
      (s.after calls).rowsOf id = s.rowsOf id := by
    induction calls generalizing s with
    | nil => exact ⟨rfl, rfl⟩
    | cons c rest ih =>
      obtain ⟨⟨target, hc, hne⟩, hrest⟩ := List.forall_mem_cons.mp hcalls
      obtain ⟨hindices, hrows⟩ := ih (h.perform c) hrest
      exact ⟨hindices.trans (h.indices_perform_of_ne hc hne),
        hrows.trans (h.rowsOf_perform_of_ne hc hne)⟩
  exact showsSame_of_rows h (h.after calls) (h.config_after calls).symm hkept.1.symm hkept.2.symm

end

/-- Two indices share an identifier just if their strategies and models have the same identifiers,
or if these overlap, for which one of the strategies and the model of the other index must hold the
separator. If they do not share it, calls that register the one, ingest into it or delete from it
change nothing that a reachable store shows of the other: not its registration, its rows, what is
looked up in it or what queries of it yield, tell and log. -/
theorem indices_isolated {s : Store T} (h : s.Reachable) (i j : Index) :
    (i.id = j.id ↔ (i.strategy.id = j.strategy.id ∧ i.model.id = j.model.id) ∨
        i.Overlaps j ∨ j.Overlaps i) ∧
      (i.Overlaps j → Index.separator ∈ i.strategy.id ∧ Index.separator ∈ j.model.id) ∧
      (i.id ≠ j.id → ∀ calls : List (Call T), (∀ c ∈ calls, c.target? = some i.id) →
        s.ShowsSame (s.after calls) j.id) :=
  ⟨i.id_eq_iff j, Index.Overlaps.separator_mem,
    fun hne _ hcalls ↦ h.wf.showsSame_after fun c hc ↦ ⟨i.id, hcalls c hc, hne⟩⟩

/-! ## Two indices under one identifier -/

private def partedIndex (strategy model : Bytes) (key : UInt8) : Index :=
  ⟨⟨strategy, fun _ ↦ [[key]], fun _ _ ↦ []⟩, ⟨model, []⟩⟩

private def partedAdapter : Adapter Scripted.Entry :=
  Scripted.AdapterPlan.adapter { id := [0x61] }

private def partedCall (i : Index) : Call Scripted.Entry :=
  .ingest partedAdapter i .unconstrained [{ id := [0x64] }] fun _ ↦ none

private def longerStrategy : Index := partedIndex [0x61, 0x5F, 0x62] [0x63] 1

private def longerModel : Index := partedIndex [0x61] [0x62, 0x5F, 0x63] 2

/-- Ingesting into one of two indices whose models differ leaves the row of the other one as it is,
and a query of it yields, tells and logs the same. -/
theorem indices_isolated_by_model :
    let i := partedIndex [0x61] [0x63] 1
    let s : Store Scripted.Entry := (fresh {} {}).after [partedCall longerModel]
    s.rowCount longerModel.id = 1 ∧
      (s.after [partedCall i]).rowCount longerModel.id = 1 ∧
      s.query .everything { index := some longerModel.id } =
        (s.after [partedCall i]).query .everything { index := some longerModel.id } := by
  intro i s
  have hne : i.id ≠ longerModel.id := by decide
  obtain ⟨-, -, hisolated⟩ := indices_isolated (s := s) ⟨_, _, _, rfl⟩ i longerModel
  have hsame := hisolated hne [partedCall i] fun c hc ↦ by rw [List.mem_singleton.mp hc]; rfl
  have hone : s.rowCount longerModel.id = 1 := by decide +kernel
  exact ⟨hone, hsame.rowCount ▸ hone, hsame.query .everything _ none rfl⟩

/-- Two indices with different strategies and models have the same identifier. One is registered;
ingesting into the other one does not register it, but stores the row among the rows of the first
one, and a query of the first one yields it. -/
theorem indices_share_rows :
    let i := longerStrategy
    let j := longerModel
    let s : Store Scripted.Entry := (fresh {} {}).after [.register partedAdapter i]
    let t := s.after [partedCall j]
    i.strategy.id ≠ j.strategy.id ∧ i.model.id ≠ j.model.id ∧ i.id = j.id ∧
      s.rowCount i.id = 0 ∧ t.rowCount i.id = 1 ∧ t.indices[j.id]? = some i ∧
      (t.query .everything { index := some i.id }).value.map (·.row.row.id.key) = [[2]] := by
  intro i j s t
  have hregistered : t.indices[j.id]? = some i :=
    ((wf_fresh {} {}).getElem?_indices_after _ _).trans rfl
  exact ⟨by decide, by decide, by decide, by decide +kernel, by decide +kernel, hregistered,
    by decide +kernel⟩

end Store

end RowVault
