import RowVault.Proofs.OrderedMap
import RowVault.Proofs.Store.Invariant
import RowVault.Proofs.Store.RowWindows
import RowVault.Scripted.Entry
import RowVault.Scripted.Query

/-!
# What a query selects

The selection of a query is written down without scans, windows and counters: of each index that is
looked in and supported, the visible rows in the ranges of the query, passed one after the other
through a single chain of filters, and in the end the beginning of all that up to the limit. Every
reachable store yields just the selection, in the order of index identifiers and of places.
-/

namespace RowVault

variable {T : Type}

/-! ## The selection -/

/-- Whether a key is in one of the ranges. Without ranges, every key is wanted. -/
def KeyRange.wanted (ranges : List KeyRange) (key : Bytes) : Bool :=
  ranges.isEmpty || ranges.any (·.covers key)

/-- The ranges that the strategy of an index gives for the constraints of a query; none, if ranges
are not scanned or the query has no constraints. -/
def Query.rangesOn (q : Query) (config : Config) (index : Index) : List KeyRange :=
  if config.rangeScan then
    match q.constraints index.strategy with
    | some constraints => index.strategy.queryRanges constraints config.maxQueryRanges
    | none => []
  else []

/-- The filter of the wanted adapters, if there are any. -/
def QueryOptions.scope (o : QueryOptions) : List Filter :=
  match o.adapters with
  | [] => []
  | ids => [.adapters ids]

/-- Ask a chain of filters about rows, one after the other: the rows that are accepted, and the
filters afterwards. -/
def Filter.choose (model : IndexModel) :
    List Filter → List (StoredRow T) → List (StoredRow T) × List Filter
  | chain, [] => ([], chain)
  | chain, r :: rest =>
    let asked := (askEvery (r.decoded model) chain).value
    let chosen := choose model asked.2 rest
    (if asked.1 then r :: chosen.1 else chosen.1, chosen.2)

/-- Hits up to a limit, or else up to a default one. A limit of zero is none. -/
def limited {α : Type} (limit default : Option Nat) (xs : List α) : List α :=
  match limit.getD (default.getD 0) with
  | 0 => xs
  | n + 1 => xs.take (n + 1)

/-- A hit is before another one by the identifier of its index, or by its place in the same
index. -/
def Hit.Precedes (h k : Hit T) : Prop :=
  compare h.index k.index = .lt ∨ h.index = k.index ∧ compare h.row.place k.row.place = .lt

namespace Store

/-- The registered index of a name, or all registered indices by identifier. -/
def named (s : Store T) : Option Bytes → List Index
  | some id => s.indices[id]?.toList
  | none => s.indices.toList.map (·.2)

/-- The rows of an index that a query asks its filters about. -/
def candidates (s : Store T) (q : Query) (labels : Labels) (index : Index) : List (StoredRow T) :=
  (s.rowsOf index.id).all.filter fun r ↦
    KeyRange.wanted (q.rangesOn s.config index) r.row.id.key && r.isVisible labels

/-- The accepted rows of indices, one index after the other. The filters of the call stay as they
are left by the index before; those of the query are new in each index. -/
def accepted (s : Store T) (q : Query) (labels : Labels) :
    List Filter → List Index → List (Hit T)
  | _, [] => []
  | client, index :: rest =>
    let chosen := Filter.choose index.model (client ++ q.filters index.model)
      (s.candidates q labels index)
    chosen.1.map (⟨index.id, ·⟩) ++ s.accepted q labels (chosen.2.take client.length) rest

/-- What a query selects. -/
def selection (s : Store T) (q : Query) (o : QueryOptions) : List (Hit T) :=
  limited o.limit s.config.defaultLimit
    (s.accepted q o.labels (o.scope ++ o.filters) ((s.named o.index).filter q.supports))

end Store

/-! ## One chain of filters -/

namespace Filter

/-- The filters behind the first one are asked only if that one accepts. -/
theorem askEvery_cons (row : DecodedRow) (f : Filter) (rest : List Filter) :
    (askEvery row (f :: rest)).value =
      if (ask row f).value.1 then
        ((askEvery row rest).value.1, (ask row f).value.2 :: (askEvery row rest).value.2)
      else (false, (ask row f).value.2 :: rest) := by
  rw [askEvery, Traced.value_bind]
  dsimp only
  split <;> rfl

/-- Filters stay as many as they are. -/
theorem length_askEvery (row : DecodedRow) (filters : List Filter) :
    (askEvery row filters).value.2.length = filters.length := by
  induction filters with
  | nil => rfl
  | cons f rest ih =>
    rw [askEvery_cons]
    split
    · exact congrArg (· + 1) ih
    · rfl

/-- A chain of filters is asked from its beginning up to the first filter that refuses. -/
theorem askEvery_append (row : DecodedRow) (filters more : List Filter) :
    (askEvery row (filters ++ more)).value =
      if (askEvery row filters).value.1 then
        ((askEvery row more).value.1,
          (askEvery row filters).value.2 ++ (askEvery row more).value.2)
      else (false, (askEvery row filters).value.2 ++ more) := by
  induction filters with
  | nil => simp [askEvery]
  | cons f rest ih =>
    rw [List.cons_append, askEvery_cons, askEvery_cons, ih]
    cases (ask row f).value.1 with
    | false => rfl
    | true => cases (askEvery row rest).value.1 <;> rfl

/-- What a chain of filters chooses of rows is some of them, in their order. -/
theorem sublist_choose (model : IndexModel) (chain : List Filter) (rows : List (StoredRow T)) :
    (choose model chain rows).1.Sublist rows := by
  induction rows generalizing chain with
  | nil => exact List.Sublist.slnil
  | cons r rest ih =>
    rw [choose]
    split
    · exact (ih _).cons_cons r
    · exact (ih _).cons r

end Filter

/-- Sifting rows is choosing from the visible ones by the filters of the call and, behind them in
one chain, those of the index. -/
theorem choose_eq_sift (model : IndexModel) (labels : Labels) (client own : List Filter)
    (rows : List (StoredRow T)) :
    ∃ own', Filter.choose model (client ++ own) (rows.filter (·.isVisible labels)) =
        ((sift model labels client own rows).1, (sift model labels client own rows).2 ++ own') ∧
      (sift model labels client own rows).2.length = client.length := by
  induction rows generalizing client own with
  | nil => exact ⟨own, rfl, rfl⟩
  | cons r rest ih =>
    have hlength := Filter.length_askEvery (r.decoded model) client
    rcases sift_cases model labels client own r with
      hv | ⟨hv, client', ha⟩ | ⟨hv, client', own', ha, ho⟩ | ⟨hv, client', own', ha, ho⟩
    · rw [sift_cons_hidden hv, List.filter_cons_of_neg (by simp [hv])]
      exact ih client own
    · obtain ⟨own'', hchoose, hclient⟩ := ih client' own
      rw [ha] at hlength
      rw [sift_cons_refused hv ha, List.filter_cons_of_pos hv, Filter.choose,
        Filter.askEvery_append, ha]
      exact ⟨own'', hchoose, hclient.trans hlength⟩
    · obtain ⟨own'', hchoose, hclient⟩ := ih client' own'
      rw [ha] at hlength
      rw [sift_cons_passed hv ha ho, List.filter_cons_of_pos hv, Filter.choose,
        Filter.askEvery_append, ha, ho]
      exact ⟨own'', hchoose, hclient.trans hlength⟩
    · obtain ⟨own'', hchoose, hclient⟩ := ih client' own'
      rw [ha] at hlength
      rw [sift_cons_kept hv ha ho, List.filter_cons_of_pos hv, Filter.choose,
        Filter.askEvery_append, ha, ho]
      refine ⟨own'', ?_, hclient.trans hlength⟩
      simp only [if_true, hchoose]

/-! ## From scans to the selection -/

/-- The filters of a call are the scope and then the filters of the caller. -/
theorem QueryOptions.clientFilters_eq (o : QueryOptions) :
    o.clientFilters = o.scope ++ o.filters := by
  rw [clientFilters, scope]
  cases o.adapters <;> rfl

/-- The beginning up to the effective limit. -/
theorem QueryOptions.cut_effectiveLimit {α : Type} (o : QueryOptions) (default : Option Nat)
    (xs : List α) : cut (o.effectiveLimit default) xs = limited o.limit default xs := by
  rw [effectiveLimit, limited]
  cases o.limit with
  | some n => cases n <;> rfl
  | none =>
    cases default with
    | none => rfl
    | some n => cases n <;> rfl

namespace Store

variable {s : Store T} {q : Query} {o : QueryOptions}

/-- A call looks in the indices that it names. -/
theorem targeted_eq (s : Store T) (index : Option Bytes) : s.targeted index = s.named index := by
  cases index with
  | none => exact OrderedMap.values_eq s.indices
  | some id =>
    rw [targeted, targets, named, Indices.find]
    cases s.indices[id]? <;> rfl

/-- An index that a call looks in is registered under its identifier. -/
theorem WF.getElem?_of_mem_named (h : s.WF) {index : Option Bytes} {i : Index}
    (hi : i ∈ s.named index) : s.indices[i.id]? = some i := by
  cases index with
  | some id =>
    have hi : s.indices[id]? = some i := Option.mem_toList.mp hi
    rw [h.index_id hi, hi]
  | none =>
    obtain ⟨⟨id, _⟩, hm, rfl⟩ := List.mem_map.mp hi
    have hi := Std.ExtTreeMap.mem_toList_iff_getElem?_eq_some.mp hm
    rw [h.index_id hi, hi]

/-- The scan of an index meets the rows in the ranges of the query. -/
theorem rowsFor_eq {index : Index} (h : (s.rowsOf index.id).WF) (q : Query) :
    s.rowsFor q index = (s.rowsOf index.id).all.filter fun r ↦
      KeyRange.wanted (q.rangesOn s.config index) r.row.id.key := by
  have hall : (s.rowsOf index.id).all = (s.rowsOf index.id).all.filter fun r ↦
      KeyRange.wanted [] r.row.id.key := (List.filter_eq_self.mpr fun _ _ ↦ rfl).symm
  rw [rowsFor, Query.windows?, Query.rangesOn]
  cases s.config.rangeScan with
  | false => exact hall
  | true =>
    simp only [if_true]
    cases q.constraints index.strategy with
    | none => exact hall
    | some constraints =>
      dsimp only
      cases index.strategy.queryRanges constraints s.config.maxQueryRanges with
      | nil => exact hall
      | cons range ranges => exact h.placed.withinEach_coalesce (range :: ranges)

/-- The filters are asked about the visible ones of the rows that a scan meets. -/
theorem candidates_eq {index : Index} (h : (s.rowsOf index.id).WF) (q : Query) (labels : Labels) :
    s.candidates q labels index = (s.rowsFor q index).filter (·.isVisible labels) := by
  rw [candidates, rowsFor_eq h, List.filter_filter]
  exact List.filter_congr fun r _ ↦ Bool.and_comm _ _

/-- The scans of indices accept what is accepted of the supported ones. -/
theorem siftEach_start (h : s.WF) (labels : Labels) (client : List Filter) (indices : List Index) :
    siftEach labels client (indices.map (IndexScan.start s q)) =
      s.accepted q labels client (indices.filter q.supports) := by
  induction indices generalizing client with
  | nil => rfl
  | cons index rest ih =>
    cases hq : q.supports index with
    | false =>
      rw [List.map_cons, List.filter_cons_of_neg (by simp [hq]), IndexScan.start, hq, siftEach]
      exact ih client
    | true =>
      obtain ⟨own', hchoose, hlength⟩ := choose_eq_sift index.model labels client
        (q.filters index.model) (s.rowsFor q index)
      rw [List.map_cons, List.filter_cons_of_pos hq, IndexScan.start, hq, siftEach, accepted,
        candidates_eq (h.rows index.id), hchoose, ih]
      simp only [if_true, ← hlength, List.take_left]

/-- A query yields the beginning of its selection. -/
theorem WF.value_query (h : s.WF) (q : Query) (o : QueryOptions) (take : Option Nat) :
    (s.query q o take).value = cut take (s.selection q o) := by
  rw [Store.value_query, listing, o.cut_effectiveLimit, targeted_eq, siftEach_start h,
    o.clientFilters_eq, selection]

/-! ## The order of the selection -/

/-- The indices that are named have ascending identifiers. -/
theorem WF.pairwise_named (h : s.WF) (index : Option Bytes) :
    (s.named index).Pairwise fun i j ↦ compare i.id j.id = .lt := by
  cases index with
  | some id =>
    rw [named]
    cases s.indices[id]? with
    | none => exact List.Pairwise.nil
    | some i => exact List.pairwise_singleton _ _
  | none => exact OrderedMap.pairwise_values fun _ _ hi ↦ h.index_id hi

/-- An accepted row is of one of the indices. -/
theorem index_of_mem_accepted {labels : Labels} {client : List Filter} {indices : List Index}
    {hit : Hit T} (hm : hit ∈ s.accepted q labels client indices) :
    ∃ i ∈ indices, hit.index = i.id := by
  induction indices generalizing client with
  | nil => cases hm
  | cons i rest ih =>
    rcases List.mem_append.mp hm with hm | hm
    · obtain ⟨r, -, rfl⟩ := List.mem_map.mp hm
      exact ⟨i, by simp, rfl⟩
    · obtain ⟨j, hj, hindex⟩ := ih hm
      exact ⟨j, List.mem_cons_of_mem i hj, hindex⟩

/-- Accepted rows ascend by index and place, if the identifiers of the indices ascend. -/
theorem WF.pairwise_accepted (h : s.WF) (labels : Labels) (client : List Filter)
    {indices : List Index} (hi : indices.Pairwise fun i j ↦ compare i.id j.id = .lt) :
    (s.accepted q labels client indices).Pairwise Hit.Precedes := by
  induction indices generalizing client with
  | nil => exact List.Pairwise.nil
  | cons i rest ih =>
    obtain ⟨hbefore, hrest⟩ := List.pairwise_cons.mp hi
    rw [accepted, List.pairwise_append]
    refine ⟨?_, ih _ hrest, ?_⟩
    · have hsub := (Filter.sublist_choose i.model (client ++ q.filters i.model)
        (s.candidates q labels i)).trans List.filter_sublist
      rw [List.pairwise_map]
      exact ((h.rows i.id).placed.ascends.sublist hsub).imp fun hlt ↦ .inr ⟨rfl, hlt⟩
    · intro hit hm other ho
      obtain ⟨r, -, rfl⟩ := List.mem_map.mp hm
      obtain ⟨j, hj, hindex⟩ := index_of_mem_accepted ho
      exact .inl (hindex ▸ hbefore j hj)

/-- What is up to a limit is a beginning. -/
theorem sublist_limited {α : Type} (limit default : Option Nat) (xs : List α) :
    (limited limit default xs).Sublist xs := by
  rw [limited]
  split
  · exact List.Sublist.refl _
  · exact List.take_sublist _ _

/-- In every reachable store, a query yields its selection, or the beginning of it up to where the
caller stops; the rows that are yielded ascend by index and place, so that none comes twice; and
under a limit a query yields the beginning of what it yields without a limit, whatever its filters
remember. -/
theorem query_yields_selection {s : Store T} (h : s.Reachable) (q : Query) (o : QueryOptions) :
    (∀ take, (s.query q o take).value = cut take (s.selection q o)) ∧
      (s.query q o).value.Pairwise Hit.Precedes ∧
      ∀ n, 0 < n → (s.query q { o with limit := some n }).value =
        (s.query q { o with limit := some 0 }).value.take n := by
  refine ⟨h.wf.value_query q o, ?_, ?_⟩
  · rw [h.wf.value_query, cut, selection]
    have hindices := (h.wf.pairwise_named o.index).filter q.supports
    exact (h.wf.pairwise_accepted o.labels _ hindices).sublist (sublist_limited _ _ _)
  · intro n hn
    rw [h.wf.value_query, h.wf.value_query]
    cases n with
    | zero => exact absurd hn (Nat.lt_irrefl 0)
    | succ n => rfl

private def sparseIndex (id : UInt8) (ranges : List KeyRange) : Index :=
  let keys (common : Dataset) : List Bytes :=
    if common.get? [0x66] = some (.bool true) then [[0x01], [0x02, 0x03], [0x04]] else [[0x02]]
  ⟨⟨[id], keys, fun _ _ ↦ ranges⟩, ⟨[0x6D], [.ofCodec [0x66] {}]⟩⟩

private def sparseCall (index : Index) : Call Scripted.Entry :=
  .ingest (Scripted.AdapterPlan.adapter { id := [0x61] }) index Scripted.visibilityOfEntry
    [{ id := [0x64], fields := [⟨[0x66], .bool true⟩] },
      { id := [0x65], fields := [⟨[0x66], .bool false⟩] },
      { id := [0x67], fields := [⟨[0x66], .bool false⟩], visibility := [0x78] }] fun _ ↦ none

private def sparseKeys (hits : List (Hit Scripted.Entry)) : List (Bytes × Bytes) :=
  hits.map fun h ↦ (h.index, h.row.row.id.key)

/-- Ranges that overlap leave out the last row of the first index, and deduplication goes on in the
second index, so that only the entry of one row comes again there. -/
theorem query_yields_selection_deduplicated :
    let first := sparseIndex 0x73 [⟨[0x02], [0x02]⟩, ⟨[0x01], [0x02]⟩]
    let second := sparseIndex 0x74 []
    let s := (fresh {} {} : Store Scripted.Entry).after [sparseCall first, sparseCall second]
    let q := Scripted.query none [] (some [])
    let o : QueryOptions := { adapters := [[0x61]], filters := [.dedupe []] }
    sparseKeys (s.query q { o with limit := some 0 }).value =
        [(first.id, [0x01]), (first.id, [0x02]), (second.id, [0x02])] ∧
      sparseKeys (s.query q { o with limit := some 2 }).value =
        [(first.id, [0x01]), (first.id, [0x02])] := by
  intro first second s q o
  have hreachable : s.Reachable := ⟨{}, {}, _, rfl⟩
  have hall : sparseKeys (s.query q { o with limit := some 0 }).value =
      [(first.id, [0x01]), (first.id, [0x02]), (second.id, [0x02])] := by
    obtain ⟨hvalue, -⟩ := query_yields_selection hreachable q { o with limit := some 0 }
    rw [hvalue none]
    decide +kernel
  refine ⟨hall, ?_⟩
  obtain ⟨-, -, hlimit⟩ := query_yields_selection hreachable q o
  rw [hlimit 2 (by decide), sparseKeys, List.map_take, ← sparseKeys, hall]
  rfl

end Store

end RowVault
