import RowVault.Proofs.Store.RowSets
import RowVault.Store.Scan

/-!
# Queries as lists

A query is evaluated lazily, but what it yields is a list that can be written down at once: the rows
of each index, sifted by visibility and by the filters, up to the limit. Pulling rows one after the
other gives the beginning of this list.
-/

namespace RowVault

variable {T : Type}

/-- The beginning of a list up to a limit, if there is one. -/
def cut {α : Type} : Option Nat → List α → List α
  | none, xs => xs
  | some n, xs => xs.take n

/-- What is left out of the beginning is left out of the list. -/
theorem mem_of_mem_cut {α : Type} {limit : Option Nat} {x : α} {xs : List α}
    (h : x ∈ cut limit xs) : x ∈ xs := by
  cases limit with
  | none => exact h
  | some n => exact List.mem_of_mem_take h

/-- The row as filters see it. -/
def StoredRow.decoded (r : StoredRow T) (model : IndexModel) : DecodedRow :=
  .ofRow model r.row.id r.filing.info.fields

/-- The rows that a caller may see and that the filters of the call and of the index let pass, and
the filters of the call afterwards. -/
def sift (model : IndexModel) (labels : Labels) :
    (client own : List Filter) → List (StoredRow T) → List (StoredRow T) × List Filter
  | client, _, [] => ([], client)
  | client, own, r :: rest =>
    if r.isVisible labels then
      let asked := (Filter.askEvery (r.decoded model) client).value
      if asked.1 then
        let chosen := (Filter.askEvery (r.decoded model) own).value
        let behind := sift model labels asked.2 chosen.2 rest
        (if chosen.1 then r :: behind.1 else behind.1, behind.2)
      else sift model labels asked.2 own rest
    else sift model labels client own rest

/-- The rows of scans, one after the other; the filters of the call go on from scan to scan. -/
def siftEach (labels : Labels) : List Filter → List (IndexScan T) → List (Hit T)
  | _, [] => []
  | client, scan :: rest =>
    let sifted := sift scan.index.model labels client scan.filters scan.ahead
    sifted.1.map (⟨scan.index.id, ·⟩) ++ siftEach labels sifted.2 rest

/-! ## What sifting keeps -/

section

variable {model : IndexModel} {labels : Labels} {client own client' own' : List Filter}
  {r : StoredRow T} {rest : List (StoredRow T)}

/-- A hidden row is passed over before any filter is asked. -/
theorem sift_cons_hidden (hv : r.isVisible labels = false) :
    sift model labels client own (r :: rest) = sift model labels client own rest := by
  simp only [sift, hv, Bool.false_eq_true, if_false]

/-- A row that the filters of the call refuse is not shown to those of the index. -/
theorem sift_cons_refused (hv : r.isVisible labels = true)
    (ha : (Filter.askEvery (r.decoded model) client).value = (false, client')) :
    sift model labels client own (r :: rest) = sift model labels client' own rest := by
  simp only [sift, hv, ha, Bool.false_eq_true, if_true, if_false]

/-- A row that the filters of the index refuse is left out. -/
theorem sift_cons_passed (hv : r.isVisible labels = true)
    (ha : (Filter.askEvery (r.decoded model) client).value = (true, client'))
    (ho : (Filter.askEvery (r.decoded model) own).value = (false, own')) :
    sift model labels client own (r :: rest) = sift model labels client' own' rest := by
  simp only [sift, hv, ha, ho, Bool.false_eq_true, if_true, if_false]

/-- A row that all filters accept is kept. -/
theorem sift_cons_kept (hv : r.isVisible labels = true)
    (ha : (Filter.askEvery (r.decoded model) client).value = (true, client'))
    (ho : (Filter.askEvery (r.decoded model) own).value = (true, own')) :
    sift model labels client own (r :: rest) =
      (r :: (sift model labels client' own' rest).1, (sift model labels client' own' rest).2) := by
  simp only [sift, hv, ha, ho, if_true]

end

/-- A row is hidden, refused by the filters of the call, passed over by those of its index, or
kept. -/
theorem sift_cases (model : IndexModel) (labels : Labels) (client own : List Filter)
    (r : StoredRow T) :
    r.isVisible labels = false ∨
      (r.isVisible labels = true ∧
        ∃ client', (Filter.askEvery (r.decoded model) client).value = (false, client')) ∨
      (r.isVisible labels = true ∧
        ∃ client' own', (Filter.askEvery (r.decoded model) client).value = (true, client') ∧
          (Filter.askEvery (r.decoded model) own).value = (false, own')) ∨
      (r.isVisible labels = true ∧
        ∃ client' own', (Filter.askEvery (r.decoded model) client).value = (true, client') ∧
          (Filter.askEvery (r.decoded model) own).value = (true, own')) := by
  cases r.isVisible labels with
  | false => exact .inl rfl
  | true =>
    obtain ⟨accepted, client'⟩ := (Filter.askEvery (r.decoded model) client).value
    obtain ⟨chosen, own'⟩ := (Filter.askEvery (r.decoded model) own).value
    cases accepted <;> cases chosen <;> simp

/-- Sifting keeps some of the visible rows, in their order. -/
theorem sublist_sift (model : IndexModel) (labels : Labels) (client own : List Filter)
    (rows : List (StoredRow T)) :
    (sift model labels client own rows).1.Sublist (rows.filter (·.isVisible labels)) := by
  induction rows generalizing client own with
  | nil => exact List.Sublist.slnil
  | cons r rest ih =>
    rcases sift_cases model labels client own r with
      hv | ⟨hv, _, ha⟩ | ⟨hv, _, _, ha, ho⟩ | ⟨hv, _, _, ha, ho⟩
    · rw [sift_cons_hidden hv, List.filter_cons_of_neg (by simp [hv])]
      exact ih client own
    · rw [sift_cons_refused hv ha, List.filter_cons_of_pos hv]
      exact (ih _ _).cons r
    · rw [sift_cons_passed hv ha ho, List.filter_cons_of_pos hv]
      exact (ih _ _).cons r
    · rw [sift_cons_kept hv ha ho, List.filter_cons_of_pos hv]
      exact (ih _ _).cons_cons r

/-- A hit is a visible row that one of the scans meets. -/
theorem of_mem_siftEach {labels : Labels} {client : List Filter} {scans : List (IndexScan T)}
    {h : Hit T} (hm : h ∈ siftEach labels client scans) :
    ∃ scan ∈ scans, h.index = scan.index.id ∧ h.row ∈ scan.ahead ∧
      h.row.isVisible labels = true := by
  induction scans generalizing client with
  | nil => cases hm
  | cons scan rest ih =>
    rcases List.mem_append.mp hm with hm | hm
    · obtain ⟨r, hr, rfl⟩ := List.mem_map.mp hm
      have hf := (sublist_sift _ _ _ _ _).subset hr
      rw [List.mem_filter] at hf
      exact ⟨scan, by simp, rfl, hf.1, hf.2⟩
    · obtain ⟨other, ho, h⟩ := ih hm
      exact ⟨other, List.mem_cons_of_mem scan ho, h⟩

/-- No more rows are yielded than are met. -/
theorem length_siftEach_le (labels : Labels) (client : List Filter) (scans : List (IndexScan T)) :
    (siftEach labels client scans).length ≤ (scans.flatMap (·.ahead)).length := by
  induction scans generalizing client with
  | nil => exact Nat.le_refl _
  | cons scan rest ih =>
    have hs := (sublist_sift scan.index.model labels client scan.filters scan.ahead).length_le
    have hv := List.length_filter_le (·.isVisible labels) scan.ahead
    have hr := ih (sift scan.index.model labels client scan.filters scan.ahead).2
    rw [siftEach, List.length_append, List.length_map, List.flatMap_cons, List.length_append]
    omega

/-- Without filters, all visible rows are kept. -/
theorem sift_nil (model : IndexModel) (labels : Labels) (rows : List (StoredRow T)) :
    sift model labels [] [] rows = (rows.filter (·.isVisible labels), []) := by
  induction rows with
  | nil => rfl
  | cons r rest ih =>
    cases hv : r.isVisible labels with
    | false =>
      rw [sift_cons_hidden hv, ih, List.filter_cons_of_neg (by simp [hv])]
    | true =>
      rw [sift_cons_kept hv rfl rfl, ih, List.filter_cons_of_pos hv]

/-- Where neither the call nor the index has filters, every visible row that is met is a hit. -/
theorem mem_siftEach_nil {labels : Labels} {scans : List (IndexScan T)} {scan : IndexScan T}
    (hs : scan ∈ scans) (hf : ∀ scan ∈ scans, scan.filters = []) {r : StoredRow T}
    (hr : r ∈ scan.ahead) (hv : r.isVisible labels = true) :
    ⟨scan.index.id, r⟩ ∈ siftEach labels [] scans := by
  induction scans with
  | nil => cases hs
  | cons first rest ih =>
    rw [siftEach, hf first (by simp), sift_nil, List.mem_append]
    rcases List.mem_cons.mp hs with rfl | hs
    · exact .inl (List.mem_map.mpr ⟨r, List.mem_filter.mpr ⟨hr, hv⟩, rfl⟩)
    · exact .inr (ih hs fun scan h ↦ hf scan (by simp [h]))

/-! ## Looking for the next row -/

namespace IndexScan

section

variable {labels : Labels} {scan : IndexScan T} {client client' own' : List Filter}
  {r : StoredRow T} {rest : List (StoredRow T)}

/-- A hidden row is counted, and the search goes on. -/
theorem value_seek_cons_hidden (hv : r.isVisible labels = false) :
    (scan.seek labels client (r :: rest)).value =
      (seek labels { scan with
        ahead := rest
        scanned := scan.scanned + 1
        hidden := scan.hidden + 1 } client rest).value := by
  rw [seek]
  simp only [Traced.value_bind, StoredRow.decideVisible, Traced.value_pure, hv, Bool.false_eq_true,
    if_false]

/-- A row that the filters of the call refuse is counted, and the search goes on. -/
theorem value_seek_cons_refused (hv : r.isVisible labels = true)
    (ha : (Filter.askEvery (r.decoded scan.index.model) client).value = (false, client')) :
    (scan.seek labels client (r :: rest)).value =
      (seek labels { scan with
        ahead := rest
        scanned := scan.scanned + 1 } client' rest).value := by
  rw [StoredRow.decoded] at ha
  rw [seek]
  simp only [Traced.value_bind, StoredRow.decideVisible, Traced.value_pure, hv, ha,
    Bool.false_eq_true, if_true, if_false]

/-- A row that the filters of the index refuse is counted, and the search goes on. -/
theorem value_seek_cons_passed (hv : r.isVisible labels = true)
    (ha : (Filter.askEvery (r.decoded scan.index.model) client).value = (true, client'))
    (ho : (Filter.askEvery (r.decoded scan.index.model) scan.filters).value = (false, own')) :
    (scan.seek labels client (r :: rest)).value =
      (seek labels { scan with
        ahead := rest, scanned := scan.scanned + 1, filters := own' } client' rest).value := by
  rw [StoredRow.decoded] at ha ho
  rw [seek]
  simp only [Traced.value_bind, StoredRow.decideVisible, Traced.value_pure, hv, ha, ho,
    Bool.false_eq_true, if_true, if_false]

/-- The search ends at a row that all filters accept. -/
theorem value_seek_cons_kept (hv : r.isVisible labels = true)
    (ha : (Filter.askEvery (r.decoded scan.index.model) client).value = (true, client'))
    (ho : (Filter.askEvery (r.decoded scan.index.model) scan.filters).value = (true, own')) :
    (scan.seek labels client (r :: rest)).value =
      ⟨some r, { scan with
        ahead := rest
        scanned := scan.scanned + 1
        filters := own'
        yielded := scan.yielded + 1 }, client'⟩ := by
  rw [StoredRow.decoded] at ha ho
  rw [seek]
  simp only [Traced.value_bind, StoredRow.decideVisible, Traced.value_pure, hv, ha, ho, if_true]

end

/-- What the search for a row has found of the sifted rows: the first one, with the others ahead, or
none, where there are none. -/
def Finds (labels : Labels) (sought : Sought T) (sifted : List (StoredRow T) × List Filter) :
    Prop :=
  match sought.row with
  | none => sifted = ([], sought.client)
  | some r => ∃ more after, sifted = (r :: more, after) ∧
      sift sought.scan.index.model labels sought.client sought.scan.filters sought.scan.ahead =
        (more, after)

/-- Looking for a row finds the first one of the sifted rows, and leaves the others ahead. -/
theorem value_seek (labels : Labels) (scan : IndexScan T) (client : List Filter)
    (rows : List (StoredRow T)) :
    (scan.seek labels client rows).value.scan.index = scan.index ∧
      Finds labels (scan.seek labels client rows).value
        (sift scan.index.model labels client scan.filters rows) := by
  induction rows generalizing scan client with
  | nil => exact ⟨rfl, rfl⟩
  | cons r rest ih =>
    rcases sift_cases scan.index.model labels client scan.filters r with
      hv | ⟨hv, client', ha⟩ | ⟨hv, client', own', ha, ho⟩ | ⟨hv, _, _, ha, ho⟩
    · rw [value_seek_cons_hidden hv, sift_cons_hidden hv]
      exact ih { scan with
        ahead := rest, scanned := scan.scanned + 1, hidden := scan.hidden + 1 } client
    · rw [value_seek_cons_refused hv ha, sift_cons_refused hv ha]
      exact ih { scan with ahead := rest, scanned := scan.scanned + 1 } client'
    · rw [value_seek_cons_passed hv ha ho, sift_cons_passed hv ha ho]
      exact ih { scan with
        ahead := rest, scanned := scan.scanned + 1, filters := own' } client'
    · rw [value_seek_cons_kept hv ha ho, sift_cons_kept hv ha ho]
      exact ⟨rfl, _, _, rfl, rfl⟩

end IndexScan

/-! ## Pulling rows -/

namespace Scan

/-- The rows that are still to be yielded, if there were no limit. -/
def hits (s : Scan T) : List (Hit T) :=
  siftEach s.labels s.client (s.current.toList ++ s.pending)

/-- The rows that are still to be yielded. -/
def answers (s : Scan T) : List (Hit T) := cut s.remaining s.hits

/-- What looking for a row has taken from the hits that were left: nothing, if there were none, or
the first one, which is counted against the limit. -/
def Steps (before : List (Hit T)) (remaining : Option Nat) (result : Option (Hit T) × Scan T) :
    Prop :=
  match result.1 with
  | none => before = []
  | some h => before = h :: result.2.hits ∧ result.2.remaining = remaining.map (· - 1)

private theorem siftEach_of_seek_none {labels : Labels} {client : List Filter} {scan : IndexScan T}
    (hr : (scan.seek labels client scan.ahead).value.row = none) (pending : List (IndexScan T)) :
    siftEach labels client (scan :: pending) =
      siftEach labels (scan.seek labels client scan.ahead).value.client pending := by
  have hf := (IndexScan.value_seek labels scan client scan.ahead).2
  simp only [IndexScan.Finds, hr] at hf
  simp [siftEach, hf]

private theorem siftEach_of_seek_some {labels : Labels} {client : List Filter} {scan : IndexScan T}
    {r : StoredRow T} (hr : (scan.seek labels client scan.ahead).value.row = some r)
    (pending : List (IndexScan T)) :
    siftEach labels client (scan :: pending) =
      ⟨scan.index.id, r⟩ :: siftEach labels (scan.seek labels client scan.ahead).value.client
        ((scan.seek labels client scan.ahead).value.scan :: pending) := by
  obtain ⟨hi, hf⟩ := IndexScan.value_seek labels scan client scan.ahead
  simp only [IndexScan.Finds, hr] at hf
  obtain ⟨more, after, hf, hrest⟩ := hf
  rw [hi] at hrest
  simp only [siftEach, hf, hrest, hi, List.map_cons, List.cons_append]

/-- Walking on from an index finds the first hit that is left in it or in those behind it. -/
theorem value_walk (s : Scan T) (client : List Filter) (scan : IndexScan T)
    (pending : List (IndexScan T)) :
    Steps (siftEach s.labels client (scan :: pending)) s.remaining
      (s.walk client scan pending).value := by
  induction pending generalizing client scan with
  | nil =>
    rw [walk, Traced.value_bind]
    cases hr : (scan.seek s.labels client scan.ahead).value.row with
    | none =>
      rw [siftEach_of_seek_none hr]
      rfl
    | some r =>
      rw [siftEach_of_seek_some hr]
      exact ⟨rfl, rfl⟩
  | cons next rest ih =>
    rw [walk, Traced.value_bind]
    cases hr : (scan.seek s.labels client scan.ahead).value.row with
    | none =>
      rw [siftEach_of_seek_none hr]
      exact ih (scan.seek s.labels client scan.ahead).value.client next
    | some r =>
      rw [siftEach_of_seek_some hr]
      exact ⟨rfl, rfl⟩

/-- The next row is the first hit that is left. -/
theorem steps_next {s : Scan T} (h : s.remaining ≠ some 0) :
    Steps s.hits s.remaining s.next.value := by
  rw [next, if_neg h, hits]
  cases hc : s.current with
  | some scan => exact value_walk s s.client scan s.pending
  | none =>
    cases hp : s.pending with
    | nil => rfl
    | cons scan rest => exact value_walk s s.client scan rest

/-- Without an answer that is left there is no next row; otherwise it is the first answer, and the
others are left. -/
theorem value_next (s : Scan T) :
    match s.next.value.1 with
    | none => s.answers = []
    | some h => s.answers = h :: s.next.value.2.answers := by
  by_cases h0 : s.remaining = some 0
  · simp [next, h0, answers, cut]
  · have hsteps := steps_next h0
    unfold Steps at hsteps
    cases hn : s.next.value.1 with
    | none =>
      rw [hn] at hsteps
      simp [answers, hsteps, cut]
      cases s.remaining <;> simp
    | some h =>
      rw [hn] at hsteps
      obtain ⟨hhits, hrem⟩ := hsteps
      simp only [answers, hhits, hrem]
      cases hr : s.remaining with
      | none => rfl
      | some n =>
        cases n with
        | zero => exact absurd hr h0
        | succ n => rfl

/-- Pulling rows gives the beginning of the answers that are left. -/
theorem value_pull (s : Scan T) (n : Nat) : (s.pull n).value.1 = s.answers.take n := by
  induction n generalizing s with
  | zero => simp [pull]
  | succ n ih =>
    have hn := value_next s
    rw [pull, Traced.value_bind]
    obtain ⟨o, s', hv⟩ : ∃ o s', s.next.value = (o, s') := ⟨_, _, rfl⟩
    rw [hv] at hn ⊢
    cases o with
    | none => simp [show s.answers = [] from hn]
    | some h =>
      have ha : s.answers = h :: s'.answers := hn
      rw [ha, List.take_succ_cons, ← ih s']
      rfl

/-- No more rows are left to be yielded than are left to be met. -/
theorem length_answers_le (s : Scan T) : s.answers.length ≤ s.ahead := by
  have hcut : s.answers.length ≤ s.hits.length := by
    unfold answers cut
    split
    · exact Nat.le_refl _
    · exact List.length_take_le' _ _
  have hsift := length_siftEach_le s.labels s.client (s.current.toList ++ s.pending)
  exact Nat.le_trans hcut hsift

/-- A scan that is run gives its answers, all or the first ones. -/
theorem value_run (s : Scan T) (take : Option Nat) : (s.run take).value = cut take s.answers := by
  have hp : (s.run take).value = (s.pull (take.getD (s.ahead + 1))).value.1 := rfl
  rw [hp, value_pull]
  cases take with
  | none =>
    apply List.take_of_length_le
    have := length_answers_le s
    simp only [Option.getD_none]
    omega
  | some n => rfl

end Scan

namespace Store

/-- The indices that a call looks in. -/
def targeted (s : Store T) (index : Option Bytes) : List Index := (s.targets index).value

/-- The rows that a query would yield without a limit. -/
def listing (s : Store T) (q : Query) (o : QueryOptions) : List (Hit T) :=
  siftEach o.labels o.clientFilters ((s.targeted o.index).map (IndexScan.start s q))

/-- A query yields its listing up to the limit, all or the first ones. -/
theorem value_query (s : Store T) (q : Query) (o : QueryOptions) (take : Option Nat) :
    (s.query q o take).value =
      cut take (cut (o.effectiveLimit s.config.defaultLimit) (s.listing q o)) := by
  rw [query, Traced.value_bind, Scan.value_run]
  rfl

/-- Without a limit, a query yields its listing. -/
theorem value_query_of_unlimited {s : Store T} {q : Query} {o : QueryOptions}
    (h : o.effectiveLimit s.config.defaultLimit = none) : (s.query q o).value = s.listing q o := by
  rw [value_query, h]
  rfl

/-- The rows that the scan of an index meets are rows of the index. -/
theorem mem_all_of_mem_rowsFor {s : Store T} {q : Query} {index : Index} {r : StoredRow T}
    (h : r ∈ s.rowsFor q index) : r ∈ (s.rowsOf index.id).all := by
  unfold rowsFor at h
  split at h
  · exact h
  · obtain ⟨w, -, hw⟩ := List.mem_flatMap.mp h
    exact RowSet.mem_all_of_mem_between hw

/-- A hit of a query is a visible row of a targeted index. -/
theorem of_mem_query {s : Store T} {q : Query} {o : QueryOptions} {take : Option Nat} {h : Hit T}
    (hm : h ∈ (s.query q o take).value) :
    ∃ i ∈ s.targeted o.index, h.index = i.id ∧ h.row ∈ (s.rowsOf i.id).all ∧
      h.row.isVisible o.labels = true := by
  rw [value_query] at hm
  obtain ⟨scan, hs, hi, ha, hv⟩ := of_mem_siftEach (mem_of_mem_cut (mem_of_mem_cut hm))
  obtain ⟨i, him, rfl⟩ := List.mem_map.mp hs
  unfold IndexScan.start at hi ha
  split at ha
  · next hq =>
    rw [if_pos hq] at hi
    exact ⟨i, him, hi, mem_all_of_mem_rowsFor ha, hv⟩
  · cases ha

/-- The query for everything meets all rows of an index. -/
theorem rowsFor_everything (s : Store T) (i : Index) :
    s.rowsFor .everything i = (s.rowsOf i.id).all := by
  have hw : Query.everything.windows? s.config i = none := by
    rw [Query.windows?]
    split <;> rfl
  rw [rowsFor, hw]

/-- The query for everything, without a limit and without filters of the call, yields every visible
row of a targeted index. -/
theorem mem_query_everything {s : Store T} {o : QueryOptions} {i : Index} {r : StoredRow T}
    (hlimit : o.effectiveLimit s.config.defaultLimit = none) (hfilters : o.clientFilters = [])
    (hi : i ∈ s.targeted o.index) (hr : r ∈ (s.rowsOf i.id).all)
    (hv : r.isVisible o.labels = true) :
    (⟨i.id, r⟩ : Hit T) ∈ (s.query .everything o).value := by
  have hrows : (IndexScan.start s .everything i).ahead = (s.rowsOf i.id).all :=
    s.rowsFor_everything i
  rw [value_query, hlimit, listing, hfilters]
  refine mem_siftEach_nil (List.mem_map_of_mem hi) ?_ (hrows ▸ hr) hv
  intro scan hs
  obtain ⟨j, -, rfl⟩ := List.mem_map.mp hs
  rfl

end Store

end RowVault
