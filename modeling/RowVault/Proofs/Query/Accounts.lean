import Mathlib.Algebra.Ring.Nat
import RowVault.Proofs.Query.Visits

/-!
# Accounts of the rows that a query meets

A query visits the indices that it names, in order, and in each the rows that concern it. Its visits
are written down without scans and counters, and account for every row that is met: in every
reachable store, the sink is told just of them, wherever the caller or the limit stops.
-/

namespace RowVault.Store

variable {T : Type} {s : Store T} {q : Query} {o : QueryOptions}

/-! ## Visits of the indices of a store -/

/-- The rows of an index that concern a query: those in its ranges, if it supports the index. -/
def concerned (s : Store T) (q : Query) (index : Index) : List (StoredRow T) :=
  if q.supports index then
    (s.rowsOf index.id).all.filter fun r ↦ KeyRange.wanted (q.rangesOn s.config index) r.row.id.key
  else []

/-- The visits of indices, one after the other, until so many rows are yielded. The filters of the
call stay as they are left by the index before; those of the query are new in each index. -/
def visits (s : Store T) (q : Query) (labels : Labels) :
    Nat → List Filter → List Index → List (Visit T)
  | 0, _, _ => []
  | _ + 1, _, [] => []
  | n + 1, client, index :: rest =>
    let judged := Filter.judge index.model labels (client ++ q.filters index.model)
      (s.concerned q index)
    let met := metUntil (n + 1) judged.1
    ⟨index.id, met⟩ ::
      s.visits q labels (n + 1 - Fate.yielded.count met) (judged.2.take client.length) rest

/-- Without a call, no index is visited. -/
@[simp] theorem visits_zero (s : Store T) (q : Query) (labels : Labels) (client : List Filter)
    (indices : List Index) : s.visits q labels 0 client indices = [] := by
  cases indices <;> rfl

/-- The visits of scans are those of the indices that are scanned. -/
theorem visitEach_start (h : s.WF) (labels : Labels) (n : Nat) (client : List Filter)
    (indices : List Index) :
    visitEach labels n client (indices.map (IndexScan.start s q)) =
      s.visits q labels n client indices := by
  induction indices generalizing n client with
  | nil => cases n <;> rfl
  | cons index rest ih =>
    cases n with
    | zero => rw [visitEach_zero, visits_zero]
    | succ n =>
      rw [List.map_cons, visitEach, visits, IndexScan.start, concerned]
      cases hq : q.supports index with
      | true =>
        simp only [if_true, rowsFor_eq (h.rows index.id), ih]
      | false =>
        simp only [Bool.false_eq_true, if_false, Filter.judge, ih, List.take_left]

/-- The hits of visits are the rows that are accepted, up to as many as are wanted. -/
theorem hits_visits (labels : Labels) (n : Nat) (client : List Filter) (indices : List Index) :
    (s.visits q labels n client indices).flatMap Visit.hits =
      (s.accepted q labels client (indices.filter q.supports)).take n := by
  induction indices generalizing n client with
  | nil => cases n <;> simp [visits, accepted]
  | cons index rest ih =>
    cases n with
    | zero => simp
    | succ n =>
      rw [visits]
      cases hq : q.supports index with
      | false =>
        have hconcerned : s.concerned q index = [] := by
          rw [concerned, hq]
          rfl
        rw [List.filter_cons_of_neg (by simp [hq]), hconcerned]
        simp [Filter.judge, metUntil, Visit.hits, ih]
      | true =>
        have hcandidates : s.candidates q labels index =
            (s.concerned q index).filter (·.isVisible labels) := by
          rw [candidates, concerned, if_pos hq, List.filter_filter]
          exact List.filter_congr fun r _ ↦ Bool.and_comm _ _
        rw [List.filter_cons_of_pos hq, accepted, hcandidates, Filter.choose_eq_judge,
          List.flatMap_cons, ih, Visit.hits, filter_metUntil, count_metUntil, List.take_append]
        generalize Filter.judge index.model labels (client ++ q.filters index.model)
          (s.concerned q index) = judged
        have hleft : n + 1 - min (n + 1) (Fate.yielded.count judged.1) =
            n + 1 - Fate.yielded.count judged.1 := by
          omega
        rw [hleft, Fate.count, List.countP_eq_length_filter]
        simp only [List.map_take, List.map_map, List.length_map, Function.comp_def]

/-! ## Accounts of visits -/

/-- What is true of visits by which rows are yielded until so many are wanted. -/
structure Accounts (s : Store T) (q : Query) (labels : Labels) (indices : List Index) (wanted : Nat)
    (visits : List (Visit T)) : Prop where
  /-- A row that is met is counted once, as yielded, hidden or refused. -/
  sum : ∀ v ∈ visits, v.met.length =
    Fate.yielded.count v.met + Fate.hidden.count v.met + Fate.refused.count v.met
  /-- The hidden rows are those that the caller may not see. -/
  hidden : ∀ v ∈ visits, ∀ m ∈ v.met, m.fate = .hidden ↔ m.row.isVisible labels = false
  /-- The rows that are counted as yielded are the hits. -/
  yielded : (visits.map fun v ↦ Fate.yielded.count v.met).sum = (visits.flatMap Visit.hits).length
  /-- No more rows are yielded than are wanted. -/
  atMost : (visits.flatMap Visit.hits).length ≤ wanted
  /-- Indices are visited in order, without a gap. -/
  ordered : visits.map (·.index) <+: indices.map (·.id)
  /-- In an index, the rows that concern the query are met in order, without a gap. -/
  rows : ∀ v ∈ visits, ∃ i ∈ indices, v.index = i.id ∧ v.met.map (·.row) <+: s.concerned q i
  /-- An index is left for the next one when all its rows have been met. -/
  passed : visits.dropLast.map (fun v ↦ (v.index, v.met.map (·.row))) <+:
    indices.map fun i ↦ (i.id, s.concerned q i)
  /-- If fewer rows are yielded than are wanted, all rows of all indices have been met. -/
  ended : (visits.flatMap Visit.hits).length < wanted →
    visits.map (fun v ↦ (v.index, v.met.map (·.row))) =
      indices.map fun i ↦ (i.id, s.concerned q i)
  /-- Otherwise nothing is met behind the last hit. -/
  stopped : (visits.flatMap Visit.hits).length = wanted → visits = [] ∨
    ∃ earlier index before r, visits = earlier ++ [⟨index, before ++ [⟨r, .yielded⟩]⟩]

/-- Where no row is wanted, no index is visited. -/
theorem Accounts.zero (s : Store T) (q : Query) (labels : Labels) (indices : List Index) :
    s.Accounts q labels indices 0 [] where
  sum := nofun
  hidden := nofun
  yielded := rfl
  atMost := Nat.le_refl 0
  ordered := List.nil_prefix
  rows := nofun
  passed := List.nil_prefix
  ended := nofun
  stopped _ := .inl rfl

/-- Where there are no indices, none is visited. -/
theorem Accounts.nil (s : Store T) (q : Query) (labels : Labels) (wanted : Nat) :
    s.Accounts q labels [] wanted [] :=
  { Accounts.zero s q labels [] with
    atMost := Nat.zero_le wanted
    ended := fun _ ↦ rfl
    stopped := fun _ ↦ .inl rfl }

/-- The visit of one more index accounts for the rows that are met there. -/
theorem Accounts.cons {labels : Labels} {index : Index} {rest : List Index} {wanted : Nat}
    {met : List (Encounter T)} {more : List (Visit T)}
    (h : s.Accounts q labels rest (wanted - Fate.yielded.count met) more)
    (hhidden : ∀ m ∈ met, m.fate = .hidden ↔ m.row.isVisible labels = false)
    (hcount : Fate.yielded.count met ≤ wanted)
    (hrows : met.map (·.row) <+: s.concerned q index)
    (hall : Fate.yielded.count met < wanted → met.map (·.row) = s.concerned q index)
    (hlast : Fate.yielded.count met = wanted →
      more = [] ∧ ∃ before r, met = before ++ [⟨r, .yielded⟩]) :
    s.Accounts q labels (index :: rest) wanted (⟨index.id, met⟩ :: more) := by
  have hlength : ((⟨index.id, met⟩ :: more : List (Visit T)).flatMap Visit.hits).length =
      Fate.yielded.count met + (more.flatMap Visit.hits).length := by
    rw [List.flatMap_cons, List.length_append, Visit.hits, List.length_map, Fate.count,
      List.countP_eq_length_filter]
  have hatMost := h.atMost
  constructor
  case sum => exact List.forall_mem_cons.mpr ⟨Fate.length_eq_sum met, h.sum⟩
  case hidden => exact List.forall_mem_cons.mpr ⟨hhidden, h.hidden⟩
  case yielded => rw [List.map_cons, List.sum_cons, h.yielded, hlength]
  case atMost =>
    rw [hlength]
    omega
  case ordered => exact List.cons_prefix_cons.mpr ⟨rfl, h.ordered⟩
  case rows =>
    refine List.forall_mem_cons.mpr ⟨⟨index, by simp, rfl, hrows⟩, fun v hv ↦ ?_⟩
    obtain ⟨i, hi, hv⟩ := h.rows v hv
    exact ⟨i, List.mem_cons_of_mem index hi, hv⟩
  case passed =>
    cases more with
    | nil => exact List.nil_prefix
    | cons v others =>
      -- There is a visit behind this one only if all rows of the index have been met.
      have hlt : Fate.yielded.count met < wanted :=
        Nat.lt_of_le_of_ne hcount fun he ↦ List.cons_ne_nil v others (hlast he).1
      exact List.cons_prefix_cons.mpr ⟨congrArg _ (hall hlt), h.passed⟩
  case ended =>
    intro hlt
    rw [hlength] at hlt
    rw [List.map_cons, List.map_cons, h.ended (by omega), hall (by omega)]
  case stopped =>
    intro heq
    rw [hlength] at heq
    rcases Nat.eq_or_lt_of_le hcount with he | hlt
    · obtain ⟨rfl, before, r, rfl⟩ := hlast he
      exact .inr ⟨[], index.id, before, r, rfl⟩
    · rcases h.stopped (by omega) with rfl | ⟨earlier, id, before, r, rfl⟩
      · rw [List.flatMap_nil, List.length_nil] at heq
        omega
      · exact .inr ⟨_ :: earlier, id, before, r, rfl⟩

/-- The visits that a query makes account for every row that is met. -/
theorem accounts_visits (s : Store T) (q : Query) (labels : Labels) (n : Nat)
    (client : List Filter) (indices : List Index) :
    s.Accounts q labels indices n (s.visits q labels n client indices) := by
  induction indices generalizing n client with
  | nil => cases n <;> exact Accounts.nil s q labels _
  | cons index rest ih =>
    cases n with
    | zero =>
      rw [visits_zero]
      exact Accounts.zero s q labels _
    | succ n =>
      rw [visits]
      have hrows := Filter.map_row_judge index.model labels (client ++ q.filters index.model)
        (s.concerned q index)
      have hhidden := Filter.hidden_judge index.model labels (client ++ q.filters index.model)
        (s.concerned q index)
      generalize Filter.judge index.model labels (client ++ q.filters index.model)
        (s.concerned q index) = judged at hrows hhidden ⊢
      have hcount := count_metUntil (n + 1) judged.1
      have hstart := metUntil_prefix (n + 1) judged.1
      refine (ih _ _).cons (fun m hm ↦ hhidden m (hstart.subset hm)) (by omega) ?_ ?_ ?_
      · exact hrows ▸ hstart.map _
      · intro hlt
        rw [metUntil_of_count_lt (by omega), hrows]
      · intro heq
        exact ⟨by rw [heq, Nat.sub_self, visits_zero], exists_last_metUntil (by omega)⟩

/-! ## Calls of a query -/

/-- Open a query, make so many calls for its next row, whether or not there is one, and leave it. -/
def calls (s : Store T) (q : Query) (o : QueryOptions) (n : Nat) :
    Traced (List (Option (Hit T))) := do
  let scan ← s.scan q o
  scan.calls n

/-- An index is opened before any row of it has been met. -/
theorem fresh_start (s : Store T) (q : Query) (index : Index) :
    (IndexScan.start s q index).Fresh := by
  rw [IndexScan.start]
  split <;> exact ⟨rfl, rfl, rfl⟩

/-- Nothing is told when a query is opened. -/
theorem events_scan (s : Store T) (q : Query) (o : QueryOptions) : (s.scan q o).events = [] := by
  rw [scan, Traced.events_bind, Traced.events_pure, List.append_nil]
  cases o.index with
  | none => rfl
  | some id =>
    rw [targets]
    cases s.indices.find id with
    | ok i => rfl
    | error e => rfl

/-- The rows of the first calls are those that a query yields if it is stopped then. -/
theorem query_eq_calls (s : Store T) (q : Query) (o : QueryOptions) (n : Nat) :
    s.query q o (some n) = (·.filterMap id) <$> s.calls q o n := by
  rw [query, calls, map_bind]
  refine Traced.bind_congr_value ?_
  rw [Scan.run, Scan.calls_eq, map_bind]
  refine Traced.bind_congr_value ?_
  rw [map_bind]
  refine Traced.bind_congr_value ?_
  rw [map_pure]
  simp [List.filterMap_append, List.filterMap_map]

/-- The calls behind the last row are in vain. -/
theorem value_calls (s : Store T) (q : Query) (o : QueryOptions) (n : Nat) :
    (s.calls q o n).value = (s.query q o (some n)).value.map some ++
      List.replicate (n - (s.query q o (some n)).value.length) none := by
  rw [calls, Traced.value_bind, Scan.calls_eq]
  rfl

/-- The first ones up to a limit are as many as calls can yield under it. -/
theorem take_cut {α : Type} (limit : Option Nat) (n : Nat) (xs : List α) :
    (cut limit xs).take n = xs.take (budget limit n) := by
  cases limit with
  | none => rfl
  | some limit => exact List.take_take

/-- In every reachable store, whatever is asked for and wherever the caller or the limit stops, the
sink is told of each index that is visited, in order: once of the rows that are met and yielded
there, and behind that, if any are hidden, of those. The rows are those that are met up to the last
one that is wanted, each of them counted with its fate, and of indices behind it nothing is told. -/
theorem sink_told_of_visits {s : Store T} (h : s.Reachable) (q : Query) (o : QueryOptions)
    (n : Nat) :
    let wanted := budget (o.effectiveLimit s.config.defaultLimit) n
    let visits := s.visits q o.labels wanted (o.scope ++ o.filters) (s.named o.index)
    let hits := visits.flatMap Visit.hits
    (s.calls q o n).events = visits.flatMap Visit.events ∧
      (s.calls q o n).value = hits.map some ++ List.replicate (n - hits.length) none ∧
      s.Accounts q o.labels (s.named o.index) wanted visits ∧
      s.query q o (some n) = (·.filterMap id) <$> s.calls q o n := by
  intro wanted visits hits
  have hhits : (s.query q o (some n)).value = hits := by
    rw [h.wf.value_query, selection, ← o.cut_effectiveLimit]
    exact (take_cut _ _ _).trans (hits_visits ..).symm
  refine ⟨?_, ?_, accounts_visits .., query_eq_calls s q o n⟩
  · have hfresh : ∀ scan ∈ (s.scan q o).value.pending, scan.Fresh := by
      intro scan hs
      obtain ⟨index, -, rfl⟩ := List.mem_map.mp hs
      exact fresh_start s q index
    rw [calls, Traced.events_bind, events_scan, List.nil_append, Scan.events_calls hfresh]
    change (visitEach o.labels wanted o.clientFilters
      ((s.targeted o.index).map (IndexScan.start s q))).flatMap Visit.events = _
    rw [visitEach_start h.wf, o.clientFilters_eq, targeted_eq]
  · rw [value_calls, hhits]

private def pairIndex (id : UInt8) : Index :=
  ⟨⟨[id], fun _ ↦ [[0x01], [0x02]], fun _ _ ↦ []⟩, ⟨[0x6D], [.ofCodec [0x66] {}]⟩⟩

private def pairCall (index : Index) (entries : List (Bytes × Bytes)) : Call Scripted.Entry :=
  .ingest (Scripted.AdapterPlan.adapter { id := [0x61] }) index Scripted.visibilityOfEntry
    (entries.map fun e ↦ { id := e.1, fields := [⟨[0x66], .bool true⟩], visibility := e.2 })
    fun _ ↦ none

/-- The rows that are met in the first index are yielded, hidden, yielded and, as deduplication goes
on, refused, hidden and refused. The second call leaves the index behind its third row; the third
one meets the others, and the first row of the second index. -/
theorem sink_told_of_visits_deduplicated :
    let first := pairIndex 0x73
    let second := pairIndex 0x74
    let s := (fresh {} {} : Store Scripted.Entry).after [
      pairCall first [([0x64], []), ([0x65], [0x78]), ([0x66], [])], pairCall second [([0x67], [])]]
    let q := Scripted.query none [] none
    let o : QueryOptions := { filters := [.dedupe []] }
    (s.calls q o 2).events = [.rowsScanned first.id 3 2, .rowsHidden first.id 1] ∧
      (s.calls q o 3).events = [.rowsScanned first.id 6 2, .rowsHidden first.id 2,
        .rowsScanned second.id 1 1] ∧
      (s.calls q { o with limit := some 1 } 3).events = [.rowsScanned first.id 1 1] ∧
      (s.calls q { o with limit := some 1 } 3).value.map (·.isSome) = [true, false, false] := by
  intro first second s q o
  have hreachable : s.Reachable := ⟨{}, {}, _, rfl⟩
  refine ⟨?_, ?_, ?_, ?_⟩
  · rw [(sink_told_of_visits hreachable q o 2).1]
    decide +kernel
  · rw [(sink_told_of_visits hreachable q o 3).1]
    decide +kernel
  · rw [(sink_told_of_visits hreachable q { o with limit := some 1 } 3).1]
    decide +kernel
  · rw [(sink_told_of_visits hreachable q { o with limit := some 1 } 3).2.1]
    decide +kernel

end RowVault.Store
