import RowVault.Proofs.Query.Listing

/-!
# How many rows a query examines

A scan tells the sink, for each index that it leaves, how many rows it has met there. What it has
told and what it still owes, if it were to go on to the end, stay the same with every row that is
pulled; so a query that is run to its end without a limit tells of all rows that it meets, one index
after the other.
-/

namespace RowVault

variable {T : Type}

/-! ## Events of sequences -/

mutual

/-- Asking a filter is no event. -/
theorem Filter.events_ask (row : DecodedRow) (f : Filter) : (ask row f).events = [] := by
  cases f with
  | adapters ids => rw [ask]; rfl
  | entries ids => rw [ask]; rfl
  | dedupe passed =>
    rw [ask]
    split
    · rfl
    · split <;> rfl
  | every filters =>
    rw [ask, Traced.events_bind, events_askEvery row filters]
    rfl
  | host accepts shown => rw [ask]; rfl

/-- Asking filters is no event. -/
theorem Filter.events_askEvery (row : DecodedRow) (filters : List Filter) :
    (askEvery row filters).events = [] := by
  cases filters with
  | nil => rw [askEvery]; rfl
  | cons f rest =>
    rw [askEvery, Traced.events_bind, events_ask row f]
    dsimp only
    split
    · rw [Traced.events_bind, events_askEvery row rest]
      rfl
    · rfl

end

/-- Deciding whether a row is visible is no event. -/
theorem StoredRow.events_decideVisible (labels : Labels) (r : StoredRow T) :
    (r.decideVisible labels).events = [] := by
  rw [decideVisible, Traced.events_bind, Traced.events_log]
  rfl

namespace IndexScan

/-- Looking for a row is no event. -/
theorem events_seek (labels : Labels) (scan : IndexScan T) (client : List Filter)
    (rows : List (StoredRow T)) : (scan.seek labels client rows).events = [] := by
  induction rows generalizing scan client with
  | nil => rfl
  | cons r rest ih =>
    rw [seek, Traced.events_bind, StoredRow.events_decideVisible]
    split
    · rw [Traced.events_bind, Filter.events_askEvery]
      dsimp only
      split
      · rw [Traced.events_bind, Filter.events_askEvery]
        split
        · rfl
        · exact ih _ _
      · exact ih _ _
    · exact ih _ _

/-- What the search for a row does to the counts: each row that it takes from those ahead is counted
as met, and it takes all of them if it finds none. -/
structure Counts (scan : IndexScan T) (rows : List (StoredRow T)) (sought : Sought T) : Prop where
  sum : sought.scan.scanned + sought.scan.ahead.length = scan.scanned + rows.length
  none : sought.row = none → sought.scan.ahead = []
  some : sought.row.isSome → sought.scan.ahead.length < rows.length

private theorem Counts.cons {scan next : IndexScan T} {r : StoredRow T} {rest : List (StoredRow T)}
    {sought : Sought T} (h : next.Counts rest sought) (hn : next.scanned = scan.scanned + 1) :
    scan.Counts (r :: rest) sought := by
  obtain ⟨hsum, hnone, hsome⟩ := h
  refine ⟨?_, hnone, fun hs ↦ ?_⟩
  · rw [List.length_cons]
    omega
  · rw [List.length_cons]
    exact Nat.lt_succ_of_lt (hsome hs)

/-- Every row that is met is counted. -/
theorem counts_seek (labels : Labels) (scan : IndexScan T) (client : List Filter)
    (rows : List (StoredRow T)) : scan.Counts rows (scan.seek labels client rows).value := by
  induction rows generalizing scan client with
  | nil => exact ⟨rfl, fun _ ↦ rfl, nofun⟩
  | cons r rest ih =>
    rcases sift_cases scan.index.model labels client scan.filters r with
      hv | ⟨hv, client', ha⟩ | ⟨hv, client', own', ha, ho⟩ | ⟨hv, _, _, ha, ho⟩
    · rw [value_seek_cons_hidden hv]
      exact (ih _ client).cons rfl
    · rw [value_seek_cons_refused hv ha]
      exact (ih _ client').cons rfl
    · rw [value_seek_cons_passed hv ha ho]
      exact (ih _ client').cons rfl
    · rw [value_seek_cons_kept hv ha ho]
      refine ⟨?_, nofun, fun _ ↦ Nat.lt_succ_self _⟩
      exact (Nat.add_assoc _ _ _).trans (congrArg (scan.scanned + ·) (Nat.add_comm _ _))

end IndexScan

/-! ## What the sink is told -/

/-- What an event tells about rows that were met: in which index, and how many. -/
def Event.examined : Event → Option (Bytes × Nat)
  | .rowsScanned index scanned _ => some (index, scanned)
  | _ => none

/-- What the sink is told about rows that were met, index by index. -/
def Traced.examined {α : Type} (x : Traced α) : List (Bytes × Nat) :=
  x.events.filterMap (·.examined)

/-- A result alone tells nothing. -/
@[simp] theorem Traced.examined_pure {α : Type} (a : α) : (pure a : Traced α).examined = [] := rfl

/-- What is told in a sequence is told in its parts, one after the other. -/
@[simp] theorem Traced.examined_bind {α β : Type} (x : Traced α) (f : α → Traced β) :
    (x >>= f).examined = x.examined ++ (f x.value).examined := by
  rw [examined, events_bind, List.filterMap_append]
  rfl

/-- A result that is changed afterwards tells the same. -/
@[simp] theorem Traced.examined_map {α β : Type} (f : α → β) (x : Traced α) :
    (f <$> x).examined = x.examined := by
  rw [← bind_pure_comp, examined_bind, examined_pure, List.append_nil]

namespace IndexScan

/-- What the sink is told of an index whose rows have all been met. -/
def account (scan : IndexScan T) : Bytes × Nat :=
  (scan.index.id, scan.scanned + scan.ahead.length)

/-- Looking for a row tells nothing. -/
@[simp] theorem examined_seek (labels : Labels) (scan : IndexScan T) (client : List Filter)
    (rows : List (StoredRow T)) : (scan.seek labels client rows).examined = [] := by
  rw [Traced.examined, events_seek, List.filterMap_nil]

/-- Looking for a row moves rows from those ahead to those that were met. -/
theorem account_seek (labels : Labels) (scan : IndexScan T) (client : List Filter) :
    (scan.seek labels client scan.ahead).value.scan.account = scan.account := by
  rw [account, account, (value_seek labels scan client scan.ahead).1,
    (counts_seek labels scan client scan.ahead).sum]

/-- A scan that leaves an index tells how many rows it has met there. -/
theorem examined_report (scan : IndexScan T) :
    scan.report.examined = [(scan.index.id, scan.scanned)] := by
  rw [report, Traced.examined_bind]
  split <;> rfl

/-- Where no row is found in an index, all its rows have been met, and its account is told. -/
theorem examined_report_seek {labels : Labels} {scan : IndexScan T} {client : List Filter}
    (h : (scan.seek labels client scan.ahead).value.row = none) :
    (scan.seek labels client scan.ahead).value.scan.report.examined = [scan.account] := by
  have hahead := (counts_seek labels scan client scan.ahead).none h
  rw [examined_report, ← account_seek labels scan client, account, hahead]
  rfl

end IndexScan

namespace Scan

/-- What the sink has still to be told, if the scan goes on to its end. -/
def owed (s : Scan T) : List (Bytes × Nat) := (s.current.toList ++ s.pending).map (·.account)

/-- What a step of a scan does: what it tells and what is owed afterwards is what was owed before,
and it takes a row from those ahead, or is at the end. -/
structure Tells (owed : List (Bytes × Nat)) (ahead : Nat)
    (step : Traced (Option (Hit T) × Scan T)) : Prop where
  told : step.examined ++ step.value.2.owed = owed
  none : step.value.1 = none → step.value.2.current = none ∧ step.value.2.pending = []
  some : step.value.1.isSome → step.value.2.ahead < ahead

private theorem tells_walk_of_some {s : Scan T} {client : List Filter} {scan : IndexScan T}
    {r : StoredRow T} (hr : (scan.seek s.labels client scan.ahead).value.row = some r)
    (pending : List (IndexScan T)) :
    Tells ((scan :: pending).map (·.account)) ((scan :: pending).flatMap (·.ahead)).length
      (s.walk client scan pending) := by
  have haccount := IndexScan.account_seek s.labels scan client
  have hless := (IndexScan.counts_seek s.labels scan client scan.ahead).some (by rw [hr]; rfl)
  unfold walk
  refine ⟨?_, ?_, ?_⟩
  · simp [hr, owed, haccount]
  · simp [hr]
  · simpa [hr, ahead] using hless

/-- Walking on tells of the indices that are left. -/
theorem tells_walk (s : Scan T) (client : List Filter) (scan : IndexScan T)
    (pending : List (IndexScan T)) :
    Tells ((scan :: pending).map (·.account)) ((scan :: pending).flatMap (·.ahead)).length
      (s.walk client scan pending) := by
  induction pending generalizing client scan with
  | nil =>
    cases hr : (scan.seek s.labels client scan.ahead).value.row with
    | some r => exact tells_walk_of_some hr []
    | none =>
      have hreport := IndexScan.examined_report_seek hr
      rw [walk]
      refine ⟨?_, ?_, ?_⟩
      · simp [hr, hreport, owed]
      · simp [hr]
      · simp [hr]
  | cons next rest ih =>
    cases hr : (scan.seek s.labels client scan.ahead).value.row with
    | some r => exact tells_walk_of_some hr (next :: rest)
    | none =>
      have hreport := IndexScan.examined_report_seek hr
      obtain ⟨htold, hnone, hsome⟩ :=
        ih (scan.seek s.labels client scan.ahead).value.client next
      rw [walk]
      refine ⟨?_, ?_, ?_⟩
      · simpa [hr, hreport] using htold
      · simpa [hr] using hnone
      · intro hs
        rw [Traced.value_bind, hr] at hs ⊢
        have hless := hsome hs
        rw [List.flatMap_cons, List.length_append]
        exact Nat.lt_of_lt_of_le hless (Nat.le_add_left _ _)

/-- The next row is looked for in the indices that are left. -/
theorem tells_next {s : Scan T} (h : s.remaining = none) : Tells s.owed s.ahead s.next := by
  rw [next, h, if_neg (by simp)]
  cases hc : s.current with
  | some scan =>
    have htells := tells_walk s s.client scan s.pending
    rwa [owed, ahead, hc]
  | none =>
    cases hp : s.pending with
    | nil => exact ⟨rfl, fun _ ↦ ⟨hc, hp⟩, fun hs ↦ by cases hs⟩
    | cons scan rest =>
      have htells := tells_walk s s.client scan rest
      rwa [owed, ahead, hc, hp]

/-- Pulling rows to the end, without a limit, tells of all rows that are met. -/
theorem examined_pull {s : Scan T} {n : Nat} (hr : s.remaining = none) (hn : s.ahead < n) :
    (s.pull n).examined = s.owed ∧ (s.pull n).value.2.current = none := by
  induction n generalizing s with
  | zero => exact absurd hn (Nat.not_lt_zero _)
  | succ n ih =>
    obtain ⟨htold, hnone, hsome⟩ := tells_next hr
    have hsteps := steps_next (s := s) (by rw [hr]; exact nofun)
    rw [pull, Traced.examined_bind, Traced.value_bind]
    obtain ⟨o, s', hv⟩ : ∃ o s', s.next.value = (o, s') := ⟨_, _, rfl⟩
    rw [hv] at htold hnone hsome hsteps ⊢
    cases o with
    | none =>
      obtain ⟨hcurrent, hpending⟩ := hnone rfl
      rw [owed, hcurrent, hpending] at htold
      exact ⟨htold, hcurrent⟩
    | some hit =>
      have hr' : s'.remaining = none := by
        obtain ⟨-, hremaining⟩ := hsteps
        rwa [hr] at hremaining
      obtain ⟨hrest, hcurrent⟩ := ih hr' (Nat.lt_of_lt_of_le (hsome rfl) (Nat.le_of_lt_succ hn))
      refine ⟨?_, hcurrent⟩
      rw [← htold, ← hrest]
      dsimp only
      rw [Traced.examined_bind]
      exact congrArg (s.next.examined ++ ·) (List.append_nil _)

/-- A scan that is run to its end, without a limit, tells of all rows that it meets. -/
theorem examined_run {s : Scan T} (hr : s.remaining = none) : s.run.examined = s.owed := by
  obtain ⟨hpull, hcurrent⟩ := examined_pull hr (Nat.lt_succ_self s.ahead)
  rw [run, Traced.examined_bind]
  have hclose : (s.pull (s.ahead + 1)).value.2.close.examined = [] := by
    rw [close, hcurrent]
    rfl
  simp only [Option.getD_none, Traced.examined_bind, hpull, hclose, Traced.examined_pure,
    List.append_nil]

end Scan

namespace Store

/-- Looking up indices tells nothing of rows. -/
theorem examined_targets (s : Store T) (index : Option Bytes) :
    (s.targets index).examined = [] := by
  cases index with
  | none => rfl
  | some id =>
    rw [targets]
    cases s.indices.find id with
    | ok i => rfl
    | error e => rfl

/-- A query that is run to its end without a limit tells of all rows that it meets, index by
index. -/
theorem examined_query {s : Store T} {q : Query} {o : QueryOptions}
    (h : o.effectiveLimit s.config.defaultLimit = none) :
    (s.query q o).examined =
      (s.targeted o.index).map fun i ↦ (i.id, (IndexScan.start s q i).ahead.length) := by
  have hindex : ∀ i, (IndexScan.start s q i).account =
      (i.id, (IndexScan.start s q i).ahead.length) := by
    intro i
    rw [IndexScan.account, IndexScan.start]
    split <;> simp
  rw [query, Traced.examined_bind, Scan.examined_run h, scan, Traced.examined_bind,
    examined_targets]
  simp only [Traced.value_bind, Traced.value_pure, Traced.examined_pure, Scan.owed,
    Option.toList_none, List.nil_append, List.map_map]
  exact List.map_congr_left fun i _ ↦ hindex i

end Store

end RowVault
