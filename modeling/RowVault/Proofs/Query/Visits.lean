import RowVault.Proofs.Query.Effort
import RowVault.Proofs.Query.Encounters

/-!
# What a scan tells of the rows it meets

A scan visits indices, one after the other, until no row more is wanted. Each visit is written down
as the rows that are met there, with what has become of each. What the sink is told is read off the
visits, wherever the caller or the limit stops: a scan always owes what is due of the visits that
are left, each step pays a part of it, and leaving the scan pays the rest.
-/

namespace RowVault

variable {T : Type}

/-! ## Visits -/

/-- The visit of an index: the rows that are met there. -/
structure Visit (T : Type) where
  index : Bytes
  met : List (Encounter T)

namespace Visit

/-- The hits of a visit. -/
def hits (visit : Visit T) : List (Hit T) :=
  (visit.met.filter (·.fate = .yielded)).map fun m ↦ ⟨visit.index, m.row⟩

/-- What the sink is told of a visit: how many rows were met and yielded, and then, if any were
hidden, how many. -/
def events (visit : Visit T) : List Event :=
  .rowsScanned visit.index visit.met.length (Fate.yielded.count visit.met) ::
    if Fate.hidden.count visit.met = 0 then []
    else [.rowsHidden visit.index (Fate.hidden.count visit.met)]

end Visit

/-- How many rows so many calls for the next one can yield, under a limit, if there is one. -/
def budget : (limit : Option Nat) → (calls : Nat) → Nat
  | none, calls => calls
  | some limit, calls => min calls limit

/-! ## What is told at every stop -/

/-- The visits of scans, one after the other, until so many rows are yielded. -/
def visitEach (labels : Labels) : Nat → List Filter → List (IndexScan T) → List (Visit T)
  | 0, _, _ => []
  | _ + 1, _, [] => []
  | n + 1, client, scan :: rest =>
    let judged := Filter.judge scan.index.model labels (client ++ scan.filters) scan.ahead
    let met := metUntil (n + 1) judged.1
    ⟨scan.index.id, met⟩ ::
      visitEach labels (n + 1 - Fate.yielded.count met) (judged.2.take client.length) rest

/-- If no row is wanted, no index is visited. -/
@[simp] theorem visitEach_zero (labels : Labels) (client : List Filter)
    (scans : List (IndexScan T)) : visitEach labels 0 client scans = [] := by
  cases scans <;> rfl

/-- Without calls no row can be yielded. -/
@[simp] theorem budget_zero (limit : Option Nat) : budget limit 0 = 0 := by
  cases limit with
  | none => rfl
  | some limit => exact Nat.zero_min limit

/-- A row that is yielded is counted against the limit and takes one of the calls. -/
theorem budget_succ {limit : Option Nat} (h : limit ≠ some 0) (calls : Nat) :
    budget limit (calls + 1) = budget (limit.map (· - 1)) calls + 1 := by
  cases limit with
  | none => rfl
  | some limit =>
    cases limit with
    | zero => exact absurd rfl h
    | succ limit => exact Nat.succ_min_succ calls limit

namespace IndexScan

/-- What the sink is told when an index is left, after more rows have been met there. -/
def told (scan : IndexScan T) (met : List (Encounter T)) : List Event :=
  .rowsScanned scan.index.id (scan.scanned + met.length) (scan.yielded + Fate.yielded.count met) ::
    if scan.hidden + Fate.hidden.count met = 0 then []
    else [.rowsHidden scan.index.id (scan.hidden + Fate.hidden.count met)]

/-- No row has been met in an index. -/
structure Fresh (scan : IndexScan T) : Prop where
  scanned : scan.scanned = 0
  hidden : scan.hidden = 0
  yielded : scan.yielded = 0

/-- Of an index that is left at once, the sink is told what has been met. -/
theorem events_report (scan : IndexScan T) : scan.report.events = scan.told [] := by
  rw [report, told, Traced.events_bind, Traced.events_notify]
  by_cases h : 0 < scan.hidden
  · simp [h, Nat.ne_of_gt h]
  · simp [Nat.eq_zero_of_not_pos h]

/-- Of an index that has not been visited before, the sink is told of the visit. -/
theorem Fresh.told {scan : IndexScan T} (h : scan.Fresh) (met : List (Encounter T)) :
    scan.told met = Visit.events ⟨scan.index.id, met⟩ := by
  simp [IndexScan.told, Visit.events, h.scanned, h.hidden, h.yielded]

/-- What a search has met is told with what is met behind it. -/
theorem Meets.told {labels : Labels} {scan : IndexScan T} {client : List Filter}
    {judged : List (Encounter T) × List Filter} {met : List (Encounter T)} {found : Sought T}
    (h : scan.Meets labels client judged met found) (more : List (Encounter T)) :
    found.scan.told more = scan.told (met ++ more) := by
  simp [IndexScan.told, h.index, h.scanned, h.hidden, h.yielded, Nat.add_assoc]

/-- What the sink is still told if so many rows more are yielded in an index and those behind it,
and the scan is left then. -/
def dues (labels : Labels) (n : Nat) (client : List Filter) (scan : IndexScan T)
    (pending : List (IndexScan T)) : List Event :=
  let judged := Filter.judge scan.index.model labels (client ++ scan.filters) scan.ahead
  let met := metUntil n judged.1
  scan.told met ++
    (visitEach labels (n - Fate.yielded.count met) (judged.2.take client.length) pending).flatMap
      Visit.events

/-- In indices that have not been visited, all visits are told of. -/
theorem Fresh.dues {scan : IndexScan T} (h : scan.Fresh) (labels : Labels) (n : Nat)
    (client : List Filter) (pending : List (IndexScan T)) :
    dues labels (n + 1) client scan pending =
      (visitEach labels (n + 1) client (scan :: pending)).flatMap Visit.events := by
  rw [IndexScan.dues, visitEach, List.flatMap_cons, h.told]

section

variable {labels : Labels} {scan : IndexScan T} {client : List Filter}

/-- Where no row is found in an index, it is left, and the indices behind it are visited. -/
theorem dues_of_seek_none (hr : (scan.seek labels client scan.ahead).value.row = none) (n : Nat)
    (pending : List (IndexScan T)) :
    dues labels (n + 1) client scan pending =
      (scan.seek labels client scan.ahead).value.scan.report.events ++
        (visitEach labels (n + 1) (scan.seek labels client scan.ahead).value.client
          pending).flatMap Visit.events := by
  obtain ⟨met, h⟩ := meets_seek labels scan client scan.ahead
  obtain ⟨hmet, hcount, hclient⟩ := h.none hr
  have hall : metUntil (n + 1) met = met := metUntil_of_count_lt (hcount ▸ Nat.succ_pos n)
  rw [dues, hmet, hall, hcount, hclient, events_report, h.told, List.append_nil, Nat.sub_zero]

/-- Where a row is found, one row less is still wanted. -/
theorem dues_of_seek_some {r : StoredRow T}
    (hr : (scan.seek labels client scan.ahead).value.row = some r) (n : Nat)
    (pending : List (IndexScan T)) :
    dues labels (n + 1) client scan pending =
      dues labels n (scan.seek labels client scan.ahead).value.client
        (scan.seek labels client scan.ahead).value.scan pending := by
  obtain ⟨met, h⟩ := meets_seek labels scan client scan.ahead
  obtain ⟨before, rfl, hcount, hjudged⟩ := h.some r hr
  rw [dues, dues, hjudged, metUntil_append hcount, ← h.told, ← h.length, Fate.count_append,
    Fate.count_append, hcount, Nat.add_comm n 1]
  simp only [Fate.count_cons, Fate.count_nil, if_true, Nat.zero_add, Nat.add_sub_add_left]

end

end IndexScan

/-- A result that is changed afterwards comes with the same events. -/
@[simp] theorem Traced.events_map {α β : Type} (f : α → β) (x : Traced α) :
    (f <$> x).events = x.events := by
  rw [← bind_pure_comp, events_bind, events_pure, List.append_nil]

/-- Only the result of the first part of a sequence decides how it goes on. -/
theorem Traced.bind_congr_value {α β : Type} {x : Traced α} {f g : α → Traced β}
    (h : f x.value = g x.value) : x >>= f = x >>= g := by
  change (⟨(f x.value).value, _⟩ : Traced β) = ⟨(g x.value).value, _⟩
  rw [h]

namespace Scan

/-- What the sink is still told if so many rows more are yielded and the scan is left then. -/
def dues (s : Scan T) (n : Nat) : List Event :=
  match s.current with
  | some scan => IndexScan.dues s.labels n s.client scan s.pending
  | none => (visitEach s.labels n s.client s.pending).flatMap Visit.events

/-- Once the limit is reached, there is no next row. -/
theorem next_of_limit {s : Scan T} (h : s.remaining = some 0) : s.next = pure (none, s) := by
  rw [next, if_pos h]

/-- No index is left to be scanned. -/
structure Spent (s : Scan T) : Prop where
  current : s.current = none
  pending : s.pending = []

/-- Walking on without finding a row leaves no index. -/
theorem spent_walk {s : Scan T} {client : List Filter} {scan : IndexScan T}
    {pending : List (IndexScan T)} (h : (s.walk client scan pending).value.1 = none) :
    (s.walk client scan pending).value.2.Spent := by
  induction pending generalizing client scan with
  | nil =>
    rw [walk, Traced.value_bind] at h ⊢
    cases hr : (scan.seek s.labels client scan.ahead).value.row with
    | none => exact ⟨rfl, rfl⟩
    | some r =>
      rw [hr] at h
      cases h
  | cons next rest ih =>
    rw [walk, Traced.value_bind] at h ⊢
    cases hr : (scan.seek s.labels client scan.ahead).value.row with
    | none =>
      rw [hr] at h
      exact ih h
    | some r =>
      rw [hr] at h
      cases h

/-- Looking for a row without finding one leaves no index, unless the limit is reached. -/
theorem spent_next {s : Scan T} (h0 : s.remaining ≠ some 0) (h : s.next.value.1 = none) :
    s.next.value.2.Spent := by
  rw [next, if_neg h0] at h ⊢
  cases hc : s.current with
  | some scan =>
    rw [hc] at h
    exact spent_walk h
  | none =>
    cases hp : s.pending with
    | nil => exact ⟨hc, hp⟩
    | cons scan rest =>
      rw [hc, hp] at h
      exact spent_walk h

/-- A scan without indices yields nothing. -/
theorem Spent.next {s : Scan T} (h : s.Spent) : s.next = pure (none, s) := by
  rw [Scan.next, h.current, h.pending]
  split <;> rfl

/-- What a step of a scan does if one row more is wanted than otherwise: what it tells and what is
still told afterwards is what was to be told before. -/
structure Pays (due : Nat → List Event) (step : Traced (Option (Hit T) × Scan T)) : Prop where
  none : step.value.1 = none → ∀ n, due (n + 1) = step.events
  some : step.value.1.isSome → (∀ scan ∈ step.value.2.pending, scan.Fresh) ∧
    ∀ n, due (n + 1) = step.events ++ step.value.2.dues n

/-- It matters only what is due while rows are wanted. -/
theorem Pays.congr {due due' : Nat → List Event} {step : Traced (Option (Hit T) × Scan T)}
    (h : Pays due step) (hdue : ∀ n, due' (n + 1) = due (n + 1)) : Pays due' step where
  none hn n := (hdue n).trans (h.none hn n)
  some hs :=
    have ⟨hpending, hpaid⟩ := h.some hs
    ⟨hpending, fun n ↦ (hdue n).trans (hpaid n)⟩

private theorem pays_walk_of_some {s : Scan T} {client : List Filter} {scan : IndexScan T}
    {r : StoredRow T} (hr : (scan.seek s.labels client scan.ahead).value.row = some r)
    {pending : List (IndexScan T)} (hfresh : ∀ scan ∈ pending, scan.Fresh) :
    Pays (fun n ↦ IndexScan.dues s.labels n client scan pending) (s.walk client scan pending) := by
  have hdues := fun n ↦ IndexScan.dues_of_seek_some hr n pending
  unfold walk
  refine ⟨?_, ?_⟩
  · simp [hr]
  · simpa [hr, dues, IndexScan.events_seek, hdues] using hfresh

/-- Walking on from an index tells what is due there and in the indices that are left. -/
theorem pays_walk (s : Scan T) (client : List Filter) (scan : IndexScan T)
    {pending : List (IndexScan T)} (hfresh : ∀ scan ∈ pending, scan.Fresh) :
    Pays (fun n ↦ IndexScan.dues s.labels n client scan pending) (s.walk client scan pending) := by
  induction pending generalizing client scan with
  | nil =>
    cases hr : (scan.seek s.labels client scan.ahead).value.row with
    | some r => exact pays_walk_of_some hr hfresh
    | none =>
      have hdues := fun n ↦ IndexScan.dues_of_seek_none hr n []
      rw [walk]
      refine ⟨?_, ?_⟩
      · simp [hr, IndexScan.events_seek, hdues, visitEach]
      · simp [hr]
  | cons next rest ih =>
    cases hr : (scan.seek s.labels client scan.ahead).value.row with
    | some r => exact pays_walk_of_some hr hfresh
    | none =>
      obtain ⟨hnext, hrest⟩ := List.forall_mem_cons.mp hfresh
      obtain ⟨hnone, hsome⟩ := ih (scan.seek s.labels client scan.ahead).value.client next hrest
      have hdues := fun n ↦ IndexScan.dues_of_seek_none hr n (next :: rest)
      simp only [← hnext.dues] at hdues
      rw [walk]
      refine ⟨?_, ?_⟩
      · simp only [Traced.value_bind, Traced.events_bind, hr, IndexScan.events_seek,
          List.nil_append, hdues]
        exact fun hn n ↦ congrArg _ (hnone hn n)
      · simp only [Traced.value_bind, Traced.events_bind, hr, IndexScan.events_seek,
          List.nil_append, hdues, List.append_assoc]
        intro hs
        obtain ⟨hpending, hdue⟩ := hsome hs
        exact ⟨hpending, fun n ↦ congrArg _ (hdue n)⟩

/-- Looking for the next row tells what is due. -/
theorem pays_next {s : Scan T} (h : s.remaining ≠ some 0)
    (hfresh : ∀ scan ∈ s.pending, scan.Fresh) : Pays s.dues s.next := by
  rw [next, if_neg h]
  cases hc : s.current with
  | some scan =>
    refine (pays_walk s s.client scan hfresh).congr fun n ↦ ?_
    rw [dues, hc]
  | none =>
    have hdues : ∀ n,
        s.dues n = (visitEach s.labels n s.client s.pending).flatMap Visit.events := by
      intro n
      rw [dues, hc]
    cases hp : s.pending with
    | nil =>
      refine ⟨fun _ n ↦ ?_, fun hs ↦ absurd hs Bool.false_ne_true⟩
      rw [hdues, hp]
      rfl
    | cons scan rest =>
      rw [hp] at hfresh
      obtain ⟨hscan, hrest⟩ := List.forall_mem_cons.mp hfresh
      refine (pays_walk s s.client scan hrest).congr fun n ↦ ?_
      rw [hdues, hp, hscan.dues]

/-- Leaving a scan tells what is due if no row more is wanted. -/
theorem events_close (s : Scan T) : s.close.events = s.dues 0 := by
  rw [close, dues]
  cases s.current with
  | none => simp
  | some scan => simp [IndexScan.dues, IndexScan.events_report]

/-- Pulling rows and leaving the scan then tells what is due, wherever the caller or the limit
stops. -/
theorem events_pull_close {s : Scan T} (hfresh : ∀ scan ∈ s.pending, scan.Fresh) (n : Nat) :
    (s.pull n).events ++ (s.pull n).value.2.close.events = s.dues (budget s.remaining n) := by
  induction n generalizing s with
  | zero =>
    rw [budget_zero, ← events_close]
    rfl
  | succ n ih =>
    by_cases h0 : s.remaining = some 0
    · rw [h0, budget, Nat.min_zero, ← events_close, pull, next_of_limit h0]
      rfl
    · obtain ⟨hnone, hsome⟩ := pays_next h0 hfresh
      have hsteps := steps_next h0
      rw [budget_succ h0, pull, Traced.events_bind, Traced.value_bind]
      have hspent := spent_next h0
      obtain ⟨o, s', hv⟩ : ∃ o s', s.next.value = (o, s') := ⟨_, _, rfl⟩
      rw [hv] at hnone hsome hsteps hspent ⊢
      cases o with
      | none =>
        have hclose : s'.close = pure () := by rw [close, (hspent rfl).current]
        rw [hnone rfl]
        simp [hclose]
      | some hit =>
        obtain ⟨hpending, hpaid⟩ := hsome rfl
        have hremaining : s'.remaining = s.remaining.map (· - 1) := hsteps.2
        rw [hpaid, ← hremaining, ← ih hpending]
        simp

/-! ## Calls behind the last row -/

/-- What so many calls for the next row give, whether or not there is one; then the scan is left. -/
def calls (s : Scan T) : Nat → Traced (List (Option (Hit T)))
  | 0 => do
    s.close
    pure []
  | n + 1 => do
    let (hit, s) ← s.next
    let more ← s.calls n
    pure (hit :: more)

/-- Once there is no next row, there is none any more, and nothing is told. -/
theorem next_next_of_none {s : Scan T} (h : s.next.value.1 = none) :
    s.next.value.2.next = pure (none, s.next.value.2) := by
  by_cases h0 : s.remaining = some 0
  · have hnext := next_of_limit h0
    rw [hnext]
    exact hnext
  · exact (spent_next h0 h).next

/-- If there is no next row, calls for it are in vain and change nothing. -/
theorem calls_of_next_eq {s : Scan T} (h : s.next = pure (none, s)) (n : Nat) :
    s.calls n = s.close >>= fun _ ↦ pure (List.replicate n none) := by
  induction n with
  | zero => rfl
  | succ n ih =>
    rw [calls, h, pure_bind]
    dsimp only
    rw [ih, bind_assoc]
    rfl

/-- Calls give the rows that are pulled, and behind the last one they are in vain. -/
theorem calls_eq (s : Scan T) (n : Nat) :
    s.calls n = s.pull n >>= fun pulled ↦ pulled.2.close >>= fun _ ↦
      pure (pulled.1.map some ++ List.replicate (n - pulled.1.length) none) := by
  induction n generalizing s with
  | zero => rfl
  | succ n ih =>
    have hnone := next_next_of_none (s := s)
    rw [calls, pull, bind_assoc]
    refine Traced.bind_congr_value ?_
    obtain ⟨o, s', hv⟩ : ∃ o s', s.next.value = (o, s') := ⟨_, _, rfl⟩
    rw [hv] at hnone ⊢
    cases o with
    | none =>
      simp only [calls_of_next_eq (hnone rfl), bind_assoc, pure_bind]
      rfl
    | some hit =>
      simp only [ih, bind_assoc, pure_bind]
      simp only [List.map_cons, List.length_cons, Nat.add_sub_add_right, List.cons_append]

/-- Calls tell what is due, wherever the caller or the limit stops. -/
theorem events_calls {s : Scan T} (hfresh : ∀ scan ∈ s.pending, scan.Fresh) (n : Nat) :
    (s.calls n).events = s.dues (budget s.remaining n) := by
  rw [calls_eq, Traced.events_bind, Traced.events_bind, Traced.events_pure, List.append_nil]
  exact events_pull_close hfresh n

end Scan

end RowVault
