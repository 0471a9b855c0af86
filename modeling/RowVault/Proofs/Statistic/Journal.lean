import RowVault.Proofs.Statistic.Balance

/-!
# The journal of a ledger

A store remembers the calls that were made to it, and the host decides each of them by those before
it. So what was merged, refused and rejected can be read off the store, at any time. A ledger that
hands changes to its store parks those that are refused, in their order, and nothing else; and as
long as the total of a key stays in its range, it grows by what is merged.
-/

namespace RowVault

/-! ## Answers of the host -/

namespace Verdict

/-- The change is merged, if it is of the right kind. -/
def isMerge : Verdict → Bool
  | merge => true
  | _ => false

/-- The change is refused for now. -/
def isRefuse : Verdict → Bool
  | refuse _ => true
  | _ => false

/-- The change is rejected for good. -/
def isReject : Verdict → Bool
  | reject _ _ => true
  | _ => false

end Verdict

/-- The change that a call hands over. -/
def StatisticCall.change (c : StatisticCall) : ParkedDelta := ⟨c.key.adapter, c.delta⟩

/-- The changes that were answered in a certain way. -/
def picked (p : Verdict → Bool) (answers : List (StatisticCall × Verdict)) : List ParkedDelta :=
  (answers.filter fun (_, v) ↦ p v).map fun (c, _) ↦ c.change

/-- Changes are picked in the order of the calls. -/
@[simp] theorem picked_append (p : Verdict → Bool) (a b : List (StatisticCall × Verdict)) :
    picked p (a ++ b) = picked p a ++ picked p b := by
  rw [picked, List.filter_append, List.map_append]
  rfl

/-- The change of the first call is picked if its verdict is one of those asked for. -/
theorem picked_cons (p : Verdict → Bool) (c : StatisticCall) (v : Verdict)
    (rest : List (StatisticCall × Verdict)) :
    picked p ((c, v) :: rest) = (if p v then [c.change] else []) ++ picked p rest := by
  unfold picked
  by_cases h : p v <;> simp [h]

/-- Each change is answered in one of three ways. -/
theorem perm_picked (answers : List (StatisticCall × Verdict)) :
    (picked Verdict.isMerge answers ++ picked Verdict.isReject answers ++
      picked Verdict.isRefuse answers).Perm (answers.map (·.1.change)) := by
  induction answers with
  | nil => exact .refl _
  | cons answer rest ih =>
    obtain ⟨c, v⟩ := answer
    simp only [picked_cons, List.map_cons]
    cases v with
    | merge => exact ih.cons c.change
    | reject expected found => exact (List.perm_middle.append_right _).trans (ih.cons c.change)
    | refuse reason => exact List.perm_middle.trans (ih.cons c.change)

namespace StatisticsStore

variable {s : StatisticsStore} {before calls more : List StatisticCall}

/-- What the host makes of calls, one after the other. Those before them come last first. -/
def answers (s : StatisticsStore) (before : List StatisticCall) :
    List StatisticCall → List (StatisticCall × Verdict)
  | [] => []
  | c :: rest => (c, s.verdict before c) :: s.answers (c :: before) rest

/-- Later calls are answered with a view to the earlier ones. -/
theorem answers_append (s : StatisticsStore) (before calls more : List StatisticCall) :
    s.answers before (calls ++ more) =
      s.answers before calls ++ s.answers (calls.reverse ++ before) more := by
  induction calls generalizing before with
  | nil => rfl
  | cons c rest ih =>
    rw [List.cons_append, answers, ih, answers, List.reverse_cons, List.append_assoc]
    rfl

/-- The answers depend on the verdicts of the host only. -/
theorem answers_congr {t : StatisticsStore} (h : t.verdict = s.verdict)
    (before calls : List StatisticCall) : t.answers before calls = s.answers before calls := by
  induction calls generalizing before with
  | nil => rfl
  | cons c rest ih => rw [answers, answers, ih, h]

/-- Each call is answered. -/
theorem map_fst_answers (s : StatisticsStore) (before calls : List StatisticCall) :
    (s.answers before calls).map (·.1) = calls := by
  induction calls generalizing before with
  | nil => rfl
  | cons c rest ih => rw [answers, List.map_cons, ih]

/-- The calls so far, first first, each with what the host has made of it. -/
def journal (s : StatisticsStore) : List (StatisticCall × Verdict) := s.answers [] s.calls.reverse

/-- The changes that were merged so far. -/
def merged (s : StatisticsStore) : List ParkedDelta := picked Verdict.isMerge s.journal

/-- The changes that were rejected so far. -/
def rejected (s : StatisticsStore) : List ParkedDelta := picked Verdict.isReject s.journal

end StatisticsStore

/-! ## Handing changes in -/

namespace Ledger

variable {l m n : Ledger} {p : ParkedDelta} {changes more : List ParkedDelta}

/-- What the host would make of changes that are handed in one after the other. -/
def answers (l : Ledger) (changes : List ParkedDelta) : List (StatisticCall × Verdict) :=
  l.store.answers l.store.calls (changes.map ParkedDelta.call)

/-- Each change is answered. -/
theorem map_change_answers (l : Ledger) (changes : List ParkedDelta) :
    (l.answers changes).map (·.1.change) = changes := by
  have hcalls := l.store.map_fst_answers l.store.calls (changes.map ParkedDelta.call)
  have hmap : (l.answers changes).map (·.1.change) =
      ((l.answers changes).map (·.1)).map StatisticCall.change := by
    rw [List.map_map]
    rfl
  rw [hmap, answers, hcalls, List.map_map]
  exact List.map_id changes

/-- Totals have grown by changes along each axis, if they stay in their range all the time. -/
def Grows (l m : Ledger) (changes : List ParkedDelta) : Prop :=
  ∀ c a,
    (∀ earlier, earlier <+: changes →
      InRange ((l.total c).weight a + Statistic.net (ParkedDelta.changesOf c earlier) a)) →
    (m.total c).weight a =
      (l.total c).weight a + Statistic.net (ParkedDelta.changesOf c changes) a

/-- Without changes, totals stay. -/
theorem Grows.of_total_eq (h : ∀ c, m.total c = l.total c) : Grows l m [] := by
  intro c a _
  rw [h, ParkedDelta.changesOf_nil, Statistic.net_nil, Int.add_zero]

/-- Totals grow by one change after the other. -/
theorem Grows.trans (h : Grows l m changes) (h' : Grows m n more) :
    Grows l n (changes ++ more) := by
  intro c a hrange
  have hfirst := h c a fun earlier hearlier ↦
    hrange earlier (hearlier.trans (List.prefix_append _ _))
  have hsecond := h' c a fun earlier hearlier ↦ by
    have hall := hrange _ ((List.prefix_append_right_inj changes).mpr hearlier)
    rw [ParkedDelta.changesOf_append, Statistic.net_append, ← Int.add_assoc] at hall
    rwa [hfirst]
  rw [hsecond, hfirst, ParkedDelta.changesOf_append, Statistic.net_append, Int.add_assoc]

/-- A ledger has handed in changes: the store has been called with them and with nothing else, what
it has refused is parked, and what it has merged is in the totals. -/
structure Hands (l m : Ledger) (changes : List ParkedDelta) : Prop where
  kinded : m.Kinded
  verdict_eq : m.store.verdict = l.store.verdict
  calls_eq : m.store.calls = (changes.map ParkedDelta.call).reverse ++ l.store.calls
  backlog_eq : m.backlog = l.backlog ++ picked Verdict.isRefuse (l.answers changes)
  grows : Grows l m (picked Verdict.isMerge (l.answers changes))

namespace Hands

/-- The answers to later changes come after those to the earlier ones. -/
theorem answers_append (h : Hands l m changes) (more : List ParkedDelta) :
    l.answers (changes ++ more) = l.answers changes ++ m.answers more := by
  rw [answers, List.map_append, StatisticsStore.answers_append, ← h.calls_eq,
    ← StatisticsStore.answers_congr h.verdict_eq m.store.calls]
  rfl

/-- The journal goes on with the answers to the changes. -/
theorem journal_eq (h : Hands l m changes) :
    m.store.journal = l.store.journal ++ l.answers changes := by
  rw [StatisticsStore.journal, StatisticsStore.answers_congr h.verdict_eq, h.calls_eq,
    List.reverse_append, List.reverse_reverse, StatisticsStore.answers_append,
    List.reverse_reverse, List.append_nil]
  rfl

/-- Nothing is handed in. -/
theorem refl (h : l.Kinded) : Hands l l [] where
  kinded := h
  verdict_eq := rfl
  calls_eq := rfl
  backlog_eq := (List.append_nil _).symm
  grows := .of_total_eq fun _ ↦ rfl

/-- Changes are handed in one after the other. -/
theorem trans (h : Hands l m changes) (h' : Hands m n more) : Hands l n (changes ++ more) where
  kinded := h'.kinded
  verdict_eq := h'.verdict_eq.trans h.verdict_eq
  calls_eq := by
    rw [h'.calls_eq, h.calls_eq, List.map_append, List.reverse_append, List.append_assoc]
  backlog_eq := by
    rw [h'.backlog_eq, h.backlog_eq, h.answers_append, picked_append, List.append_assoc]
  grows := by
    rw [h.answers_append, picked_append]
    exact h.grows.trans h'.grows

end Hands

/-- A single change is answered by the verdict of the host. -/
theorem answers_singleton (l : Ledger) (p : ParkedDelta) :
    l.answers [p] = [(p.call, l.store.verdict l.store.calls p.call)] := rfl

/-- A change that is merged is added to the total of its key. -/
theorem Kinded.hands_merged {u : Statistic} (h : l.Kinded)
    (hv : l.store.verdict l.store.calls p.call = .merge)
    (hu : (l.total p.key).merge p.delta = .ok u) : Hands l (l.merged p u) [p] where
  kinded := h.merged hu
  verdict_eq := rfl
  calls_eq := rfl
  backlog_eq := by
    rw [answers_singleton, hv]
    exact (List.append_nil _).symm
  grows := by
    have hpicked : picked Verdict.isMerge (l.answers [p]) = [p] := by
      rw [answers_singleton, hv]
      rfl
    rw [hpicked]
    intro c a hrange
    have hall := hrange [p] (List.prefix_refl [p])
    rw [total_merged]
    rw [ParkedDelta.changesOf_cons] at hall ⊢
    by_cases hk : p.key = c
    · subst hk
      simp only [if_true, ParkedDelta.changesOf_nil, List.append_nil, Statistic.net_cons,
        Statistic.net_nil, Int.add_zero] at hall ⊢
      exact Statistic.weight_merge hu a hall
    · simp [hk]

/-- A change that is refused is parked. -/
theorem Kinded.hands_refused {reason : String} (h : l.Kinded)
    (hv : l.store.verdict l.store.calls p.call = .refuse reason) : Hands l (l.refused p) [p] where
  kinded := h
  verdict_eq := rfl
  calls_eq := rfl
  backlog_eq := by
    rw [answers_singleton, hv]
    rfl
  grows := by
    rw [answers_singleton, hv]
    exact .of_total_eq fun _ ↦ rfl

/-- A change that is rejected is dropped. -/
theorem Kinded.hands_rejected {expected found : StatisticKind} (h : l.Kinded)
    (hv : l.store.verdict l.store.calls p.call = .reject expected found) :
    Hands l (l.rejected p) [p] where
  kinded := h
  verdict_eq := rfl
  calls_eq := rfl
  backlog_eq := by
    rw [answers_singleton, hv]
    exact (List.append_nil _).symm
  grows := by
    rw [answers_singleton, hv]
    exact .of_total_eq fun _ ↦ rfl

/-- A single change is handed in, whatever the host makes of it. -/
theorem Kinded.hands_applyOrPark (h : l.Kinded) (p : ParkedDelta) :
    Hands l (l.applyOrPark p.adapter p.delta).2 [p] := by
  rcases h.applyOrPark_cases p with
    ⟨u, hv, hu, he⟩ | ⟨reason, hv, he⟩ | ⟨expected, found, hv, he⟩
  · rw [he]
    exact h.hands_merged hv hu
  · rw [he]
    exact h.hands_refused hv
  · rw [he]
    exact h.hands_rejected hv

/-- The first of several changes is answered at once, the others after it. -/
theorem Kinded.answers_cons (h : l.Kinded) (p : ParkedDelta) (rest : List ParkedDelta) :
    l.answers (p :: rest) = (p.call, l.store.verdict l.store.calls p.call) ::
      (l.applyOrPark p.adapter p.delta).2.answers rest :=
  (h.hands_applyOrPark p).answers_append rest

/-! ## Retries -/

/-- All parked changes are handed in again. -/
theorem Kinded.hands_retryEach (h : l.Kinded) (changes : List ParkedDelta) :
    Hands l (l.retryEach changes).value changes := by
  induction changes generalizing l with
  | nil => exact .refl h
  | cons p rest ih =>
    have hp := h.hands_applyOrPark p
    rw [value_retryEach_cons]
    exact hp.trans (ih hp.kinded)

/-- A retry hands in what is parked, and parks anew what is refused again. -/
theorem Kinded.hands_retryBacklog (h : l.Kinded) :
    Hands { l with backlog := [] } l.retryBacklog.value l.backlog := by
  have hempty : Kinded { l with backlog := [] } := h
  rw [value_retryBacklog]
  exact hempty.hands_retryEach l.backlog

/-- Each change that is rejected when it is handed in again is reported. -/
theorem Kinded.events_retryEach (h : l.Kinded) (changes : List ParkedDelta) :
    (l.retryEach changes).events =
      (picked Verdict.isReject (l.answers changes)).map fun p ↦
        .statisticsFlushFailed p.adapter := by
  induction changes generalizing l with
  | nil => rfl
  | cons p rest ih =>
    have hrest := ih (h.hands_applyOrPark p).kinded
    rw [h.answers_cons, picked_cons, List.map_append, ← hrest, retryEach]
    rcases h.applyOrPark_cases p with
      ⟨u, hv, -, he⟩ | ⟨reason, hv, he⟩ | ⟨expected, found, hv, he⟩
    · rw [he, hv]
      rfl
    · rw [he, hv]
      rfl
    · rw [he, hv]
      simp only [Traced.events_bind, Traced.events_log, Traced.events_notify, List.nil_append]
      rfl

/-- A retry reports the changes that are rejected, and nothing else. -/
theorem Kinded.events_retryBacklog (h : l.Kinded) :
    l.retryBacklog.events =
      (picked Verdict.isReject (l.answers l.backlog)).map fun p ↦
        .statisticsFlushFailed p.adapter := by
  have hempty : Kinded { l with backlog := [] } := h
  have hevents := hempty.events_retryEach l.backlog
  rw [retryBacklog, Traced.events_bind, hevents]
  dsimp only
  split
  · rw [Traced.events_bind, Traced.events_log]
    exact List.append_nil _
  · exact List.append_nil _

end Ledger

/-! ## Flushes -/

namespace Tally

variable {l : Ledger}

/-- The changes that a tally hands in: those that are not empty. -/
def handed (t : Tally) : List ParkedDelta :=
  (t.deltas.filter fun delta ↦ !delta.isEmpty).map fun delta ↦ ⟨t.adapter, delta⟩

/-- The first delta is handed in unless it is empty. -/
theorem handed_cons (adapter : Bytes) (delta : Statistic) (rest : List Statistic) :
    handed ⟨adapter, delta :: rest⟩ =
      if delta.isEmpty then handed ⟨adapter, rest⟩
      else ⟨adapter, delta⟩ :: handed ⟨adapter, rest⟩ := by
  unfold handed
  by_cases h : delta.isEmpty <;> simp [h]

/-- A tally hands in its changes that are not empty. -/
theorem hands_handIn (h : l.Kinded) (adapter : Bytes) (deltas : List Statistic) :
    l.Hands (handIn adapter l deltas).ledger (handed ⟨adapter, deltas⟩) := by
  induction deltas generalizing l with
  | nil => exact .refl h
  | cons delta rest ih =>
    rw [ledger_handIn_cons, handed_cons]
    by_cases he : delta.isEmpty
    · rw [if_pos he, if_pos he]
      exact ih h
    · have hp := h.hands_applyOrPark ⟨adapter, delta⟩
      rw [if_neg he, if_neg he]
      exact hp.trans (ih hp.kinded)

/-- The merged changes are counted, and any other one leaves an error. -/
theorem counts_handIn (h : l.Kinded) (adapter : Bytes) (deltas : List Statistic) :
    (handIn adapter l deltas).applied =
        (picked Verdict.isMerge (l.answers (handed ⟨adapter, deltas⟩))).length ∧
      (handIn adapter l deltas).error.isSome =
        (l.answers (handed ⟨adapter, deltas⟩)).any fun (_, v) ↦ !v.isMerge := by
  induction deltas generalizing l with
  | nil => exact ⟨rfl, rfl⟩
  | cons delta rest ih =>
    rw [handIn, handed_cons]
    by_cases hempty : delta.isEmpty
    · rw [if_pos hempty, if_pos hempty]
      exact ih h
    · rw [if_neg hempty, if_neg hempty, h.answers_cons, picked_cons, List.any_cons]
      obtain ⟨happlied, herror⟩ := ih (h.hands_applyOrPark ⟨adapter, delta⟩).kinded
      rcases h.applyOrPark_cases ⟨adapter, delta⟩ with
        ⟨u, hv, -, he⟩ | ⟨reason, hv, he⟩ | ⟨expected, found, hv, he⟩
      · rw [he] at happlied herror ⊢
        rw [hv]
        exact ⟨congrArg (· + 1) happlied, herror⟩
      · rw [he] at happlied herror ⊢
        rw [hv]
        exact ⟨happlied, rfl⟩
      · rw [he] at happlied herror ⊢
        rw [hv]
        exact ⟨happlied, rfl⟩

/-- A flush reports how many changes were merged, if any were, and that others were not. -/
theorem events_flush (h : l.Kinded) (t : Tally) :
    let answers := l.answers t.handed
    let merged := (picked Verdict.isMerge answers).length
    (t.flush l).events =
      (if 0 < merged then [.statisticsFlushed t.adapter merged] else []) ++
        if answers.any fun (_, v) ↦ !v.isMerge then [.statisticsFlushFailed t.adapter] else [] := by
  obtain ⟨happlied, herror⟩ := counts_handIn h t.adapter t.deltas
  rw [flush]
  dsimp only
  rw [happlied, herror]
  split <;> split <;> rfl

/-- Closing reports what the last flush reports. -/
theorem events_close (l : Ledger) (t : Tally) : (t.close l).events = (t.flush l).events := by
  rw [close, Traced.events_bind]
  split
  · exact List.append_nil _
  · rw [Traced.events_bind, Traced.events_log]
    exact List.append_nil _

/-- Nothing is empty that is handed in by a tally that has just begun. -/
theorem handIn_start (l : Ledger) (adapter : Bytes) (kinds : List StatisticKind) :
    handIn adapter l (kinds.map .empty) = ⟨0, none, l⟩ := by
  induction kinds with
  | nil => rfl
  | cons kind rest ih =>
    rw [List.map_cons, handIn, if_pos (Statistic.isEmpty_empty kind)]
    exact ih

/-- A tally that has just begun hands nothing in. -/
theorem flush_start (l : Ledger) (adapter : Bytes) (kinds : List StatisticKind) :
    (start adapter kinds).flush l = pure ⟨none, l, start adapter kinds⟩ := by
  rw [flush, start, handIn_start]
  simp only [List.map_map, Function.comp_def, Statistic.kind_empty, List.map_id']
  rfl

end Tally

/-! ## Stores that merge everything -/

/-- Each call is answered with a view to some calls. -/
theorem StatisticsStore.verdict_of_mem_answers {s : StatisticsStore}
    {before calls : List StatisticCall} {answer : StatisticCall × Verdict}
    (h : answer ∈ s.answers before calls) : ∃ earlier, answer.2 = s.verdict earlier answer.1 := by
  induction calls generalizing before with
  | nil => cases h
  | cons c rest ih =>
    rcases List.mem_cons.mp h with rfl | h
    · exact ⟨before, rfl⟩
    · exact ih h

namespace Ledger

variable {l m : Ledger} {changes : List ParkedDelta}

/-- The store merges every change, and nothing is parked. -/
structure Merging (l : Ledger) : Prop where
  kinded : l.Kinded
  verdict_eq : ∀ before call, l.store.verdict before call = .merge
  backlog_eq : l.backlog = []

namespace Merging

/-- Nothing that is handed in is parked. -/
theorem hands (h : l.Merging) (hm : Hands l m changes) : m.Merging where
  kinded := hm.kinded
  verdict_eq := by
    rw [hm.verdict_eq]
    exact h.verdict_eq
  backlog_eq := by
    have hnone : picked Verdict.isRefuse (l.answers changes) = [] := by
      rw [picked, List.map_eq_nil_iff, List.filter_eq_nil_iff]
      intro answer ha
      obtain ⟨earlier, he⟩ := StatisticsStore.verdict_of_mem_answers ha
      simp [he, h.verdict_eq, Verdict.isRefuse]
    rw [hm.backlog_eq, h.backlog_eq, hnone]
    rfl

/-- Nothing is handed in again when a tally begins, and a tally that is closed leaves nothing
parked. -/
theorem close_openOn (h : l.Merging) (adapter : Bytes) (kinds : List StatisticKind) (t : Tally) :
    (t.close (Tally.openOn l adapter kinds).value.1).value.Merging := by
  have hopen : (Tally.openOn l adapter kinds).value.1 = l := by
    rw [Tally.openOn, if_pos h.backlog_eq]
    rfl
  rw [hopen, Tally.value_close]
  exact h.hands (Tally.hands_handIn h.kinded t.adapter t.deltas)

/-- Totals are where their keys stand. -/
theorem standing_eq (h : l.Merging) (c : StatisticKey) : l.standing c = .ok (l.total c) := by
  rw [standing, parked, h.backlog_eq]
  rfl

end Merging

end Ledger

end RowVault
