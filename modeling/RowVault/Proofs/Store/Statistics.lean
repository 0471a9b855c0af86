import Mathlib.Logic.Function.Iterate
import RowVault.Proofs.Store.Bookkeeping
import RowVault.Proofs.Store.Refusals
import RowVault.Scripted.Entry

/-!
# Statistics follow the rows

After any history of steady calls, and whatever changes the statistics store has refused on the way,
the total of each key merges with the changes that are parked for it to the statistic that a recount
of the owners gives. An adapter's kind is counted as often as the adapter lists it.
-/

namespace RowVault.Store

variable {T : Type} {s : Store T} {missed : Bytes → List EntryInfo}

/-- The statistic of a key that is obtained from nothing by observing each entry that owns rows of
its adapter, so many times. -/
def recount (s : Store T) (times : Nat) (c : StatisticKey) : Statistic :=
  ((s.ownerInfos c.adapter).flatMap (.replicate times)).foldl (fun total i ↦ total.ingested i)
    (.empty c.kind)

/-- A recount observes the owners. -/
theorem recount_eq (s : Store T) (times : Nat) (c : StatisticKey) :
    s.recount times c = (Statistic.empty c.kind).ingestedEach times (s.ownerInfos c.adapter) :=
  rfl

/-- A key that is balanced but for what was missed gets to a recount by observing what was missed,
if each entry is observed as often as its adapter lists the kind. -/
theorem BalancedBut.exists_standing (h : s.BalancedBut missed) {c : StatisticKey}
    (hc : 2 * s.filed * s.listed c < 2 ^ 63) :
    ∃ standing, s.ledger.standing c = .ok standing ∧
      standing.ingestedEach (s.listed c) (missed c.adapter) = s.recount (s.listed c) c := by
  have hbalance := h.balance c hc
  obtain ⟨standing, hstanding, hkind, hcanonical, hweight⟩ := h.sane.standing_eq (c := c) fun a ↦ by
    have hvolume := (hbalance a).volume_le
    omega
  obtain ⟨hk, hcan⟩ := hcanonical.ingestedEach (s.listed c) (missed c.adapter)
  obtain ⟨hk', hcan'⟩ := (Statistic.canonical_empty c.kind).ingestedEach (s.listed c)
    (s.ownerInfos c.adapter)
  refine ⟨standing, hstanding, hcan.ext hcan' ?_ ?_⟩
  · exact (hk.trans hkind).trans (hk'.trans (Statistic.kind_empty c.kind)).symm
  · intro a
    obtain ⟨hsum, hvolume⟩ := hbalance a
    have hbound : (s.ledger.sum c a).natAbs ≤ s.ledger.volume c a := Statistic.natAbs_net_le _ a
    rw [Nat.mul_add] at hvolume
    have hleft := standing.weight_ingestedEach (s.listed c) (missed c.adapter) a (by
      rw [hweight]
      omega)
    have hright := (Statistic.empty c.kind).weight_ingestedEach (s.listed c)
      (s.ownerInfos c.adapter) a (by
        rw [Statistic.weight_empty]
        omega)
    rw [hleft, hweight, hkind, hsum, recount_eq, hright, Statistic.weight_empty,
      Statistic.kind_empty, Int.zero_add]

/-- A key that is balanced stands where a recount gets to, if each owner is observed as often as its
adapter lists the kind. -/
theorem Balanced.standing_eq (h : s.Balanced) {c : StatisticKey}
    (hc : 2 * s.filed * s.listed c < 2 ^ 63) :
    s.ledger.standing c = .ok (s.recount (s.listed c) c) := by
  obtain ⟨standing, hstanding, hrecount⟩ := BalancedBut.exists_standing h hc
  rw [hstanding, ← hrecount, Statistic.ingestedEach_nil]

/-- Statistics never drift from the rows. After any history of steady calls on a store whose
statistics store merges or refuses each change, every key whose numbers stay in range stands where a
recount of the owners gets to, if each of them is observed as often as its adapter lists the kind;
and the replies and the rows are those of a store with any other statistics store. -/
theorem statistics_follow_rows (config : Config)
    {verdict : List StatisticCall → StatisticCall → Verdict}
    (hverdict : ∀ before call expected found, verdict before call ≠ .reject expected found)
    {calls : List (Call T)} (hcalls : ∀ c ∈ calls, c.Steady) :
    let s := (fresh config { verdict } : Store T).after calls
    (∀ c, 2 * s.filed * s.listed c < 2 ^ 63 →
        s.ledger.standing c = .ok (s.recount (s.listed c) c)) ∧
      ∀ statistics, let t := (fresh config statistics : Store T).after calls
        (fresh config { verdict } : Store T).replies calls =
            (fresh config statistics : Store T).replies calls ∧
          ∀ index, s.rowsOf index = t.rowsOf index := by
  intro s
  constructor
  · intro c hc
    have hbalanced : s.Balanced := (balanced_fresh hverdict).after (wf_fresh _ _) hcalls
    exact hbalanced.standing_eq hc
  · intro statistics t
    have hfresh : (fresh config { verdict } : Store T).SameRows (fresh config statistics) :=
      ⟨rfl, rfl, rfl, rfl, fun _ ↦ rfl⟩
    obtain ⟨hreplies, hsame⟩ := hfresh.after (wf_fresh _ _) (wf_fresh _ _) calls
    exact ⟨hreplies, hsame.rows⟩

/-! ## A history with refusals -/

private def numberAdapter (kinds : List StatisticKind) : Adapter (Bytes × Int64) where
  id := [0x61]
  encode entry _ :=
    { adapter := [0x61]
      data := entry.1
      common := .ofList []
      extended := .ofList [⟨[0x66], .int entry.2⟩] }
  writer? _ := some ({} : ValueCodec).writer
  reader? _ := none
  statisticKinds := kinds

private def twoKeyIndex : Index :=
  ⟨⟨[0x73], fun _ ↦ [[0x07], [0x08]], fun _ _ ↦ []⟩, ⟨[0x6D], []⟩⟩

private def numberCall (kinds : List StatisticKind) (fault : Option HostFault)
    (entries : List (Bytes × Int64)) : Call (Bytes × Int64) :=
  .ingest (numberAdapter kinds) twoKeyIndex .unconstrained entries fun _ ↦ fault

private def forgetCall (data : Bytes) : Call (Bytes × Int64) :=
  .deleteEntry twoKeyIndex.id data [0x61] ∅

private theorem steady_numberCall (kinds : List StatisticKind) (entries : List (Bytes × Int64)) :
    (numberCall kinds none entries).Steady :=
  ⟨fun _ _ ↦ rfl, fun _ ↦ .inl rfl⟩

private def refusing (before : List StatisticCall) (_ : StatisticCall) : Verdict :=
  if before.length % 2 = 0 then .refuse "offline" else .merge

private theorem refusing_ne_reject (before : List StatisticCall) (call : StatisticCall)
    (expected found : StatisticKind) : refusing before call ≠ .reject expected found := by
  unfold refusing
  split <;> exact nofun

private def numberCalls : List (Call (Bytes × Int64)) :=
  [numberCall [.count, .extent [0x66]] none [([0x01], 5), ([0x02], 9)],
    numberCall [.count, .extent [0x66]] none [([0x01], 7)], forgetCall [0x02]]

private theorem steady_numberCalls : ∀ c ∈ numberCalls, c.Steady := by
  intro c hc
  simp only [numberCalls, List.mem_cons, List.not_mem_nil, or_false] at hc
  rcases hc with rfl | rfl | rfl
  · exact steady_numberCall _ _
  · exact steady_numberCall _ _
  · trivial

/-- Two entries, one of which is ingested again and the other one deleted, leave one entry to be
counted, part of which is parked. -/
theorem statistics_follow_rows_refused :
    let s := (fresh {} { verdict := refusing }).after numberCalls
    s.ledger.standing ⟨[0x61], .count⟩ = .ok (.count 1) ∧
      s.ledger.standing ⟨[0x61], .extent [0x66]⟩ = .ok (s.recount 1 ⟨[0x61], .extent [0x66]⟩) ∧
      (s.recount 1 ⟨[0x61], .extent [0x66]⟩).weight (.lower (.ofInt 7)) = 1 ∧
      0 < s.pendingStatistics ∧
      s.rowsOf twoKeyIndex.id = ((fresh {} {}).after numberCalls).rowsOf twoKeyIndex.id := by
  intro s
  obtain ⟨hstanding, hother⟩ := statistics_follow_rows {} refusing_ne_reject steady_numberCalls
  refine ⟨?_, hstanding _ (by decide +kernel), by decide +kernel, by decide +kernel,
    (hother {}).2 _⟩
  have hrecount : s.recount (s.listed ⟨[0x61], .count⟩) ⟨[0x61], .count⟩ = .count 1 := by
    decide +kernel
  rw [← hrecount]
  exact hstanding _ (by decide +kernel)

/-! ## Where statistics drift -/

private theorem total_handIn_replicate {l : Ledger} (hl : l.store.verdict = fun _ _ ↦ .merge)
    (hb : l.backlog = []) (adapter : Bytes) {d n : Int} (hd : d ≠ 0)
    (hn : l.total ⟨adapter, .count⟩ = .count n) (times : Nat) :
    let m := (Tally.handIn adapter l (.replicate times (.count d))).ledger
    (m.store.verdict = fun _ _ ↦ .merge) ∧ m.backlog = [] ∧
      m.total ⟨adapter, .count⟩ = .count ((fun x ↦ saturate (x + d))^[times] n) := by
  induction times generalizing l n with
  | zero => exact ⟨hl, hb, hn⟩
  | succ times ih =>
    have hm : l.store.totals.merge ⟨⟨adapter, .count⟩, .count d⟩ =
        .ok (l.store.totals.insert ⟨adapter, .count⟩ (.count (saturate (n + d)))) := by
      rw [Totals.merge, if_pos (show (Statistic.count d).kind = .count from rfl)]
      change Except.map _ ((l.total ⟨adapter, .count⟩).merge (.count d)) = _
      rw [hn]
      rfl
    obtain ⟨m, happly, hverdict, hbacklog, htotal⟩ : ∃ m,
        l.applyOrPark adapter (.count d) = (.ok (), m) ∧
          (m.store.verdict = fun _ _ ↦ .merge) ∧ m.backlog = [] ∧
          m.total ⟨adapter, .count⟩ = .count (saturate (n + d)) := by
      simp only [Ledger.applyOrPark, StatisticsStore.apply, hl, Statistic.kind, hm]
      exact ⟨_, rfl, rfl, hb, Std.ExtTreeMap.getD_insert_self⟩
    rw [List.replicate_succ, Tally.handIn, if_neg (by simpa [Statistic.isEmpty] using hd), happly,
      Function.iterate_succ_apply]
    exact ih hverdict hbacklog htotal

private theorem iterate_up {n : Int} (h : n < 2 ^ 63) (hn : 0 ≤ n) (times : Nat) :
    (fun x ↦ saturate (x + 1))^[times] n = min (n + times) (2 ^ 63 - 1) := by
  induction times generalizing n with
  | zero =>
    simp only [Function.iterate_zero, id]
    omega
  | succ times ih =>
    have hstep : saturate (n + 1) = min (n + 1) (2 ^ 63 - 1) := by
      unfold saturate
      omega
    rw [Function.iterate_succ_apply, hstep, ih (by omega) (by omega)]
    omega

private theorem iterate_down {n : Int} (h : n < 2 ^ 63) (hn : -2 ^ 63 ≤ n) (times : Nat) :
    (fun x ↦ saturate (x + -1))^[times] n = max (n - times) (-2 ^ 63) := by
  induction times generalizing n with
  | zero =>
    simp only [Function.iterate_zero, id]
    omega
  | succ times ih =>
    have hstep : saturate (n + -1) = max (n - 1) (-2 ^ 63) := by
      unfold saturate
      omega
    rw [Function.iterate_succ_apply, hstep, ih (by omega) (by omega)]
    omega

private def single (kinds : List StatisticKind) : Store (Bytes × Int64) :=
  (fresh {} {}).after [numberCall kinds none [([0x01], 5)]]

private def singleInfo : EntryInfo := ((single []).ownerInfos [0x61]).headD .empty

private theorem ledger_single (kinds : List StatisticKind) :
    (single kinds).ledger =
      (Tally.close {} ((Tally.start [0x61] kinds).ingested singleInfo)).value :=
  rfl

private theorem wf_single (kinds : List StatisticKind) : (single kinds).WF :=
  (wf_fresh {} {}).after _

private theorem perform_forget_single (kinds : List StatisticKind) :
    ((single kinds).perform (forgetCall [0x01])).2 =
      (single kinds).settle [0x61] [singleInfo] ((single kinds).rows.insert twoKeyIndex.id
        (((single kinds).rowsOf twoKeyIndex.id).only fun r ↦ !exposes [0x01] [0x61] ∅ r)) := by
  have hany : ((single kinds).rowsOf twoKeyIndex.id).all.any (exposes [0x01] [0x61] ∅) = true := rfl
  have hgone : (erasePlaces ((single kinds).rowsOf twoKeyIndex.id) []
      ((((single kinds).rowsOf twoKeyIndex.id).all.filter (exposes [0x01] [0x61] ∅)).map
        (·.place))).2.1.map (·.info) = [singleInfo] := by
    with_unfolding_all rfl
  have hv := value_deleteEntry_of_any ((wf_single kinds).rows twoKeyIndex.id) hany
  rw [← hgone]
  exact congrArg Prod.snd hv

private def forgotten (times : Nat) : Store (Bytes × Int64) :=
  ((single (.replicate times .count)).perform (forgetCall [0x01])).2

private theorem standing_forgotten {times : Nat} (h : 2 ^ 63 < times) (h' : times < 2 ^ 64) :
    (forgotten times).ledger.standing ⟨[0x61], .count⟩ = .ok (.count (2 ^ 63 - 1 - times)) := by
  have hup : (Tally.start [0x61] (.replicate times .count)).ingested singleInfo =
      ⟨[0x61], .replicate times (.count 1)⟩ := by
    rw [Tally.start, Tally.ingested, List.map_replicate, List.map_replicate]
    rfl
  have hdown : (Tally.start [0x61] (.replicate times .count)).deleted singleInfo =
      ⟨[0x61], .replicate times (.count (-1))⟩ := by
    rw [Tally.start, Tally.deleted, List.map_replicate, List.map_replicate]
    rfl
  have hledger := ledger_single (.replicate times .count)
  rw [hup, Tally.value_close] at hledger
  obtain ⟨hverdict, hbacklog, htotal⟩ :=
    total_handIn_replicate (l := {}) rfl rfl [0x61] (d := 1) (n := 0) (by decide) rfl times
  rw [← hledger] at hverdict hbacklog htotal
  have hopen : (Tally.openOn (single (.replicate times .count)).ledger [0x61]
      (.replicate times .count)).value.1 = (single (.replicate times .count)).ledger := by
    rw [Tally.openOn, if_pos hbacklog]
    rfl
  have hkinds : (single (.replicate times .count)).kindsOf [0x61] = .replicate times .count := rfl
  rw [iterate_up (by decide) (by decide)] at htotal
  obtain ⟨-, hbacklog', htotal'⟩ :=
    total_handIn_replicate hverdict hbacklog [0x61] (d := -1) (by decide) htotal times
  rw [iterate_down (by omega) (by omega)] at htotal'
  rw [forgotten, perform_forget_single, settle, hkinds]
  simp only [List.foldl_cons, List.foldl_nil, Tally.value_openOn_snd, hopen, hdown,
    Tally.value_close]
  rw [Ledger.standing, Ledger.parked, hbacklog', htotal']
  have he : max (min (0 + (times : Int)) (2 ^ 63 - 1) - times) (-2 ^ 63) = 2 ^ 63 - 1 - times := by
    omega
  rw [he]
  rfl

private theorem ownerInfos_forget_single (kinds : List StatisticKind) :
    ((single kinds).perform (forgetCall [0x01])).2.ownerInfos [0x61] = [] := by
  have hall : ((single kinds).rowsOf twoKeyIndex.id).all.all (exposes [0x01] [0x61] ∅) = true := rfl
  rw [ownerInfos, List.map_eq_nil_iff, List.eq_nil_iff_forall_not_mem]
  rintro ⟨i, f⟩ hm
  obtain ⟨r, hr, -⟩ := ((wf_single kinds).perform (forgetCall [0x01])).mem_owners.mp hm
  have hrows : ((single kinds).perform (forgetCall [0x01])).2.rowsOf i = _ :=
    rowsOf_deleteEntry (single kinds) ((wf_single kinds).rows twoKeyIndex.id) [0x01] [0x61] ∅ i
  rw [hrows, RowSet.all_only] at hr
  obtain ⟨hr, hkeep⟩ := List.mem_filter.mp hr
  by_cases hi : twoKeyIndex.id = i
  · subst hi
    simp [List.all_eq_true.mp hall r hr] at hkeep
  · have hnone : (single kinds).rowsOf i = (fresh {} {} : Store (Bytes × Int64)).rowsOf i :=
      (rowsOf_ingest _ _ _ _ _ _ i).trans (if_neg hi)
    rw [hnone] at hr
    simp at hr

private theorem standing_forgotten_ne {times : Nat} (h : 2 ^ 63 < times) (h' : times < 2 ^ 64)
    (n : Nat) : (forgotten times).ledger.standing ⟨[0x61], .count⟩ ≠
      .ok ((forgotten times).recount n ⟨[0x61], .count⟩) := by
  have howners : (forgotten times).ownerInfos [0x61] = [] := ownerInfos_forget_single _
  rw [standing_forgotten h h', recount, howners]
  intro he
  have hn : (2 ^ 63 - 1 - times : Int) = 0 := Statistic.count.inj (Except.ok.inj he)
  omega

private def doubled : Store (Bytes × Int64) := single [.count, .count]

private def untold : Store (Bytes × Int64) :=
  (fresh {} {}).after [numberCall [.count] (some .callback) [([0x01], 5)]]

/-- A kind that is listed twice is counted twice; an entry is not counted when the host fails to be
told of it; and a count that leaves its range on the way does not come back. -/
theorem statistics_drift :
    doubled.ledger.standing ⟨[0x61], .count⟩ ≠ .ok (doubled.recount 1 ⟨[0x61], .count⟩) ∧
      untold.ledger.standing ⟨[0x61], .count⟩ ≠ .ok (untold.recount 1 ⟨[0x61], .count⟩) ∧
      (forgotten (2 ^ 63 + 1)).ledger.standing ⟨[0x61], .count⟩ ≠
        .ok ((forgotten (2 ^ 63 + 1)).recount ((forgotten (2 ^ 63 + 1)).listed ⟨[0x61], .count⟩)
          ⟨[0x61], .count⟩) :=
  ⟨by decide +kernel, by decide +kernel, standing_forgotten_ne (by decide) (by decide) _⟩

end RowVault.Store
