import Mathlib.Data.Nat.Find
import RowVault.Proofs.Statistic.Journal
import RowVault.Proofs.Store.Statistics
import RowVault.Scripted.Delivery

/-!
# Batches in which the host fails

The host may fail at every point of a batch at which its code runs. What has been filed until then
stays, and the tally is closed. If the host fails while it encodes an entry, the statistics follow
the rows. If it fails once the rows of an entry are stored, while the sink or the caller is told of
them, the entry keeps its rows and statistics miss it; they stay behind by the entries that were
missed, and by nothing else, whatever comes later.
-/

namespace RowVault

variable {T : Type}

/-! ## Where the host fails -/

/-- How many entries of a batch have been dealt with where the host fails at a position. -/
def HostFault.passed : HostFault → (position : Nat) → Nat
  | encoding, position => position
  | sink, position => position + 1
  | callback, position => position + 1

namespace Origin

/-- How the host fails at a position of a batch: while it encodes the entry there, or finds that
there is none; or, if the entry has rows, once they are stored. -/
def failure? (o : Origin T) (fault : Nat → Option HostFault) (entries : List T) (position : Nat) :
    Option HostFault :=
  (fault position).filter fun x ↦
    if x = .encoding then decide (position ≤ entries.length)
    else (entries[position]?.bind o.info?).isSome

/-- The host fails at a position of a batch, and not before. -/
def FailsAt (o : Origin T) (fault : Nat → Option HostFault) (entries : List T) (position : Nat)
    (x : HostFault) : Prop :=
  o.failure? fault entries position = some x ∧ ∀ n < position, o.failure? fault entries n = none

/-- Whether a batch fails at a position is decided by the entries up to it. -/
instance (o : Origin T) (fault : Nat → Option HostFault) (entries : List T) (position : Nat)
    (x : HostFault) : Decidable (o.FailsAt fault entries position x) :=
  inferInstanceAs (Decidable (_ ∧ _))

/-- What a failure at a position makes statistics miss: nothing while an entry is encoded, and
otherwise the entry there. -/
def missedAt (o : Origin T) (entries : List T) (position : Nat) : HostFault → List EntryInfo
  | .encoding => []
  | .sink => (entries[position]?.bind o.info?).toList
  | .callback => (entries[position]?.bind o.info?).toList

variable {o : Origin T} {fault : Nat → Option HostFault} {entry : T} {rest entries : List T}
  {position : Nat} {x : HostFault}

/-- The host fails at the first entry while it encodes it, or once its rows are stored. -/
theorem failure?_zero_eq_some_iff :
    o.failure? (fun m ↦ fault (position + m)) (entry :: rest) 0 = some x ↔
      fault position = some x ∧ (x = .encoding ∨ (o.info? entry).isSome) := by
  rw [failure?, Option.filter_eq_some_iff]
  by_cases hx : x = .encoding <;> simp [hx]

/-- Behind the first entry, the host fails as it does at the other ones. -/
theorem failure?_cons_succ (o : Origin T) (fault : Nat → Option HostFault) (position : Nat)
    (entry : T) (rest : List T) (n : Nat) :
    o.failure? (fun m ↦ fault (position + m)) (entry :: rest) (n + 1) =
      o.failure? (fun m ↦ fault (position + 1 + m)) rest n := by
  have hposition : position + (n + 1) = position + 1 + n := by
    omega
  simp [failure?, hposition]

/-- The host does not fail at the first entry if nothing happens there, or if the entry is encoded
and has no rows. -/
theorem failure?_zero_eq_none_iff :
    o.failure? (fun m ↦ fault (position + m)) (entry :: rest) 0 = none ↔
      fault position ≠ some .encoding ∧ (fault position = none ∨ o.info? entry = none) := by
  rw [failure?, Nat.add_zero]
  cases fault position with
  | none => simp
  | some y => by_cases hy : y = .encoding <;> simp [hy]

/-- A failure that comes after an entry was encoded makes statistics miss exactly this entry. -/
theorem FailsAt.missedAt_eq (h : o.FailsAt fault entries position x) (hx : x ≠ .encoding) :
    ∃ entry info, entries[position]? = some entry ∧ o.info? entry = some info ∧
      o.missedAt entries position x = [info] := by
  obtain ⟨-, hcond⟩ := Option.filter_eq_some_iff.mp h.1
  rw [if_neg hx] at hcond
  obtain ⟨info, hinfo⟩ := Option.isSome_iff_exists.mp hcond
  obtain ⟨entry, hentry, hi⟩ := Option.bind_eq_some_iff.mp hinfo
  refine ⟨entry, info, hentry, hi, ?_⟩
  cases x with
  | encoding => exact absurd rfl hx
  | sink => rw [missedAt, hinfo, Option.toList]
  | callback => rw [missedAt, hinfo, Option.toList]

/-- If the host fails, there is a position at which it fails and before which it does not. -/
theorem exists_failsAt {n : Nat} (h : o.failure? fault entries n ≠ none) :
    ∃ m x, o.FailsAt fault entries m x := by
  have hex : ∃ n, o.failure? fault entries n ≠ none := ⟨n, h⟩
  obtain ⟨x, hx⟩ := Option.ne_none_iff_exists'.mp (Nat.find_spec hex)
  refine ⟨Nat.find hex, x, hx, ?_⟩
  intro m hm
  exact not_not.mp (Nat.find_min hex hm)

/-- Without entries, the host can fail only when it finds that there are none. -/
theorem failsAt_nil {n : Nat} (h : o.FailsAt (fun m ↦ fault (position + m)) [] n x) :
    n = 0 ∧ x = .encoding ∧ fault position = some .encoding := by
  obtain ⟨hx, -⟩ := h
  obtain ⟨hfault, hcond⟩ := Option.filter_eq_some_iff.mp hx
  by_cases he : x = .encoding
  · subst he
    have hn : n = 0 := by simpa using hcond
    subst hn
    exact ⟨rfl, rfl, hfault⟩
  · simp [he] at hcond

/-- The host fails at the first entry, or behind it. -/
theorem failsAt_cons {n : Nat}
    (h : o.FailsAt (fun m ↦ fault (position + m)) (entry :: rest) n x) :
    (n = 0 ∧ fault position = some x ∧ (x = .encoding ∨ (o.info? entry).isSome)) ∨
      ∃ k, n = k + 1 ∧ fault position ≠ some .encoding ∧
        (fault position = none ∨ o.info? entry = none) ∧
        o.FailsAt (fun m ↦ fault (position + 1 + m)) rest k x := by
  obtain ⟨hx, hbefore⟩ := h
  cases n with
  | zero => exact .inl ⟨rfl, failure?_zero_eq_some_iff.mp hx⟩
  | succ k =>
    obtain ⟨hne, hfirst⟩ := failure?_zero_eq_none_iff.mp (hbefore 0 (Nat.succ_pos k))
    rw [failure?_cons_succ] at hx
    refine .inr ⟨k, rfl, hne, hfirst, hx, ?_⟩
    intro m hm
    have hm := hbefore (m + 1) (Nat.succ_lt_succ hm)
    rwa [failure?_cons_succ] at hm

/-- Where the host fails, a batch has filed what it would have filed of the entries that it has
passed, and it misses the entry at hand once its rows are stored. -/
theorem filings_of_failsAt {n : Nat} (h : o.FailsAt (fun m ↦ fault (position + m)) entries n x)
    (number other : Nat) :
    o.filings fault number position entries =
        o.filings (fun _ ↦ none) number other (entries.take (x.passed n)) ∧
      o.missed fault position entries = o.missedAt entries n x := by
  induction entries generalizing n number position other with
  | nil =>
    obtain ⟨rfl, rfl, -⟩ := failsAt_nil h
    exact ⟨rfl, rfl⟩
  | cons entry rest ih =>
    rcases failsAt_cons h with ⟨rfl, hx, hcond⟩ | ⟨k, rfl, hne, hfirst, hrest⟩
    · cases x with
      | encoding =>
        rw [filings, if_pos hx, missed, if_pos hx]
        exact ⟨rfl, rfl⟩
      | sink =>
        obtain ⟨info, hi⟩ := Option.isSome_iff_exists.mp (hcond.resolve_left (by decide))
        simp [filings, missed, missedAt, HostFault.passed, hx, hi]
      | callback =>
        obtain ⟨info, hi⟩ := Option.isSome_iff_exists.mp (hcond.resolve_left (by decide))
        simp [filings, missed, missedAt, HostFault.passed, hx, hi]
    · have htake : (entry :: rest).take (x.passed (k + 1)) = entry :: rest.take (x.passed k) := by
        cases x <;> rfl
      have hmissed : o.missedAt (entry :: rest) (k + 1) x = o.missedAt rest k x := by
        cases x <;> rfl
      rw [htake, hmissed]
      cases hi : o.info? entry with
      | none => simpa [filings, missed, hne, hi] using ih hrest number (other + 1)
      | some info =>
        have hnone : fault position = none := hfirst.resolve_right (by simp [hi])
        simpa [filings, missed, hnone, hi] using ih hrest (number + 1) (other + 1)

end Origin

namespace Batch

variable {o : Origin T} {fault : Nat → Option HostFault} {entries : List T} {position : Nat}
  {x : HostFault} {b : Batch T}

private theorem fault_run_of_failsAt {n : Nat}
    (h : o.FailsAt (fun m ↦ fault (position + m)) entries n x) (hb : b.fault = none) :
    (b.run o.adapter o.index o.visibility fault position entries).value.fault = some x := by
  induction entries generalizing n b position with
  | nil =>
    obtain ⟨rfl, rfl, hx⟩ := Origin.failsAt_nil h
    rw [run, if_pos hx]
    exact hx
  | cons entry rest ih =>
    rcases Origin.failsAt_cons h with ⟨rfl, hx, hcond⟩ | ⟨k, rfl, hne, hfirst, hrest⟩
    · by_cases he : x = .encoding
      · subst he
        rw [run, if_pos hx]
        exact hx
      · obtain ⟨info, hi⟩ := Option.isSome_iff_exists.mp (hcond.resolve_left he)
        have hfault := fault_file_some b o.index.id ⟨b.filed, info, entry⟩ he
        rw [value_run_cons_of_some (by simp [hx, he]) hi]
        simp [hx, hfault]
    · cases hi : o.info? entry with
      | none =>
        rw [value_run_cons_of_none hne hi]
        exact ih hrest hb
      | some info =>
        have hnone : fault position = none := hfirst.resolve_right (by simp [hi])
        have hfault := (value_file_none b o.index.id ⟨b.filed, info, entry⟩).1.trans hb
        rw [value_run_cons_of_some hne hi]
        simpa [hnone, hfault] using ih hrest hfault

private theorem fault_run_of_forall_none
    (h : ∀ n, o.failure? (fun m ↦ fault (position + m)) entries n = none) (hb : b.fault = none) :
    (b.run o.adapter o.index o.visibility fault position entries).value.fault = none := by
  induction entries generalizing b position with
  | nil =>
    have hne : fault position ≠ some .encoding := by
      intro hx
      simpa [Origin.failure?, hx] using h 0
    rw [run, if_neg hne]
    exact hb
  | cons entry rest ih =>
    obtain ⟨hne, hfirst⟩ := Origin.failure?_zero_eq_none_iff.mp (h 0)
    have hrest : ∀ n, o.failure? (fun m ↦ fault (position + 1 + m)) rest n = none := by
      intro n
      rw [← Origin.failure?_cons_succ o fault position entry rest n]
      exact h (n + 1)
    cases hi : o.info? entry with
    | none =>
      rw [value_run_cons_of_none hne hi]
      exact ih hrest hb
    | some info =>
      have hnone : fault position = none := hfirst.resolve_right (by simp [hi])
      have hfault := (value_file_none b o.index.id ⟨b.filed, info, entry⟩).1.trans hb
      rw [value_run_cons_of_some hne hi]
      simpa [hnone, hfault] using ih hrest hfault

/-- A batch ends in the first failure of the host, and in no other one. -/
theorem fault_run_eq_some_iff (hb : b.fault = none) :
    (b.run o.adapter o.index o.visibility fault position entries).value.fault = some x ↔
      ∃ n, o.FailsAt (fun m ↦ fault (position + m)) entries n x := by
  constructor
  · intro hx
    by_cases hnone : ∀ n, o.failure? (fun m ↦ fault (position + m)) entries n = none
    · rw [fault_run_of_forall_none hnone hb] at hx
      cases hx
    · obtain ⟨n, hn⟩ := not_forall.mp hnone
      obtain ⟨m, y, hfails⟩ := Origin.exists_failsAt hn
      rw [fault_run_of_failsAt hfails hb] at hx
      cases hx
      exact ⟨m, hfails⟩
  · rintro ⟨n, hfails⟩
    exact fault_run_of_failsAt hfails hb

end Batch

/-! ## Statistics stores that merge everything -/

namespace Store

variable {s : Store T}

private theorem merging_removeDoomed (h : s.ledger.Merging) (entries : Nat)
    (groups : List (Bytes × List (Victim T))) :
    (s.removeDoomed entries groups).value.store.ledger.Merging := by
  induction groups generalizing s entries with
  | nil => exact h
  | cons group rest ih =>
    obtain ⟨adapter, victims⟩ := group
    rw [removeDoomed]
    simp only [Traced.value_bind]
    exact ih (h.close_openOn adapter (s.kindsOf adapter) _) _

/-- Calls leave nothing parked if the statistics store merges every change. -/
theorem merging_perform (s : Store T) (c : Call T) (h : s.ledger.Merging) :
    (s.perform c).2.ledger.Merging := by
  cases c with
  | register adapter index =>
    change (s.register adapter index).value.ledger.Merging
    rw [ledger_register]
    exact h
  | ingest adapter index visibility entries fault =>
    rw [← s.ledger_register adapter index] at h
    change (s.ingest adapter index visibility entries fault).value.store.ledger.Merging
    rw [value_ingest]
    exact h.close_openOn _ _ _
  | delete q o =>
    change (s.delete q o).value.store.ledger.Merging
    rw [Store.delete, Traced.value_bind]
    exact merging_removeDoomed h 0 _
  | deleteEntry index data adapter labels =>
    change (s.deleteEntry index data adapter labels).value.2.ledger.Merging
    rw [deleteEntry]
    simp only [Traced.value_bind]
    split
    · exact h
    · exact h.close_openOn adapter (s.kindsOf adapter) _

/-- A store without rows has nothing parked, and merges every change unless the host says
otherwise. -/
theorem merging_fresh (config : Config) : (fresh config {} : Store T).ledger.Merging where
  kinded := Ledger.kinded_of_verdict _
  verdict_eq _ _ := rfl
  backlog_eq := rfl

end Store

/-! ## What a failure leaves behind -/

/-- The first entries of a delivery, while the host does not fail. -/
def Delivery.upTo (d : Delivery T) (n : Nat) : Delivery T :=
  { d with entries := d.entries.take n, fault := fun _ ↦ none }

namespace Store

/-- The host fails at a position of a delivery, and not before. -/
def FailsAt (s : Store T) (d : Delivery T) (position : Nat) (x : HostFault) : Prop :=
  (s.origin d).FailsAt d.fault d.entries position x

/-- A delivery fails where its batch does. -/
instance (s : Store T) (d : Delivery T) (position : Nat) (x : HostFault) :
    Decidable (s.FailsAt d position x) :=
  inferInstanceAs (Decidable (Origin.FailsAt _ _ _ _ _))

variable {s : Store T} {d : Delivery T} {position : Nat} {x : HostFault}

private theorem failsAt_iff : s.FailsAt d position x ↔
    (s.origin d).FailsAt (fun n ↦ d.fault (0 + n)) d.entries position x := by
  simp only [Nat.zero_add]
  rfl

/-- Where the host fails, a delivery has filed what it would have filed of the entries that it has
passed, and it misses the entry at hand once its rows are stored. -/
theorem files_of_failsAt (h : s.FailsAt d position x) :
    s.files d = s.files (d.upTo (x.passed position)) ∧
      s.missed d = (s.origin d).missedAt d.entries position x :=
  Origin.filings_of_failsAt (failsAt_iff.mp h) s.filed 0

/-- A delivery ends in the first failure of the host, and in no other one. -/
theorem fault_ingest_eq_some_iff :
    (s.ingest d.adapter d.index d.visibility d.entries d.fault).value.fault = some x ↔
      ∃ position, s.FailsAt d position x := by
  simp only [failsAt_iff]
  rw [value_ingest]
  exact Batch.fault_run_eq_some_iff (o := s.origin d) (b := s.batchStart d.adapter d.index) rfl

/-- Where the host fails, the rows are those that the entries passed would have left if the host had
not failed. -/
theorem rowsOf_of_failsAt (h : s.FailsAt d position x) (index : Bytes) :
    (s.perform d.call).2.rowsOf index =
      (s.perform (d.upTo (x.passed position)).call).2.rowsOf index := by
  by_cases hi : index = d.index.id
  · subst hi
    rw [rowsOf_delivery, (files_of_failsAt h).1]
    exact (s.rowsOf_delivery (d.upTo (x.passed position))).symm
  · rw [s.rowsOf_delivery_of_ne d hi]
    exact (s.rowsOf_delivery_of_ne (d.upTo (x.passed position)) hi).symm

/-- A host that fails in the middle of a batch leaves statistics behind by what was missed, and by
nothing else. Take any history on a store whose statistics store merges every change, and then a
batch, which ends where the host first fails. The rows are those that the entries passed would have
left if the host had not failed; nothing is parked; and the total of every key whose numbers stay in
range gets to a recount of the owners by observing the entries that the batches so far have missed,
each of them as often as its adapter lists the kind. This batch misses nothing if the host fails
while it encodes an entry; otherwise it misses exactly the entry at hand, which keeps its rows. -/
theorem statistics_miss_entry_at_hand (config : Config) {calls : List (Call T)}
    (hcalls : ∀ c ∈ calls, c.NamesItself) {d : Delivery T} (hd : d.adapter.NamesItself) :
    let start := (fresh config {} : Store T)
    let s := start.after calls
    let done := (s.ingest d.adapter d.index d.visibility d.entries d.fault).value
    let t := done.store
    (∀ x, done.fault = some x ↔ ∃ position, s.FailsAt d position x) ∧
    ∀ position x, s.FailsAt d position x →
      let missed := (s.origin d).missedAt d.entries position x
      (∀ index, t.rowsOf index =
        (s.perform (d.upTo (x.passed position)).call).2.rowsOf index) ∧
      t.ledger.backlog = [] ∧
      (x = .encoding → missed = []) ∧
      (x ≠ .encoding → ∃ entry info, d.entries[position]? = some entry ∧
        (s.origin d).info? entry = some info ∧ missed = [info]) ∧
      ∀ c, 2 * t.filed * t.listed c < 2 ^ 63 →
        (t.ledger.total c).ingestedEach (t.listed c)
            (start.missedEach c.adapter calls ++ if c.adapter = d.adapter.id then missed else []) =
          t.recount (t.listed c) c := by
  intro start s done t
  have hwf : start.WF := wf_fresh config {}
  have hfresh : start.Balanced := balanced_fresh fun _ _ _ _ he ↦ by cases he
  -- The balance counts what the batch misses together with what earlier ones have missed.
  have hbefore := BalancedBut.after hfresh hwf hcalls
  have hafter := hbefore.delivery (hwf.after calls) hd
  have hmerging : t.ledger.Merging :=
    s.merging_perform d.call (after_induction merging_perform (merging_fresh config) calls)
  refine ⟨fun x ↦ fault_ingest_eq_some_iff, ?_⟩
  intro position x hfails missed
  refine ⟨rowsOf_of_failsAt hfails, hmerging.backlog_eq, ?_, ?_, ?_⟩
  · rintro rfl
    rfl
  · exact hfails.missedAt_eq
  · intro c hc
    obtain ⟨standing, hstanding, hrecount⟩ := hafter.exists_standing hc
    have htotal : standing = t.ledger.total c :=
      Except.ok.inj (hstanding.symm.trans (hmerging.standing_eq c))
    rw [htotal, List.nil_append, (files_of_failsAt hfails).2] at hrecount
    exact hrecount

private def namingAdapter : Adapter Scripted.Entry :=
  let plan : Scripted.AdapterPlan := { id := [0x61] }
  { plan.adapter with encode := fun entry ↦ plan.encode { entry with statedAdapter := none } }

private def failing (x : HostFault) : Delivery Scripted.Entry :=
  { Delivery.ofBytes [.ofBytes [0x65] [0x01], .ofBytes [0x66] [0x02]] with
    adapter := namingAdapter
    fault := fun n ↦ if n = 1 then some x else none }

private theorem namesItself_failing (x : HostFault) : (failing x).adapter.NamesItself :=
  fun _ _ ↦ rfl

/-- An entry that is missed is missed again when it is ingested anew, and what it displaces is taken
back although it was missed. So nothing is counted of two entries. -/
theorem statistics_miss_entry_at_hand_again :
    let start := (fresh {} {} : Store Scripted.Entry)
    let s := start.after [(failing .sink).call]
    let t := (s.perform (failing .callback).call).2
    s.FailsAt (failing .callback) 1 .callback ∧
      t.ledger.total ⟨[0x61], .count⟩ = .count 0 ∧ t.recount 1 ⟨[0x61], .count⟩ = .count 2 ∧
      (t.ledger.total ⟨[0x61], .count⟩).ingestedEach 1
          (start.missedEach [0x61] [(failing .sink).call] ++
            (s.origin (failing .callback)).missedAt (failing .callback).entries 1 .callback) =
        t.recount 1 ⟨[0x61], .count⟩ := by
  intro start s t
  have hcalls : ∀ c ∈ [(failing .sink).call], c.NamesItself := by
    intro c hc
    rw [List.mem_singleton.mp hc]
    exact namesItself_failing .sink
  have hfails : s.FailsAt (failing .callback) 1 .callback := by decide +kernel
  obtain ⟨-, hall⟩ := statistics_miss_entry_at_hand {} hcalls (namesItself_failing .callback)
  obtain ⟨-, -, -, -, hstatistics⟩ := hall 1 .callback hfails
  refine ⟨hfails, by decide +kernel, by decide +kernel, ?_⟩
  exact hstatistics ⟨[0x61], .count⟩ (by decide +kernel)

/-- If the host fails once the rows of the second of two entries are stored, whether the sink or the
caller is told of them, two entries own rows and one is counted, and nothing is parked. -/
theorem statistics_behind_rows :
    let s := (fresh {} {} : Store Scripted.Entry)
    let t := (s.perform (failing .callback).call).2
    let u := (s.perform (failing .sink).call).2
    (s.FailsAt (failing .callback) 1 .callback ∧ t.kindsOf [0x61] = [.count] ∧
        t.ledger.backlog = [] ∧ t.ledger.total ⟨[0x61], .count⟩ = .count 1 ∧
        t.recount 1 ⟨[0x61], .count⟩ = .count 2) ∧
      s.FailsAt (failing .sink) 1 .sink ∧ u.kindsOf [0x61] = [.count] ∧
        u.ledger.backlog = [] ∧ u.ledger.total ⟨[0x61], .count⟩ = .count 1 ∧
        u.recount 1 ⟨[0x61], .count⟩ = .count 2 := by
  decide +kernel

end Store

end RowVault
