import Mathlib.Algebra.BigOperators.Group.List.Basic
import RowVault.Proofs.Statistic.Journal
import RowVault.Proofs.Statistic.Tallies

/-!
# No change is lost or repeated

A ledger is used again and again: a tally is opened on it, collects and flushes, and is closed, or
what is parked is handed in again. The host decides at each call what becomes of a change. Whatever
it decides, each change that a tally hands in is merged once, rejected once, or still parked; so the
totals, the parked changes and the rejected ones add up to what the tallies have collected.
-/

namespace RowVault

/-! ## Uses of a ledger -/

/-- Something that happens to a tally while it is open. -/
inductive TallyStep where
  | ingested (info : EntryInfo)
  | deleted (info : EntryInfo)
  | flush
  deriving DecidableEq

/-- Something that is done with a ledger: a tally is opened on it, makes some steps and is closed,
or parked changes are handed in again. A tally is closed when its scope unwinds as well; its steps
are those that it has made until then. -/
inductive LedgerUse where
  | scope (adapter : Bytes) (kinds : List StatisticKind) (steps : List TallyStep)
  | retry
  deriving DecidableEq

namespace Tally

/-- The ledger and the tally after one step. -/
def step (l : Ledger) (t : Tally) : TallyStep → Traced (Ledger × Tally)
  | .ingested info => pure (l, t.ingested info)
  | .deleted info => pure (l, t.deleted info)
  | .flush => do
    let r ← t.flush l
    pure (r.ledger, r.tally)

/-- The ledger after some steps of a tally, which is closed then. -/
def finish : Ledger → Tally → List TallyStep → Traced Ledger
  | l, t, [] => t.close l
  | l, t, s :: rest => do
    let (l, t) ← t.step l s
    finish l t rest

/-- What a tally hands in with its steps and at its end. -/
def handedIn (t : Tally) : List TallyStep → List ParkedDelta
  | [] => t.handed
  | .ingested info :: rest => (t.ingested info).handedIn rest
  | .deleted info :: rest => (t.deleted info).handedIn rest
  | .flush :: rest => t.handed ++ (start t.adapter (t.deltas.map (·.kind))).handedIn rest

end Tally

namespace Ledger

/-- The ledger after one use. -/
def use (l : Ledger) : LedgerUse → Traced Ledger
  | .scope adapter kinds steps => do
    let (l, t) ← Tally.openOn l adapter kinds
    t.finish l steps
  | .retry => l.retryBacklog

/-- The ledger after several uses. -/
def useEach : Ledger → List LedgerUse → Traced Ledger
  | l, [] => pure l
  | l, u :: rest => do
    let l ← l.use u
    l.useEach rest

end Ledger

/-- What is handed in with a use for the first time. -/
def LedgerUse.handedIn : LedgerUse → List ParkedDelta
  | scope adapter kinds steps => (Tally.start adapter kinds).handedIn steps
  | retry => []

/-! ## Every change is accounted for -/

namespace Ledger

variable {l m n : Ledger} {changes more : List ParkedDelta}

/-- A ledger accounts for changes that were handed in: each of them, and each change that was parked
before, has been merged or rejected, or is parked. A total that stays in its range has grown by what
was merged. -/
structure Conserves (l m : Ledger) (changes : List ParkedDelta) : Prop where
  kinded : m.Kinded
  perm : (m.store.merged ++ m.store.rejected ++ m.backlog).Perm
    (l.store.merged ++ l.store.rejected ++ l.backlog ++ changes)
  grows : ∃ fresh, m.store.merged = l.store.merged ++ fresh ∧ Grows l m fresh

namespace Conserves

/-- Nothing is handed in. -/
theorem refl (h : l.Kinded) : Conserves l l [] where
  kinded := h
  perm := by rw [List.append_nil]
  grows := ⟨[], (List.append_nil _).symm, .of_total_eq fun _ ↦ rfl⟩

/-- Changes are accounted for one after the other. -/
theorem trans (h : Conserves l m changes) (h' : Conserves m n more) :
    Conserves l n (changes ++ more) where
  kinded := h'.kinded
  perm := by
    have hfirst := h.perm.append_right more
    rw [List.append_assoc _ changes more] at hfirst
    exact h'.perm.trans hfirst
  grows := by
    obtain ⟨fresh, hfresh, hgrows⟩ := h.grows
    obtain ⟨fresh', hfresh', hgrows'⟩ := h'.grows
    exact ⟨fresh ++ fresh', by rw [hfresh', hfresh, List.append_assoc], hgrows.trans hgrows'⟩

end Conserves

namespace Hands

/-- What was merged before comes first. -/
theorem merged_eq (h : Hands l m changes) :
    m.store.merged = l.store.merged ++ picked Verdict.isMerge (l.answers changes) := by
  rw [StatisticsStore.merged, h.journal_eq, picked_append]
  rfl

/-- What was rejected before comes first. -/
theorem rejected_eq (h : Hands l m changes) :
    m.store.rejected = l.store.rejected ++ picked Verdict.isReject (l.answers changes) := by
  rw [StatisticsStore.rejected, h.journal_eq, picked_append]
  rfl

/-- The changes that are handed in are merged, rejected, or parked behind the others. -/
theorem perm (h : Hands l m changes) :
    (m.store.merged ++ m.store.rejected ++ m.backlog).Perm
      (l.store.merged ++ l.store.rejected ++ l.backlog ++ changes) := by
  have hpicked := perm_picked (l.answers changes)
  rw [map_change_answers, List.perm_iff_count] at hpicked
  rw [h.merged_eq, h.rejected_eq, h.backlog_eq, List.perm_iff_count]
  intro p
  have hp := hpicked p
  simp only [List.count_append] at hp ⊢
  omega

/-- Changes that are handed in are accounted for. -/
theorem conserves (h : Hands l m changes) : Conserves l m changes where
  kinded := h.kinded
  perm := h.perm
  grows := ⟨_, h.merged_eq, h.grows⟩

end Hands

/-- A retry hands in nothing new. -/
theorem Kinded.conserves_retryBacklog (h : l.Kinded) : Conserves l l.retryBacklog.value [] where
  kinded := h.hands_retryBacklog.kinded
  perm := by
    have hperm := h.hands_retryBacklog.perm
    rwa [List.append_nil] at hperm ⊢
  grows := ⟨_, h.hands_retryBacklog.merged_eq, h.hands_retryBacklog.grows⟩

/-- Beginning a tally hands in nothing new. -/
theorem Kinded.conserves_openOn (h : l.Kinded) (adapter : Bytes) (kinds : List StatisticKind) :
    Conserves l (Tally.openOn l adapter kinds).value.1 [] := by
  rw [Tally.openOn_eq]
  exact h.conserves_retryBacklog

/-- A flush hands in what the tally has collected. -/
theorem Kinded.hands_flush (h : l.Kinded) (t : Tally) :
    Hands l (t.flush l).value.ledger t.handed := by
  rw [Tally.value_flush]
  exact Tally.hands_handIn h t.adapter t.deltas

/-- The changes of a tally are accounted for after its last step. -/
theorem Kinded.conserves_finish (h : l.Kinded) (t : Tally) (steps : List TallyStep) :
    Conserves l (t.finish l steps).value (t.handedIn steps) := by
  induction steps generalizing l t with
  | nil =>
    rw [Tally.finish, Tally.value_close, Tally.handedIn]
    exact (Tally.hands_handIn h t.adapter t.deltas).conserves
  | cons s rest ih =>
    cases s with
    | ingested info => exact ih h (t.ingested info)
    | deleted info => exact ih h (t.deleted info)
    | flush =>
      have hflush := (h.hands_flush t).conserves
      have hrest := ih hflush.kinded (t.flush l).value.tally
      have htally : (t.flush l).value.tally = .start t.adapter (t.deltas.map (·.kind)) := by
        rw [Tally.value_flush]
      rw [htally] at hrest
      change Conserves l (Tally.finish _ (t.flush l).value.tally rest).value _
      rw [htally]
      exact hflush.trans hrest

/-- What is handed in with a use is accounted for. -/
theorem Kinded.conserves_use (h : l.Kinded) (u : LedgerUse) :
    Conserves l (l.use u).value u.handedIn := by
  cases u with
  | scope adapter kinds steps =>
    have hopen := h.conserves_openOn adapter kinds
    have hfinish := hopen.kinded.conserves_finish (.start adapter kinds) steps
    change Conserves l (Tally.finish (Tally.openOn l adapter kinds).value.1
      (Tally.openOn l adapter kinds).value.2 steps).value _
    rw [Tally.value_openOn_snd]
    exact hopen.trans hfinish
  | retry => exact h.conserves_retryBacklog

/-- What is handed in with several uses is accounted for. -/
theorem Kinded.conserves_useEach (h : l.Kinded) (uses : List LedgerUse) :
    Conserves l (l.useEach uses).value (uses.flatMap LedgerUse.handedIn) := by
  induction uses generalizing l with
  | nil => exact .refl h
  | cons u rest ih =>
    have hu := h.conserves_use u
    exact hu.trans (ih hu.kinded)

end Ledger

/-! ## What tallies collect -/

namespace TallyStep

/-- What a step adds to a statistic of a kind along an axis. -/
def mark (k : StatisticKind) (a : Axis) : TallyStep → Int
  | ingested info => info.mark k a
  | deleted info => -info.mark k a
  | flush => 0

/-- What steps add to a statistic of a kind along an axis. -/
def marks (k : StatisticKind) (a : Axis) (steps : List TallyStep) : Int :=
  (steps.map (mark k a)).sum

/-- A step adds its mark to those of the steps behind it. -/
theorem marks_cons (k : StatisticKind) (a : Axis) (s : TallyStep) (rest : List TallyStep) :
    marks k a (s :: rest) = s.mark k a + marks k a rest := List.sum_cons

/-- The numbers that a change has along an axis after each step, if none is too large. A flush
begins a new change. -/
def runningSums (k : StatisticKind) (a : Axis) : Int → List TallyStep → List Int
  | _, [] => []
  | sum, .ingested info :: rest =>
    (sum + info.mark k a) :: runningSums k a (sum + info.mark k a) rest
  | sum, .deleted info :: rest =>
    (sum - info.mark k a) :: runningSums k a (sum - info.mark k a) rest
  | _, .flush :: rest => runningSums k a 0 rest

end TallyStep

/-- The order of changes does not matter for what they weigh. -/
theorem ParkedDelta.net_changesOf_perm {l m : List ParkedDelta} (h : l.Perm m) (c : StatisticKey)
    (a : Axis) : Statistic.net (changesOf c l) a = Statistic.net (changesOf c m) a :=
  (((h.filter _).map _).map _).sum_eq

namespace Statistic

/-- Empty statistics may be left out of a sum. -/
theorem net_filter_isEmpty (l : List Statistic) (a : Axis) :
    net (l.filter fun s ↦ !s.isEmpty) a = net l a := by
  induction l with
  | nil => rfl
  | cons s rest ih =>
    by_cases h : s.isEmpty
    · rw [List.filter_cons_of_neg (by simp [h]), ih, net_cons, weight_of_isEmpty h, Int.zero_add]
    · rw [List.filter_cons_of_pos (by simp [h]), net_cons, net_cons, ih]

end Statistic

namespace Tally

variable {t : Tally} {c : StatisticKey} {a : Axis} {sum : Int}

/-- Changes of one kind with a common weight. -/
def Shows (t : Tally) (k : StatisticKind) (a : Axis) (sum : Int) : Prop :=
  ∀ delta ∈ t.deltas, delta.kind = k → delta.weight a = sum

/-- A tally begins with weights of zero. -/
theorem shows_start (adapter : Bytes) (kinds : List StatisticKind) (k : StatisticKind) (a : Axis) :
    (start adapter kinds).Shows k a 0 := by
  intro delta hd _
  obtain ⟨kind, -, rfl⟩ := List.mem_map.mp hd
  exact Statistic.weight_empty kind a

/-- A tally begins with the kinds that it is given. -/
theorem kinds_start (adapter : Bytes) (kinds : List StatisticKind) :
    (start adapter kinds).deltas.map (·.kind) = kinds := by
  simp [start, Function.comp_def]

/-- An entry that is observed moves the common weight by its mark. -/
theorem Shows.observe {k : StatisticKind} (h : t.Shows k a sum) (sign : Int) (info : EntryInfo)
    (hrange : InRange (sum + sign * info.mark k a)) :
    Shows ⟨t.adapter, t.deltas.map (·.observe sign info)⟩ k a (sum + sign * info.mark k a) := by
  intro delta hd hk
  obtain ⟨old, hold, rfl⟩ := List.mem_map.mp hd
  rw [Statistic.kind_observe] at hk
  subst hk
  have hw := h old hold rfl
  rw [← hw] at hrange ⊢
  exact old.weight_observe sign info a hrange

/-- The kinds of a tally stay. -/
theorem kinds_observe (t : Tally) (sign : Int) (info : EntryInfo) :
    (t.deltas.map (·.observe sign info)).map (·.kind) = t.deltas.map (·.kind) := by
  rw [List.map_map]
  exact List.map_congr_left fun delta _ ↦ delta.kind_observe sign info

/-- A tally hands in its common weight as often as it has changes of the kind. -/
theorem Shows.net_handed (h : t.Shows c.kind a sum) (hadapter : c.adapter = t.adapter) :
    Statistic.net (ParkedDelta.changesOf c t.handed) a =
      (t.deltas.map (·.kind)).count c.kind * sum := by
  rw [handed, ParkedDelta.changesOf_map, if_pos hadapter, List.filter_filter,
    List.filter_congr fun _ _ ↦ Bool.and_comm _ _, ← List.filter_filter,
    Statistic.net_filter_isEmpty, ← t.length_filter_kind]
  refine Statistic.net_of_forall fun delta hd ↦ ?_
  obtain ⟨hd, hk⟩ := List.mem_filter.mp hd
  exact h delta hd (eq_of_beq hk)

/-- A tally hands in what its steps add, as often as it has changes of the kind. -/
theorem Shows.net_handedIn (h : t.Shows c.kind a sum) (hadapter : c.adapter = t.adapter)
    (steps : List TallyStep)
    (hrange : ∀ s ∈ TallyStep.runningSums c.kind a sum steps, InRange s) :
    Statistic.net (ParkedDelta.changesOf c (t.handedIn steps)) a =
      (t.deltas.map (·.kind)).count c.kind * (sum + TallyStep.marks c.kind a steps) := by
  induction steps generalizing t sum with
  | nil =>
    rw [handedIn, h.net_handed hadapter]
    exact congrArg _ (Int.add_zero sum).symm
  | cons s rest ih =>
    rw [TallyStep.marks_cons]
    cases s with
    | ingested info =>
      rw [TallyStep.runningSums, List.forall_mem_cons] at hrange
      have hnext := h.observe 1 info (by rw [Int.one_mul]; exact hrange.1)
      rw [Int.one_mul] at hnext
      have hrest := ih hnext hadapter hrange.2
      rw [kinds_observe] at hrest
      rw [handedIn, TallyStep.mark, ← Int.add_assoc]
      exact hrest
    | deleted info =>
      rw [TallyStep.runningSums, List.forall_mem_cons] at hrange
      have hsign : sum - info.mark c.kind a = sum + -1 * info.mark c.kind a := by omega
      rw [hsign] at hrange
      have hrest := ih (h.observe (-1) info hrange.1) hadapter hrange.2
      rw [kinds_observe] at hrest
      rw [handedIn, TallyStep.mark, ← Int.add_assoc, ← Int.sub_eq_add_neg, hsign]
      exact hrest
    | flush =>
      have hrest := ih (shows_start t.adapter (t.deltas.map (·.kind)) c.kind a) hadapter hrange
      rw [kinds_start, Int.zero_add] at hrest
      rw [handedIn, ParkedDelta.changesOf_append, Statistic.net_append, h.net_handed hadapter,
        hrest, TallyStep.mark, Int.zero_add, Int.mul_add]

/-- A tally hands in changes of its adapter and its kinds only. -/
theorem of_mem_handedIn {p : ParkedDelta} {steps : List TallyStep} (h : p ∈ t.handedIn steps) :
    p.adapter = t.adapter ∧ p.delta.kind ∈ t.deltas.map (·.kind) := by
  have hhanded : ∀ t : Tally, p ∈ t.handed →
      p.adapter = t.adapter ∧ p.delta.kind ∈ t.deltas.map (·.kind) := by
    intro t ht
    obtain ⟨delta, hd, rfl⟩ := List.mem_map.mp ht
    exact ⟨rfl, List.mem_map_of_mem (List.mem_filter.mp hd).1⟩
  induction steps generalizing t with
  | nil => exact hhanded t h
  | cons s rest ih =>
    cases s with
    | ingested info =>
      have hkinds : (t.ingested info).deltas.map (·.kind) = t.deltas.map (·.kind) :=
        t.kinds_observe 1 info
      have hrest := ih h
      rwa [hkinds] at hrest
    | deleted info =>
      have hkinds : (t.deleted info).deltas.map (·.kind) = t.deltas.map (·.kind) :=
        t.kinds_observe (-1) info
      have hrest := ih h
      rwa [hkinds] at hrest
    | flush =>
      rcases List.mem_append.mp h with h | h
      · exact hhanded t h
      · have hrest := ih h
        rwa [kinds_start] at hrest

end Tally

namespace LedgerUse

/-- What a use adds to the total of a key along an axis: the marks of its steps, as often as the
tally lists the kind. -/
def contributes (c : StatisticKey) (a : Axis) : LedgerUse → Int
  | scope adapter kinds steps =>
    Ledger.share adapter kinds c * TallyStep.marks c.kind a steps
  | retry => 0

/-- The numbers that changes of a key have along an axis, if none is too large. -/
def runningSums (c : StatisticKey) (a : Axis) : LedgerUse → List Int
  | scope adapter kinds steps =>
    if Ledger.share adapter kinds c = 0 then [] else TallyStep.runningSums c.kind a 0 steps
  | retry => []

/-- What is handed in weighs what the use adds, if no number is too large. -/
theorem net_handedIn (u : LedgerUse) (c : StatisticKey) (a : Axis)
    (hrange : ∀ s ∈ u.runningSums c a, InRange s) :
    Statistic.net (ParkedDelta.changesOf c u.handedIn) a = u.contributes c a := by
  cases u with
  | retry => rfl
  | scope adapter kinds steps =>
    rw [handedIn, contributes]
    by_cases hshare : Ledger.share adapter kinds c = 0
    · have hnone : ParkedDelta.changesOf c ((Tally.start adapter kinds).handedIn steps) = [] := by
        rw [ParkedDelta.changesOf, List.filter_eq_nil_iff.mpr, List.map_nil]
        intro p hp hkey
        obtain ⟨hadapter, hkind⟩ := Tally.of_mem_handedIn hp
        have hkeyAdapter : p.key.adapter = adapter := hadapter
        rw [Tally.kinds_start] at hkind
        rw [← of_decide_eq_true hkey, Ledger.share, if_pos hkeyAdapter] at hshare
        exact List.count_eq_zero.mp hshare hkind
      rw [hnone, hshare]
      simp
    · have hadapter : c.adapter = adapter := by
        by_contra hne
        exact hshare (if_neg hne)
      rw [runningSums, if_neg hshare] at hrange
      have hnet := (Tally.shows_start adapter kinds c.kind a).net_handedIn hadapter steps hrange
      rw [Tally.kinds_start, Int.zero_add] at hnet
      rw [hnet, Ledger.share, if_pos hadapter]

/-- What uses hand in weighs what they add, if no number is too large. -/
theorem net_flatMap_handedIn (uses : List LedgerUse) (c : StatisticKey) (a : Axis)
    (hrange : ∀ u ∈ uses, ∀ s ∈ u.runningSums c a, InRange s) :
    Statistic.net (ParkedDelta.changesOf c (uses.flatMap handedIn)) a =
      (uses.map (contributes c a)).sum := by
  induction uses with
  | nil => rfl
  | cons u rest ih =>
    rw [List.forall_mem_cons] at hrange
    rw [List.flatMap_cons, ParkedDelta.changesOf_append, Statistic.net_append, List.map_cons,
      List.sum_cons, u.net_handedIn c a hrange.1, ih hrange.2]

end LedgerUse

/-! ## Nothing is lost or repeated -/

namespace Ledger

/-- No number of a key leaves its range along an axis while a ledger is used: none that a tally
collects, and no total. -/
structure StaysInRange (l : Ledger) (uses : List LedgerUse) (c : StatisticKey) (a : Axis) :
    Prop where
  collected : ∀ u ∈ uses, ∀ s ∈ u.runningSums c a, InRange s
  totals : ∀ earlier, l.store.merged ++ earlier <+: (l.useEach uses).value.store.merged →
    InRange ((l.total c).weight a + Statistic.net (ParkedDelta.changesOf c earlier) a)

variable {l : Ledger} {uses : List LedgerUse}

/-- The total of a key, its parked changes and its rejected ones grow together by what the uses of a
ledger add. -/
theorem Kinded.weight_useEach (h : l.Kinded) {c : StatisticKey} {a : Axis}
    (hrange : l.StaysInRange uses c a) :
    ((l.useEach uses).value.total c).weight a + Statistic.net ((l.useEach uses).value.parked c) a +
        Statistic.net (ParkedDelta.changesOf c (l.useEach uses).value.store.rejected) a =
      (l.total c).weight a + Statistic.net (l.parked c) a +
        Statistic.net (ParkedDelta.changesOf c l.store.rejected) a +
        (uses.map (LedgerUse.contributes c a)).sum := by
  have hconserves := h.conserves_useEach uses
  have hnet := ParkedDelta.net_changesOf_perm hconserves.perm c a
  have hadded := LedgerUse.net_flatMap_handedIn uses c a hrange.collected
  obtain ⟨fresh, hfresh, hgrows⟩ := hconserves.grows
  have htotal := hgrows c a fun earlier hearlier ↦
    hrange.totals earlier (hfresh ▸ (List.prefix_append_right_inj _).mpr hearlier)
  rw [hfresh] at hnet
  simp only [ParkedDelta.changesOf_append, Statistic.net_append] at hnet
  unfold parked
  omega

/-- A ledger neither loses nor repeats a change, whatever the host decides. However tallies are
opened on it, collect, flush and are closed, and parked changes are handed in again, each change
that was handed in has been merged once or rejected once, or is parked; and as long as no number
leaves its range, the total of a key, its parked changes and its rejected ones weigh what the
tallies have collected for it. A flush hands in what has been collected and parks what is refused,
reports once if anything was refused or rejected, and leaves nothing for a second flush. A retry,
which opens each tally as well, hands in what is parked, and reports each change that is
rejected. -/
theorem conserves_changes :
    (∀ (l : Ledger) (uses : List LedgerUse), l.Kinded →
      let m := (l.useEach uses).value
      m.Kinded ∧
        (m.store.merged ++ m.store.rejected ++ m.backlog).Perm
          (l.store.merged ++ l.store.rejected ++ l.backlog ++ uses.flatMap LedgerUse.handedIn) ∧
        ∀ c a, l.StaysInRange uses c a →
          (m.total c).weight a + Statistic.net (m.parked c) a +
              Statistic.net (ParkedDelta.changesOf c m.store.rejected) a =
            (l.total c).weight a + Statistic.net (l.parked c) a +
              Statistic.net (ParkedDelta.changesOf c l.store.rejected) a +
              (uses.map (LedgerUse.contributes c a)).sum) ∧
    (∀ (l : Ledger) (t : Tally), l.Kinded →
      let r := (t.flush l).value
      let answers := l.answers t.handed
      let merged := (picked Verdict.isMerge answers).length
      Hands l r.ledger t.handed ∧
        (t.flush l).events =
          (if 0 < merged then [.statisticsFlushed t.adapter merged] else []) ++
            (if answers.any fun (_, v) ↦ !v.isMerge then [.statisticsFlushFailed t.adapter]
              else []) ∧
        (t.close l).value = r.ledger ∧ (t.close l).events = (t.flush l).events ∧
        r.tally.flush r.ledger = pure ⟨none, r.ledger, r.tally⟩) ∧
    ∀ l : Ledger, l.Kinded →
      Hands { l with backlog := [] } l.retryBacklog.value l.backlog ∧
        l.retryBacklog.events =
          ((picked Verdict.isReject (l.answers l.backlog)).map fun p ↦
            .statisticsFlushFailed p.adapter) ∧
        ∀ adapter kinds, Tally.openOn l adapter kinds =
          (·, Tally.start adapter kinds) <$> l.retryBacklog := by
  refine ⟨?_, ?_, ?_⟩
  · intro l uses h
    have hconserves := h.conserves_useEach uses
    exact ⟨hconserves.kinded, hconserves.perm, fun c a hrange ↦ h.weight_useEach hrange⟩
  · intro l t h
    refine ⟨h.hands_flush t, Tally.events_flush h t, ?_, Tally.events_close l t, ?_⟩
    · rw [Tally.value_close, Tally.value_flush]
    · rw [Tally.value_flush]
      exact Tally.flush_start _ _ _
  · intro l h
    exact ⟨h.hands_retryBacklog, h.events_retryBacklog, Tally.openOn_eq l⟩

/-- A host that refuses the first call, merges the second one and rejects all others. -/
def wavering : Ledger where
  store := { verdict := fun before _ ↦
    match before with
    | [] => .refuse "offline"
    | [_] => .merge
    | _ => .reject .count .count }

/-- One entry, then two more entries of an adapter that counts its entries, then a retry. -/
def threeEntries : List LedgerUse :=
  [.scope [97] [.count] [.ingested .empty],
    .scope [97] [.count] [.ingested .empty, .ingested .empty], .retry]

/-- The change of the first entry is refused and merged later, and that of the other two entries is
rejected; together they are the three entries. -/
theorem conserves_changes_wavering :
    let m := (wavering.useEach threeEntries).value
    let c : StatisticKey := ⟨[97], .count⟩
    m.store.merged = [⟨[97], .count 1⟩] ∧
      (m.store.merged ++ m.store.rejected ++ m.backlog).Perm
        (threeEntries.flatMap LedgerUse.handedIn) ∧
      (m.total c).weight .entries + Statistic.net (m.parked c) .entries +
        Statistic.net (ParkedDelta.changesOf c m.store.rejected) .entries = 3 := by
  have hkinded : wavering.Kinded := kinded_of_verdict _
  have hmerged : (wavering.useEach threeEntries).value.store.merged = [⟨[97], .count 1⟩] := rfl
  have hrange : wavering.StaysInRange threeEntries ⟨[97], .count⟩ .entries := by
    refine ⟨by decide, ?_⟩
    intro earlier hearlier
    have hnone : wavering.store.merged = [] := rfl
    rw [hmerged, hnone, List.nil_append] at hearlier
    rcases List.prefix_cons_iff.mp hearlier with rfl | ⟨rest, rfl, hrest⟩
    · decide
    · rw [List.prefix_nil.mp hrest]
      decide
  obtain ⟨-, hperm, hsum⟩ := conserves_changes.1 wavering threeEntries hkinded
  exact ⟨hmerged, hperm, hsum _ _ hrange⟩

end Ledger

end RowVault
