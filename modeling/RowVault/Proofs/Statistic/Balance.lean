import RowVault.Proofs.Statistic.Weight
import RowVault.Statistic.Ledger

/-!
# What a ledger stands for

The total of a key together with the changes that are parked for it is where the key stands. A
ledger whose store merges or refuses takes every change in, one way or the other: sums along the
axes grow by what is handed in, whatever the store refuses, and handing parked changes in again does
not move them.
-/

namespace RowVault

namespace Statistic

/-- The sum of statistics along an axis. -/
def net (l : List Statistic) (a : Axis) : Int := (l.map (·.weight a)).sum

/-- The sum of the magnitudes of statistics along an axis. -/
def bulk (l : List Statistic) (a : Axis) : Nat := (l.map fun s ↦ (s.weight a).natAbs).sum

variable {l : List Statistic} {s t : Statistic} {a : Axis}

/-- No changes add up to nothing. -/
@[simp] theorem net_nil (a : Axis) : net [] a = 0 := rfl

/-- A change adds its weight to the sum of the others. -/
@[simp] theorem net_cons (s : Statistic) (l : List Statistic) (a : Axis) :
    net (s :: l) a = s.weight a + net l a := List.sum_cons

/-- Changes behind others add their sum. -/
@[simp] theorem net_append (l m : List Statistic) (a : Axis) :
    net (l ++ m) a = net l a + net m a := by
  rw [net, List.map_append, List.sum_append_int]
  rfl

/-- No changes have no bulk. -/
@[simp] theorem bulk_nil (a : Axis) : bulk [] a = 0 := rfl

/-- A change adds its magnitude to the bulk of the others. -/
@[simp] theorem bulk_cons (s : Statistic) (l : List Statistic) (a : Axis) :
    bulk (s :: l) a = (s.weight a).natAbs + bulk l a := List.sum_cons

/-- Changes behind others add their bulk. -/
@[simp] theorem bulk_append (l m : List Statistic) (a : Axis) :
    bulk (l ++ m) a = bulk l a + bulk m a := by
  rw [bulk, List.map_append, List.sum_append_nat]
  rfl

/-- A sum is bounded by the sum of the magnitudes. -/
theorem natAbs_net_le (l : List Statistic) (a : Axis) : (net l a).natAbs ≤ bulk l a := by
  induction l with
  | nil => exact Nat.le_refl _
  | cons s rest ih =>
    rw [net_cons, bulk_cons]
    omega

/-- Statistics of one weight. -/
theorem net_of_forall {w : Int} (h : ∀ s ∈ l, s.weight a = w) : net l a = l.length * w := by
  induction l with
  | nil => simp
  | cons s rest ih =>
    rw [net_cons, h s (by simp), ih fun t ht ↦ h t (by simp [ht]), List.length_cons]
    rw [Int.natCast_succ, Int.add_mul, Int.one_mul, Int.add_comm]

/-- Statistics of small weights. -/
theorem bulk_le_of_forall {n : Nat} (h : ∀ s ∈ l, (s.weight a).natAbs ≤ n) :
    bulk l a ≤ l.length * n := by
  induction l with
  | nil => simp
  | cons s rest ih =>
    have hs := h s (by simp)
    have hrest := ih fun t ht ↦ h t (by simp [ht])
    rw [bulk_cons, List.length_cons, Nat.succ_mul]
    omega

/-- Statistics of one kind are merged one after the other, and their weights are added. -/
theorem foldlM_merge (hs : s.Canonical) (hk : ∀ t ∈ l, t.kind = s.kind)
    (hb : ∀ a, bulk (s :: l) a < 2 ^ 63) :
    ∃ u, l.foldlM merge s = .ok u ∧ u.kind = s.kind ∧ u.Canonical ∧
      ∀ a, u.weight a = net (s :: l) a := by
  induction l generalizing s with
  | nil => exact ⟨s, rfl, rfl, hs, fun a ↦ by simp⟩
  | cons t rest ih =>
    obtain ⟨u, hu⟩ := exists_merge (hk t (by simp)).symm
    have hweight : ∀ a, u.weight a = s.weight a + t.weight a := by
      intro a
      have ha := hb a
      rw [bulk_cons, bulk_cons] at ha
      exact weight_merge hu a (inRange_of_natAbs_lt (by omega))
    have hkind : u.kind = s.kind := kind_of_merge hu
    obtain ⟨v, hv, hvk, hvc, hvw⟩ := ih (hs.merge hu)
      (fun r hr ↦ (hk r (by simp [hr])).trans hkind.symm) (by
        intro a
        have ha := hb a
        have hw := hweight a
        rw [bulk_cons, bulk_cons] at ha
        rw [bulk_cons]
        omega)
    refine ⟨v, ?_, hvk.trans hkind, hvc, ?_⟩
    · rw [List.foldlM_cons, hu]
      exact hv
    · intro a
      have ha := hvw a
      have hw := hweight a
      rw [net_cons] at ha
      rw [net_cons, net_cons]
      omega

end Statistic

namespace ParkedDelta

/-- What a change belongs to. -/
def key (p : ParkedDelta) : StatisticKey := ⟨p.adapter, p.delta.kind⟩

/-- The call that hands a change to a store. -/
def call (p : ParkedDelta) : StatisticCall := ⟨p.key, p.delta⟩

/-- The changes of a key. -/
def changesOf (c : StatisticKey) (changes : List ParkedDelta) : List Statistic :=
  (changes.filter fun p ↦ decide (p.key = c)).map (·.delta)

/-- Nothing parked holds no changes of a key. -/
@[simp] theorem changesOf_nil (c : StatisticKey) : changesOf c [] = [] := rfl

/-- Deltas parked behind others hold the later changes of a key. -/
@[simp] theorem changesOf_append (c : StatisticKey) (l m : List ParkedDelta) :
    changesOf c (l ++ m) = changesOf c l ++ changesOf c m := by
  rw [changesOf, List.filter_append, List.map_append]
  rfl

/-- The first parked delta is a change of its own key only. -/
theorem changesOf_cons (c : StatisticKey) (p : ParkedDelta) (rest : List ParkedDelta) :
    changesOf c (p :: rest) = (if p.key = c then [p.delta] else []) ++ changesOf c rest := by
  unfold changesOf
  by_cases h : p.key = c <;> simp [h]

/-- The changes of a key are of its kind. -/
theorem kind_of_mem_changesOf {c : StatisticKey} {changes : List ParkedDelta} {s : Statistic}
    (h : s ∈ changesOf c changes) : s.kind = c.kind := by
  obtain ⟨p, hp, rfl⟩ := List.mem_map.mp h
  have hc : p.key = c := of_decide_eq_true (List.mem_filter.mp hp).2
  rw [← hc]
  rfl

/-- The changes that an adapter hands in for one of its kinds. -/
theorem changesOf_map (adapter : Bytes) (deltas : List Statistic) (c : StatisticKey) :
    changesOf c (deltas.map fun delta ↦ ⟨adapter, delta⟩) =
      if c.adapter = adapter then deltas.filter fun delta ↦ delta.kind == c.kind else [] := by
  obtain ⟨other, kind⟩ := c
  induction deltas with
  | nil => simp
  | cons delta rest ih =>
    rw [List.map_cons, changesOf_cons, ih]
    by_cases ha : other = adapter
    · subst ha
      by_cases hk : delta.kind = kind <;> simp [key, hk]
    · simp [key, ha, Ne.symm ha]

end ParkedDelta

namespace Ledger

variable {l m n : Ledger} {c : StatisticKey}

/-- The total of a key. -/
def total (l : Ledger) (c : StatisticKey) : Statistic := l.store.totals.getD c (.empty c.kind)

/-- The changes that are parked for a key. -/
def parked (l : Ledger) (c : StatisticKey) : List Statistic := ParkedDelta.changesOf c l.backlog

/-- The total of a key, merged with all changes that are parked for it. -/
def standing (l : Ledger) (c : StatisticKey) : Except StatisticsError Statistic :=
  (l.parked c).foldlM Statistic.merge (l.total c)

/-- The sum of a key's total and parked changes. -/
def sum (l : Ledger) (c : StatisticKey) (a : Axis) : Int :=
  Statistic.net (l.total c :: l.parked c) a

/-- The sum of the magnitudes of a key's total and parked changes. -/
def volume (l : Ledger) (c : StatisticKey) (a : Axis) : Nat :=
  Statistic.bulk (l.total c :: l.parked c) a

/-- The totals of the store are of the kinds of their keys. -/
def Kinded (l : Ledger) : Prop :=
  ∀ (c : StatisticKey) (t : Statistic), l.store.totals[c]? = some t → t.kind = c.kind

/-- A store without totals has none of a wrong kind. -/
theorem kinded_of_verdict (verdict : List StatisticCall → StatisticCall → Verdict) :
    Kinded { store := { verdict } } := by
  intro c t ht
  simp at ht

/-- A total is of the kind of its key. -/
theorem Kinded.kind_total (h : l.Kinded) (c : StatisticKey) : (l.total c).kind = c.kind := by
  rw [total, Std.ExtTreeMap.getD_eq_getD_getElem?]
  cases hc : l.store.totals[c]? with
  | none => exact Statistic.kind_empty c.kind
  | some t => exact h c t hc

/-- The store rejects nothing, and its totals are of the kinds of their keys and keep no zeros. -/
structure Sane (l : Ledger) : Prop where
  accepts : ∀ before call expected found, l.store.verdict before call ≠ .reject expected found
  kind_eq : ∀ {c : StatisticKey} {t}, l.store.totals[c]? = some t → t.kind = c.kind
  canonical : ∀ {c : StatisticKey} {t}, l.store.totals[c]? = some t → t.Canonical

namespace Sane

/-- The totals are of the right kinds in particular. -/
theorem kinded (h : l.Sane) : l.Kinded := fun _ _ ↦ h.kind_eq

/-- A total keeps no zeros. -/
theorem canonical_total (h : l.Sane) (c : StatisticKey) : (l.total c).Canonical := by
  rw [total, Std.ExtTreeMap.getD_eq_getD_getElem?]
  cases hc : l.store.totals[c]? with
  | none => exact Statistic.canonical_empty c.kind
  | some t => exact h.canonical hc

/-- Where numbers stay in range, a key's total merges with what is parked, and weighs its sum. -/
theorem standing_eq (h : l.Sane) (hb : ∀ a, l.volume c a < 2 ^ 63) :
    ∃ u, l.standing c = .ok u ∧ u.kind = c.kind ∧ u.Canonical ∧ ∀ a, u.weight a = l.sum c a := by
  obtain ⟨u, hu, hk, hc, hw⟩ := Statistic.foldlM_merge (h.canonical_total c)
    (fun t ht ↦ (ParkedDelta.kind_of_mem_changesOf ht).trans (h.kinded.kind_total c).symm) hb
  exact ⟨u, hu, hk.trans (h.kinded.kind_total c), hc, hw⟩

end Sane

/-- A store without totals that rejects nothing. -/
theorem sane_of_verdict {verdict : List StatisticCall → StatisticCall → Verdict}
    (h : ∀ before call expected found, verdict before call ≠ .reject expected found) :
    Sane { store := { verdict } } where
  accepts := h
  kind_eq hc := by simp at hc
  canonical hc := by simp at hc

/-! ## Taking changes in -/

/-- A ledger has taken in changes: where numbers stay in range, every key's sum has grown by its
changes, and its volume by no more than theirs. -/
structure Takes (l m : Ledger) (changes : List ParkedDelta) : Prop where
  sane : m.Sane
  grows : ∀ c a, l.volume c a + Statistic.bulk (ParkedDelta.changesOf c changes) a < 2 ^ 63 →
    m.sum c a = l.sum c a + Statistic.net (ParkedDelta.changesOf c changes) a ∧
      m.volume c a ≤ l.volume c a + Statistic.bulk (ParkedDelta.changesOf c changes) a

namespace Takes

variable {changes more : List ParkedDelta}

/-- Without changes nothing happens. -/
theorem refl (h : l.Sane) : Takes l l [] where
  sane := h
  grows c a _ := by simp

/-- Changes are taken in one after the other. -/
theorem trans (h : Takes l m changes) (h' : Takes m n more) : Takes l n (changes ++ more) where
  sane := h'.sane
  grows c a hb := by
    simp only [ParkedDelta.changesOf_append, Statistic.net_append, Statistic.bulk_append] at hb ⊢
    obtain ⟨hsum, hvolume⟩ := h.grows c a (by omega)
    obtain ⟨hsum', hvolume'⟩ := h'.grows c a (by omega)
    constructor <;> omega

/-- An empty change may be passed over. -/
theorem cons_of_isEmpty {p : ParkedDelta} (h : Takes l m changes) (hp : p.delta.isEmpty = true) :
    Takes l m (p :: changes) where
  sane := h.sane
  grows c a hb := by
    have hw := Statistic.weight_of_isEmpty hp a
    rw [ParkedDelta.changesOf_cons] at hb ⊢
    by_cases hc : p.key = c
    · simp only [hc, if_true, Statistic.bulk_append, Statistic.net_append, Statistic.bulk_cons,
        Statistic.net_cons, Statistic.bulk_nil, Statistic.net_nil, hw] at hb ⊢
      obtain ⟨hsum, hvolume⟩ := h.grows c a (by omega)
      constructor <;> omega
    · simp only [hc, if_false, List.nil_append] at hb ⊢
      exact h.grows c a hb

end Takes

/-- The ledger whose store has merged a change into the total of its key. -/
def merged (l : Ledger) (p : ParkedDelta) (total : Statistic) : Ledger :=
  { l with store := { l.store with
      totals := l.store.totals.insert p.key total
      calls := ⟨p.key, p.delta⟩ :: l.store.calls } }

/-- The ledger whose store has refused a change, which is parked. -/
def refused (l : Ledger) (p : ParkedDelta) : Ledger where
  store := { l.store with calls := ⟨p.key, p.delta⟩ :: l.store.calls }
  backlog := l.backlog ++ [p]

/-- The ledger whose store has rejected a change, which is dropped. -/
def rejected (l : Ledger) (p : ParkedDelta) : Ledger :=
  { l with store := { l.store with calls := ⟨p.key, p.delta⟩ :: l.store.calls } }

/-- A merge replaces the total of one key. -/
theorem total_merged (l : Ledger) (p : ParkedDelta) (t : Statistic) (c : StatisticKey) :
    (l.merged p t).total c = if p.key = c then t else l.total c := by
  rw [total, merged, Std.ExtTreeMap.getD_insert]
  simp only [Std.LawfulEqOrd.compare_eq_iff_eq]
  rfl

/-- The verdict of the host decides whether a change is merged into the total of its key, refused
and parked, or rejected and dropped. -/
theorem Kinded.applyOrPark_cases (h : l.Kinded) (p : ParkedDelta) :
    (∃ u, l.store.verdict l.store.calls p.call = .merge ∧
        (l.total p.key).merge p.delta = .ok u ∧
        l.applyOrPark p.adapter p.delta = (.ok (), l.merged p u)) ∨
      (∃ reason, l.store.verdict l.store.calls p.call = .refuse reason ∧
        l.applyOrPark p.adapter p.delta = (.error (.unavailable reason), l.refused p)) ∨
      ∃ expected found, l.store.verdict l.store.calls p.call = .reject expected found ∧
        l.applyOrPark p.adapter p.delta =
          (.error (.kindMismatch expected found), l.rejected p) := by
  have hcall : (⟨⟨p.adapter, p.delta.kind⟩, p.delta⟩ : StatisticCall) = p.call := rfl
  unfold applyOrPark StatisticsStore.apply
  rw [hcall]
  cases hv : l.store.verdict l.store.calls p.call with
  | reject expected found => exact .inr (.inr ⟨expected, found, rfl, rfl⟩)
  | refuse reason => exact .inr (.inl ⟨reason, rfl, rfl⟩)
  | merge =>
    obtain ⟨u, hu⟩ := Statistic.exists_merge (h.kind_total p.key)
    refine .inl ⟨u, rfl, hu, ?_⟩
    have hm : l.store.totals.merge p.call = .ok (l.store.totals.insert p.key u) := by
      rw [Totals.merge, if_pos (show p.call.delta.kind = p.call.key.kind from rfl)]
      change Except.map _ ((l.total p.key).merge p.delta) = _
      rw [hu]
      rfl
    simp only [hm]
    rfl

/-- A change is merged into the total of its key, or refused and parked. -/
theorem Sane.applyOrPark_cases (h : l.Sane) (p : ParkedDelta) :
    (∃ u, (l.total p.key).merge p.delta = .ok u ∧
        l.applyOrPark p.adapter p.delta = (.ok (), l.merged p u)) ∨
      ∃ reason, l.applyOrPark p.adapter p.delta =
        (.error (.unavailable reason), l.refused p) := by
  rcases h.kinded.applyOrPark_cases p with
    ⟨u, -, hu, he⟩ | ⟨reason, -, he⟩ | ⟨expected, found, hv, -⟩
  · exact .inl ⟨u, hu, he⟩
  · exact .inr ⟨reason, he⟩
  · exact absurd hv (h.accepts _ _ _ _)

section

variable {p : ParkedDelta} {u : Statistic}

/-- A merge keeps the kinds of totals. -/
theorem Kinded.merged (h : l.Kinded) (hu : (l.total p.key).merge p.delta = .ok u) :
    (l.merged p u).Kinded := by
  intro c t ht
  rw [Ledger.merged, Std.ExtTreeMap.getElem?_insert] at ht
  split at ht
  · next hc =>
    cases ht
    rw [← Std.LawfulEqOrd.eq_of_compare hc]
    exact (Statistic.kind_of_merge hu).trans (h.kind_total _)
  · exact h c t ht

/-- A merge keeps totals sane. -/
theorem Sane.merged (h : l.Sane) (hu : (l.total p.key).merge p.delta = .ok u) :
    (l.merged p u).Sane := by
  constructor
  · exact h.accepts
  · intro c t ht
    exact h.kinded.merged hu c t ht
  · intro c t ht
    rw [Ledger.merged, Std.ExtTreeMap.getElem?_insert] at ht
    split at ht
    · cases ht
      exact (h.canonical_total _).merge hu
    · exact h.canonical ht

/-- A change that is merged has been taken in. -/
theorem Sane.takes_merged (h : l.Sane) (hu : (l.total p.key).merge p.delta = .ok u) :
    Takes l (l.merged p u) [p] := by
  have hparked : ∀ c, (l.merged p u).parked c = l.parked c := fun _ ↦ rfl
  refine ⟨h.merged hu, ?_⟩
  intro c a hb
  simp only [sum, volume, total_merged, hparked, ParkedDelta.changesOf_cons,
    ParkedDelta.changesOf_nil, List.append_nil, Statistic.net_cons, Statistic.bulk_cons] at hb ⊢
  by_cases hk : p.key = c
  · subst hk
    simp only [if_true, Statistic.bulk_cons, Statistic.bulk_nil, Statistic.net_cons,
      Statistic.net_nil] at hb ⊢
    have hw := Statistic.weight_merge hu a (inRange_of_natAbs_lt (by omega))
    constructor <;> omega
  · simp [hk]

/-- A change that is refused has been taken in as well, since it is parked. -/
theorem Sane.takes_refused (h : l.Sane) (p : ParkedDelta) : Takes l (l.refused p) [p] := by
  refine ⟨⟨h.accepts, h.kind_eq, h.canonical⟩, ?_⟩
  intro c a _
  have htotal : (l.refused p).total c = l.total c := rfl
  have hparked : (l.refused p).parked c = l.parked c ++ ParkedDelta.changesOf c [p] :=
    ParkedDelta.changesOf_append c _ _
  simp only [sum, volume, htotal, hparked, Statistic.net_cons, Statistic.bulk_cons,
    Statistic.net_append, Statistic.bulk_append]
  constructor <;> omega

end

/-- Whether the store merges a change or refuses it, the ledger takes it in. -/
theorem Sane.takes_applyOrPark (h : l.Sane) (p : ParkedDelta) :
    Takes l (l.applyOrPark p.adapter p.delta).2 [p] := by
  rcases h.applyOrPark_cases p with ⟨u, hu, he⟩ | ⟨reason, he⟩
  · rw [he]
    exact h.takes_merged hu
  · rw [he]
    exact h.takes_refused p

/-- Parked changes are handed in again whatever becomes of the first one. -/
theorem value_retryEach_cons (l : Ledger) (p : ParkedDelta) (rest : List ParkedDelta) :
    (l.retryEach (p :: rest)).value =
      ((l.applyOrPark p.adapter p.delta).2.retryEach rest).value := by
  rw [retryEach]
  rcases l.applyOrPark p.adapter p.delta with ⟨⟨⟨expected, found⟩ | reason⟩ | ⟨⟩, m⟩ <;> rfl

/-- Whether parked changes are left makes a difference to the log only. -/
theorem value_retryBacklog (l : Ledger) :
    l.retryBacklog.value = ({ l with backlog := [] }.retryEach l.backlog).value := by
  rw [retryBacklog, Traced.value_bind]
  split <;> rfl

/-- All changes that are handed in again are taken in. -/
theorem Sane.takes_retryEach (h : l.Sane) (changes : List ParkedDelta) :
    Takes l (l.retryEach changes).value changes := by
  induction changes generalizing l with
  | nil => exact .refl h
  | cons p rest ih =>
    have hp := h.takes_applyOrPark p
    rw [value_retryEach_cons]
    exact hp.trans (ih hp.sane)

/-- Handing parked changes in again moves no sum. -/
theorem Sane.takes_retryBacklog (h : l.Sane) : Takes l l.retryBacklog.value [] := by
  have hempty : Sane { l with backlog := [] } := ⟨h.accepts, h.kind_eq, h.canonical⟩
  have hall := hempty.takes_retryEach l.backlog
  rw [value_retryBacklog]
  refine ⟨hall.sane, ?_⟩
  intro c a hb
  have hc := hall.grows c a
  simp only [sum, volume, total, parked, Statistic.net_cons, Statistic.bulk_cons,
    ParkedDelta.changesOf_nil, Statistic.net_nil, Statistic.bulk_nil, Nat.add_zero, Int.add_zero]
    at hb hc ⊢
  exact hc hb

end Ledger

namespace Tally

variable {l : Ledger} {t : Tally}

/-- The changes that a tally hands in. -/
def changes (t : Tally) : List ParkedDelta := t.deltas.map fun delta ↦ ⟨t.adapter, delta⟩

/-- A tally is begun with a retry, which does nothing where nothing is parked. -/
theorem openOn_eq (l : Ledger) (adapter : Bytes) (kinds : List StatisticKind) :
    openOn l adapter kinds = (·, start adapter kinds) <$> l.retryBacklog := by
  rw [openOn, map_eq_pure_bind]
  split
  · next hbacklog =>
    obtain ⟨store, backlog⟩ := l
    cases hbacklog
    rfl
  · rfl

/-- A tally begins with nothing. -/
theorem value_openOn_snd (l : Ledger) (adapter : Bytes) (kinds : List StatisticKind) :
    (openOn l adapter kinds).value.2 = start adapter kinds := by
  rw [openOn_eq]
  rfl

/-- Beginning a tally moves no sum. -/
theorem takes_openOn (h : l.Sane) (adapter : Bytes) (kinds : List StatisticKind) :
    l.Takes (openOn l adapter kinds).value.1 [] := by
  rw [openOn_eq]
  exact h.takes_retryBacklog

/-- Changes are handed in whatever becomes of the first one. -/
theorem ledger_handIn_cons (adapter : Bytes) (l : Ledger) (delta : Statistic)
    (rest : List Statistic) :
    (handIn adapter l (delta :: rest)).ledger =
      if delta.isEmpty then (handIn adapter l rest).ledger
      else (handIn adapter (l.applyOrPark adapter delta).2 rest).ledger := by
  rw [handIn]
  split
  · rfl
  · rcases l.applyOrPark adapter delta with ⟨e | ⟨⟩, m⟩ <;> rfl

/-- All changes that are handed in are taken in. -/
theorem takes_handIn (h : l.Sane) (adapter : Bytes) (deltas : List Statistic) :
    l.Takes (handIn adapter l deltas).ledger (deltas.map fun delta ↦ ⟨adapter, delta⟩) := by
  induction deltas generalizing l with
  | nil => exact .refl h
  | cons delta rest ih =>
    rw [ledger_handIn_cons, List.map_cons]
    by_cases he : delta.isEmpty
    · rw [if_pos he]
      exact (ih h).cons_of_isEmpty he
    · have hp := h.takes_applyOrPark ⟨adapter, delta⟩
      rw [if_neg he]
      exact hp.trans (ih hp.sane)

/-- A tally that hands its changes in begins anew. -/
theorem value_flush (l : Ledger) (t : Tally) :
    (t.flush l).value =
      ⟨(handIn t.adapter l t.deltas).error, (handIn t.adapter l t.deltas).ledger,
        start t.adapter (t.deltas.map (·.kind))⟩ := by
  rw [flush]
  dsimp only
  split <;> split <;> rfl

/-- A tally that is closed has handed in its changes. -/
theorem value_close (l : Ledger) (t : Tally) :
    (t.close l).value = (handIn t.adapter l t.deltas).ledger := by
  rw [close, Traced.value_bind, value_flush]
  dsimp only
  split <;> rfl

/-- A ledger takes in the changes of a tally that is closed. -/
theorem takes_close (h : l.Sane) (t : Tally) : l.Takes (t.close l).value t.changes := by
  rw [value_close]
  exact takes_handIn h t.adapter t.deltas

end Tally

end RowVault
