import RowVault.Proofs.Statistic.Weight

/-!
# Merging statistics

Statistics of one kind, as they come from observing and merging, are a commutative monoid: merging
adds their numbers along each axis and keeps the sums in the range of 64-bit integers. Grouping does
not matter as long as no sum of two neighbours leaves the range; in general, the groupings agree
just if the sums, kept in the range in either order, agree along each axis. Statistics of different
kinds are not merged.
-/

namespace RowVault

/-- A number that is kept in the range is in the range. -/
theorem inRange_saturate (n : Int) : InRange (saturate n) := by
  unfold InRange saturate
  omega

namespace Multiplicities

variable {m n : Multiplicities}

/-- Every multiplicity is in the range of 64-bit integers. -/
def Bounded (m : Multiplicities) : Prop := ∀ x, InRange (m.get x)

/-- Without multiplicities, none is out of the range. -/
theorem bounded_empty : Bounded ∅ := by
  intro x
  rw [get_empty]
  decide

/-- A multiplicity that is changed is kept in its range. -/
theorem Bounded.bump (h : m.Bounded) (x : Binary64) (delta : Int) : (m.bump x delta).Bounded := by
  intro y
  rw [get_bump]
  split
  · exact inRange_saturate _
  · exact h y

/-- Multiplicities that are merged are kept in their range. -/
theorem Bounded.merge (h : m.Bounded) (n : Multiplicities) : (m.merge n).Bounded := by
  intro x
  rw [get_merge_eq m n x fun _ ↦ h x]
  exact inRange_saturate _

end Multiplicities

namespace Statistic

variable {r s t u v : Statistic}

/-! ## Statistics that come from observing and merging -/

/-- A statistic that comes from nothing by observing entries and merging. -/
inductive Collected : Statistic → Prop where
  | start (k : StatisticKind) : Collected (empty k)
  | ingested {s : Statistic} (h : Collected s) (info : EntryInfo) : Collected (s.ingested info)
  | deleted {s : Statistic} (h : Collected s) (info : EntryInfo) : Collected (s.deleted info)
  | merged {s t u : Statistic} (hs : Collected s) (ht : Collected t) (h : s.merge t = .ok u) :
    Collected u

/-- Every number of a statistic is in the range of 64-bit integers. -/
def Bounded : Statistic → Prop
  | count n => InRange n
  | extent e => e.mins.Bounded ∧ e.maxes.Bounded

/-- Along each axis, the number is in the range. -/
theorem Bounded.inRange_weight (h : s.Bounded) (a : Axis) : InRange (s.weight a) := by
  have hzero : InRange 0 := by decide
  cases s with
  | count n =>
    cases a with
    | entries => exact h
    | lower x => exact hzero
    | upper x => exact hzero
  | extent e =>
    cases a with
    | entries => exact hzero
    | lower x => exact h.1 x
    | upper x => exact h.2 x

/-- The statistic of no entries is in the range. -/
theorem bounded_empty (k : StatisticKind) : (empty k).Bounded := by
  cases k with
  | count => exact (by decide : InRange 0)
  | extent field => exact ⟨Multiplicities.bounded_empty, Multiplicities.bounded_empty⟩

/-- Observing an entry keeps numbers in their range. -/
theorem Bounded.observe (h : s.Bounded) (sign : Int) (info : EntryInfo) :
    (s.observe sign info).Bounded := by
  cases s with
  | count n => exact inRange_saturate _
  | extent e =>
    unfold Statistic.observe
    dsimp only
    split
    · exact ⟨h.1.bump _ _, h.2.bump _ _⟩
    · exact h

/-- Merging keeps numbers in their range. -/
theorem Bounded.merge (h : s.Bounded) (hm : s.merge t = .ok u) : u.Bounded := by
  cases s <;> cases t <;> simp only [Statistic.merge] at hm
  · cases hm
    exact inRange_saturate _
  · cases hm
  · cases hm
  · split at hm
    · cases hm
      exact ⟨h.1.merge _, h.2.merge _⟩
    · cases hm

/-- What comes from observing and merging keeps no zeros. -/
theorem Collected.canonical (h : s.Collected) : s.Canonical := by
  induction h with
  | start k => exact canonical_empty k
  | ingested _ info ih => exact ih.observe 1 info
  | deleted _ info ih => exact ih.observe (-1) info
  | merged _ _ h ihs _ => exact ihs.merge h

/-- What comes from observing and merging is in the range. -/
theorem Collected.bounded (h : s.Collected) : s.Bounded := by
  induction h with
  | start k => exact bounded_empty k
  | ingested _ info ih => exact ih.observe 1 info
  | deleted _ info ih => exact ih.observe (-1) info
  | merged _ _ h ihs _ => exact ihs.merge h

/-! ## The laws -/

/-- Merging adds the numbers along each axis and keeps the sums in the range. -/
theorem Bounded.weight_merge (h : s.Bounded) (hm : s.merge t = .ok u) (a : Axis) :
    u.weight a = saturate (s.weight a + t.weight a) := by
  cases s <;> cases t <;> simp only [Statistic.merge] at hm
  · cases hm
    cases a <;> rfl
  · cases hm
  · cases hm
  · split at hm
    · cases hm
      cases a with
      | entries => rfl
      | lower x => exact Multiplicities.get_merge_eq _ _ x fun _ ↦ h.1 x
      | upper x => exact Multiplicities.get_merge_eq _ _ x fun _ ↦ h.2 x
    · cases hm

/-- A statistic that keeps no zeros is empty just if it weighs nothing. -/
theorem Canonical.isEmpty_iff (h : s.Canonical) : s.isEmpty = true ↔ s = empty s.kind := by
  constructor
  · intro hs
    refine h.ext (canonical_empty _) (kind_empty _).symm fun a ↦ ?_
    rw [weight_of_isEmpty hs, weight_empty]
  · intro hs
    rw [hs]
    exact isEmpty_empty _

/-- The sum of two statistics of one kind is known by its numbers. -/
theorem Collected.merge_eq_ok_iff (hs : s.Collected) (hk : s.kind = t.kind) (hu : u.Canonical) :
    s.merge t = .ok u ↔
      u.kind = s.kind ∧ ∀ a, u.weight a = saturate (s.weight a + t.weight a) := by
  constructor
  · intro h
    exact ⟨kind_of_merge h, hs.bounded.weight_merge h⟩
  · rintro ⟨hkind, hweight⟩
    obtain ⟨v, hv⟩ := exists_merge hk
    have hvu : v = u := by
      refine (hs.canonical.merge hv).ext hu ((kind_of_merge hv).trans hkind.symm) fun a ↦ ?_
      rw [hs.bounded.weight_merge hv, hweight]
    rw [hv, hvu]

/-- Which of two statistics is merged into the other one does not matter. -/
theorem Collected.merge_comm (hs : s.Collected) (ht : t.Collected) (h : s.merge t = .ok u) :
    t.merge s = .ok u := by
  have hu := hs.canonical.merge h
  have hk : s.kind = t.kind := by
    by_contra hne
    rw [merge_eq_error_iff.mpr ⟨hne, rfl⟩] at h
    cases h
  obtain ⟨hkind, hweight⟩ := (hs.merge_eq_ok_iff hk hu).mp h
  refine (ht.merge_eq_ok_iff hk.symm hu).mpr ⟨hkind.trans hk, fun a ↦ ?_⟩
  rw [hweight, Int.add_comm]

/-- Nothing is added by the statistic of no entries. -/
theorem Collected.merge_empty (hs : s.Collected) : s.merge (empty s.kind) = .ok s := by
  refine (hs.merge_eq_ok_iff (kind_empty _).symm hs.canonical).mpr ⟨rfl, fun a ↦ ?_⟩
  rw [weight_empty, Int.add_zero]
  exact (hs.bounded.inRange_weight a).symm

/-- A statistic changes no other one of its kind just if it is empty. -/
theorem Collected.isEmpty_iff (hs : s.Collected) :
    s.isEmpty = true ↔ ∀ t : Statistic, t.Collected → t.kind = s.kind → t.merge s = .ok t := by
  rw [hs.canonical.isEmpty_iff]
  constructor
  · intro he t ht hk
    rw [he, ← hk]
    exact ht.merge_empty
  · intro h
    have hempty := h _ (.start s.kind) (kind_empty _)
    rw [hs.merge_comm (.start s.kind) hs.merge_empty] at hempty
    exact Except.ok.inj hempty

/-- Two ways to group three statistics of one kind lead to sums that agree just if they agree along
each axis. -/
theorem Collected.exists_merge_merge (hr : r.Collected) (hs : s.Collected)
    (hrs : r.kind = s.kind) (hst : s.kind = t.kind) :
    ∃ u v, (r.merge s >>= fun d ↦ d.merge t) = .ok u ∧ (s.merge t >>= fun d ↦ r.merge d) = .ok v ∧
      (u = v ↔ ∀ a, saturate (saturate (r.weight a + s.weight a) + t.weight a) =
        saturate (r.weight a + saturate (s.weight a + t.weight a))) := by
  obtain ⟨d, hd⟩ := exists_merge hrs
  obtain ⟨e, he⟩ := exists_merge hst
  have hdkind := kind_of_merge hd
  have hekind := kind_of_merge he
  obtain ⟨u, hu⟩ := exists_merge (hdkind.trans (hrs.trans hst))
  obtain ⟨v, hv⟩ := exists_merge (hrs.trans hekind.symm)
  have hdcanonical := hr.canonical.merge hd
  have hdbounded := hr.bounded.merge hd
  refine ⟨u, v, by rw [hd]; exact hu, by rw [he]; exact hv, ?_⟩
  have hweights (a : Axis) :
      u.weight a = saturate (saturate (r.weight a + s.weight a) + t.weight a) ∧
        v.weight a = saturate (r.weight a + saturate (s.weight a + t.weight a)) := by
    rw [hdbounded.weight_merge hu, hr.bounded.weight_merge hd, hr.bounded.weight_merge hv,
      hs.bounded.weight_merge he]
    exact ⟨rfl, rfl⟩
  constructor
  · rintro rfl a
    rw [← (hweights a).1, (hweights a).2]
  · intro h
    have hkind : u.kind = v.kind :=
      (kind_of_merge hu).trans (hdkind.trans (kind_of_merge hv).symm)
    refine (hdcanonical.merge hu).ext (hr.canonical.merge hv) hkind fun a ↦ ?_
    rw [(hweights a).1, (hweights a).2, h a]

/-! ## Merging in place -/

/-- Merge a statistic into the one at hand, one of its numbers or maps after the other. -/
def absorb (t : Statistic) : ExceptT StatisticsError (StateM Statistic) Unit := do
  match ← get, t with
  | count m, count n => set (count (saturate (m + n)))
  | extent d, extent e =>
    if d.field = e.field then
      set (extent { d with mins := d.mins.merge e.mins })
      set (extent { d with mins := d.mins.merge e.mins, maxes := d.maxes.merge e.maxes })
    else throw (.kindMismatch (.extent d.field) (.extent e.field))
  | count _, extent e => throw (.kindMismatch .count (.extent e.field))
  | extent d, count _ => throw (.kindMismatch (.extent d.field) .count)

/-- The statistic at hand becomes the sum, or stays as it is. -/
theorem run_absorb (s t : Statistic) :
    (absorb t).run.run s =
      match s.merge t with
      | .ok u => (.ok (), u)
      | .error e => (.error e, s) := by
  cases s with
  | count m =>
    cases t with
    | count n => rfl
    | extent e => rfl
  | extent d =>
    cases t with
    | count n => rfl
    | extent e =>
      by_cases h : d.field = e.field
      · rw [merge, if_pos h]
        exact congrArg (fun p : ExceptT StatisticsError (StateM Statistic) Unit ↦
          p.run.run (extent d)) (if_pos h)
      · rw [merge, if_neg h]
        exact (congrArg (fun p : ExceptT StatisticsError (StateM Statistic) Unit ↦
          p.run.run (extent d)) (if_neg h)).trans rfl

/-- Statistics of one kind that come from observing and merging are a commutative monoid, whose
neutral element is the only one that is empty: sums exist in either order, add up along each axis
and keep no zeros, and groupings agree unless a sum that leaves the range makes them differ along
an axis. Statistics of different kinds are refused, and merging in place leaves the one at hand. -/
theorem merge_commutative_monoid :
    (∀ s t : Statistic, s.Collected → t.Collected → s.kind = t.kind →
      ∃ u, s.merge t = .ok u ∧ t.merge s = .ok u ∧ (absorb t).run.run s = (.ok (), u) ∧
        u.kind = s.kind ∧ u.Canonical ∧
        ∀ a, u.weight a = saturate (s.weight a + t.weight a)) ∧
    (∀ s : Statistic, s.Collected →
      s.merge (empty s.kind) = .ok s ∧ (empty s.kind).merge s = .ok s ∧
        (s.isEmpty = true ↔ ∀ t : Statistic, t.Collected → t.kind = s.kind → t.merge s = .ok t)) ∧
    (∀ r s t : Statistic, r.Collected → s.Collected → t.Collected → r.kind = s.kind →
      s.kind = t.kind →
      ∃ u v, (r.merge s >>= fun d ↦ d.merge t) = .ok u ∧ (s.merge t >>= fun d ↦ r.merge d) = .ok v ∧
        (u = v ↔ ∀ a, saturate (saturate (r.weight a + s.weight a) + t.weight a) =
          saturate (r.weight a + saturate (s.weight a + t.weight a))) ∧
        ((∀ a, InRange (r.weight a + s.weight a) ∧ InRange (s.weight a + t.weight a)) → u = v)) ∧
    ∀ s t : Statistic, s.kind ≠ t.kind →
      s.merge t = .error (.kindMismatch s.kind t.kind) ∧
        (absorb t).run.run s = (.error (.kindMismatch s.kind t.kind), s) := by
  refine ⟨?sum, ?neutral, ?grouping, ?mismatch⟩
  case sum =>
    intro s t hs ht hk
    obtain ⟨u, hu⟩ := exists_merge hk
    refine ⟨u, hu, hs.merge_comm ht hu, ?_, kind_of_merge hu, hs.canonical.merge hu,
      hs.bounded.weight_merge hu⟩
    rw [run_absorb, hu]
  case neutral =>
    intro s hs
    exact ⟨hs.merge_empty, hs.merge_comm (.start s.kind) hs.merge_empty, hs.isEmpty_iff⟩
  case grouping =>
    intro r s t hr hs _ hrs hst
    obtain ⟨u, v, hu, hv, huv⟩ := hr.exists_merge_merge hs hrs hst
    refine ⟨u, v, hu, hv, huv, fun hrange ↦ huv.mpr fun a ↦ ?_⟩
    obtain ⟨hleft, hright⟩ := hrange a
    rw [hleft, hright, Int.add_assoc]
  case mismatch =>
    intro s t hk
    have herror := merge_eq_error_iff.mpr ⟨hk, rfl⟩
    refine ⟨herror, ?_⟩
    rw [run_absorb, herror]

private def atZero : EntryInfo := ⟨[], [⟨⟨[0x78], .range ⟨⟨0⟩, ⟨0⟩⟩⟩, [], []⟩]⟩

/-- An entry that went before it came is no entry, in either grouping with one more, and a count is
not merged into an extent. -/
theorem merge_commutative_monoid_early :
    ∃ come gone spread : Statistic, come = .count 1 ∧ gone = .count (-1) ∧
      spread = (empty (.extent [0x78])).ingested atZero ∧
      come.merge gone = .ok (empty .count) ∧ gone.merge come = .ok (empty .count) ∧
      come.merge (empty .count) = .ok come ∧
      (∃ u, (come.merge gone >>= fun d ↦ d.merge come) = .ok u ∧
        (gone.merge come >>= fun d ↦ come.merge d) = .ok u) ∧
      (absorb come).run.run spread = (.error (.kindMismatch (.extent [0x78]) .count), spread) := by
  obtain ⟨hsum, hneutral, hgrouping, hmismatch⟩ := merge_commutative_monoid
  have hcome : (count 1).Collected := .ingested (.start .count) atZero
  have hgone : (count (-1)).Collected := .deleted (.start .count) atZero
  obtain ⟨u, hu, hu', -⟩ := hsum _ _ hcome hgone rfl
  obtain ⟨v, w, hv, hw, -, hvw⟩ := hgrouping _ _ _ hcome hgone hcome rfl rfl
  cases hu
  refine ⟨_, _, _, rfl, rfl, rfl, rfl, hu', (hneutral _ hcome).1, ⟨v, hv, ?_⟩,
    (hmismatch _ _ (by decide)).2⟩
  rw [hvw fun a ↦ by cases a <;> exact ⟨rfl, rfl⟩]
  exact hw

/-- Where a sum leaves the range, the grouping matters. -/
example :
    ((count 0x7FFFFFFFFFFFFFFF).merge (count 1) >>= fun d ↦ d.merge (count (-1))) ≠
      ((count 1).merge (count (-1)) >>= fun d ↦ (count 0x7FFFFFFFFFFFFFFF).merge d) := by
  decide

end Statistic

end RowVault
