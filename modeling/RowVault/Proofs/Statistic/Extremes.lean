import RowVault.Proofs.Binary64.TotalOrder
import RowVault.Proofs.Statistic.Weight

/-!
# Extremes after any history

An extent keeps, for each bit pattern, how often more it has come as a bound than gone, whatever the
order in which entries have come and gone. If each interval that has gone has come as well, what is
left is a collection of intervals, and the extremes are those of its bounds in the total order.
-/

namespace RowVault

/-! ## The extremes of multiplicities -/

namespace Multiplicities

variable {m : Multiplicities} {x : Binary64}

/-- A number that occurs is looked up by its key. -/
theorem getElem?_of_get_ne_zero (h : m.get x ≠ 0) : m[x.orderKey]? = some (m.get x) := by
  cases hx : m[x.orderKey]? with
  | none => exact absurd (get_of_getElem?_none hx) h
  | some count => rw [get_of_getElem? hx]

/-- Without zeros, nothing is kept just if nothing occurs. -/
theorem Canonical.isEmpty_iff (h : m.Canonical) : m.isEmpty = true ↔ ∀ x, m.get x = 0 := by
  rw [Std.ExtTreeMap.isEmpty_iff]
  constructor
  · rintro rfl
    exact get_empty
  · intro hx
    exact h.ext canonical_empty fun x ↦ (hx x).trans (get_empty x).symm

private theorem before_of_find? {α : Type} {R : α → α → Prop} {p : α → Bool} {l : List α} {a b : α}
    (hl : l.Pairwise R) (ha : l.find? p = some a) (hb : b ∈ l) (hp : p b = true) :
    b = a ∨ R a b := by
  obtain ⟨-, before, after, rfl, hbefore⟩ := List.find?_eq_some_iff_append.mp ha
  rcases List.mem_append.mp hb with hb | hb
  · have hn := hbefore b hb
    rw [hp] at hn
    cases hn
  · rcases List.mem_cons.mp hb with hb | hb
    · exact .inl hb
    · have hafter := (List.pairwise_append.mp hl).2.1
      exact .inr ((List.pairwise_cons.mp hafter).1 b hb)

private def first? (l : List (UInt64 × Int)) : Option Binary64 :=
  (l.find? fun (_, n) ↦ decide (0 < n)).map fun (key, _) ↦ .ofOrderKey key

section

variable {R : Binary64 → Binary64 → Prop} {l : List (UInt64 × Int)}

private theorem of_first? (hmem : ∀ key count, (key, count) ∈ l ↔ m[key]? = some count)
    (hl : l.Pairwise fun a b ↦ R (.ofOrderKey a.1) (.ofOrderKey b.1)) (hrefl : ∀ x, R x x)
    (h : first? l = some x) : 0 < m.get x ∧ ∀ y, 0 < m.get y → R x y := by
  obtain ⟨⟨key, count⟩, hfind, rfl⟩ := Option.map_eq_some_iff.mp h
  dsimp only
  have hcount : m[(Binary64.ofOrderKey key).orderKey]? = some count := by
    rw [Binary64.orderKey_ofOrderKey]
    exact (hmem key count).mp (List.mem_of_find?_eq_some hfind)
  refine ⟨?_, ?_⟩
  · rw [get_of_getElem? hcount]
    simpa using List.find?_some hfind
  · intro y hy
    have hkey := (hmem _ _).mpr (getElem?_of_get_ne_zero (Int.ne_of_gt hy))
    rcases before_of_find? hl hfind hkey (by simpa using hy) with he | hR
    · rw [← (Prod.mk.inj he).1, Binary64.ofOrderKey_orderKey]
      exact hrefl y
    · rwa [Binary64.ofOrderKey_orderKey] at hR

private theorem first?_eq_none_iff (hmem : ∀ key count, (key, count) ∈ l ↔ m[key]? = some count) :
    first? l = none ↔ ∀ x, ¬ 0 < m.get x := by
  rw [first?, Option.map_eq_none_iff, List.find?_eq_none]
  constructor
  · intro h x hx
    have hkey := (hmem _ _).mpr (getElem?_of_get_ne_zero (Int.ne_of_gt hx))
    exact h _ hkey (by simpa using hx)
  · rintro h ⟨key, count⟩ hkey hpos
    have hcount : m[(Binary64.ofOrderKey key).orderKey]? = some count := by
      rw [Binary64.orderKey_ofOrderKey]
      exact (hmem key count).mp hkey
    apply h (.ofOrderKey key)
    rw [get_of_getElem? hcount]
    simpa using hpos

private theorem first?_eq_some_iff (hmem : ∀ key count, (key, count) ∈ l ↔ m[key]? = some count)
    (hl : l.Pairwise fun a b ↦ R (.ofOrderKey a.1) (.ofOrderKey b.1)) (hrefl : ∀ x, R x x)
    (hanti : ∀ x y, R x y → R y x → x = y) :
    first? l = some x ↔ 0 < m.get x ∧ ∀ y, 0 < m.get y → R x y := by
  refine ⟨of_first? hmem hl hrefl, ?_⟩
  rintro ⟨hx, hall⟩
  cases hfirst : first? l with
  | none => exact absurd hx ((first?_eq_none_iff hmem).mp hfirst x)
  | some y =>
    obtain ⟨hy, hbefore⟩ := of_first? hmem hl hrefl hfirst
    rw [hanti x y (hall y hy) (hbefore x hx)]

end

private theorem pairwise_totalLE (m : Multiplicities) :
    m.toList.Pairwise fun a b ↦ (Binary64.ofOrderKey a.1).TotalLE (.ofOrderKey b.1) := by
  refine Std.ExtTreeMap.ordered_keys_toList.imp ?_
  intro a b h
  rw [← Binary64.orderKey_le_iff, Binary64.orderKey_ofOrderKey, Binary64.orderKey_ofOrderKey]
  exact Std.le_of_lt (Std.compare_eq_lt.mp h)

private theorem mem_toList_iff (m : Multiplicities) (key : UInt64) (count : Int) :
    (key, count) ∈ m.toList ↔ m[key]? = some count :=
  Std.ExtTreeMap.mem_toList_iff_getElem?_eq_some

private theorem mem_reverse_toList_iff (m : Multiplicities) (key : UInt64) (count : Int) :
    (key, count) ∈ m.toList.reverse ↔ m[key]? = some count :=
  List.mem_reverse.trans (m.mem_toList_iff key count)

/-- The least number is the one that occurs and is no later than any other one that does. -/
theorem least?_eq_some_iff : m.least? = some x ↔ 0 < m.get x ∧ ∀ y, 0 < m.get y → x.TotalLE y :=
  first?_eq_some_iff m.mem_toList_iff m.pairwise_totalLE Binary64.TotalLE.refl
    fun _ _ ↦ Binary64.TotalLE.antisymm

/-- The greatest number is the one that occurs and is no earlier than any other one that does. -/
theorem greatest?_eq_some_iff :
    m.greatest? = some x ↔ 0 < m.get x ∧ ∀ y, 0 < m.get y → y.TotalLE x :=
  first?_eq_some_iff (R := fun x y ↦ y.TotalLE x) m.mem_reverse_toList_iff
    (List.pairwise_reverse.mpr m.pairwise_totalLE) Binary64.TotalLE.refl
    fun _ _ h h' ↦ h'.antisymm h

/-- There is a least number unless no number occurs. -/
theorem least?_eq_none_iff : m.least? = none ↔ ∀ x, ¬ 0 < m.get x :=
  first?_eq_none_iff m.mem_toList_iff

/-- There is a greatest number unless no number occurs. -/
theorem greatest?_eq_none_iff : m.greatest? = none ↔ ∀ x, ¬ 0 < m.get x :=
  first?_eq_none_iff m.mem_reverse_toList_iff

/-- Multiplicities that count the elements of a list are positive for these. -/
theorem get_pos_iff {xs : List Binary64} (h : ∀ x, m.get x = xs.count x) (x : Binary64) :
    0 < m.get x ↔ x ∈ xs := by
  rw [h, Int.natCast_pos, List.count_pos_iff]

end Multiplicities

/-! ## Histories of observations -/

/-- An entry that a statistic observes. -/
inductive Observation where
  | ingested (info : EntryInfo)
  | deleted (info : EntryInfo)

namespace Observation

/-- One more entry, or one less. -/
def sign : Observation → Int
  | ingested _ => 1
  | deleted _ => -1

/-- The entry that comes or goes. -/
def info : Observation → EntryInfo
  | ingested i => i
  | deleted i => i

/-- The intervals of a field that come with entries. -/
def come (field : Bytes) (history : List Observation) : List NumericRange :=
  history.filterMap fun
    | ingested i => i.interval? field
    | deleted _ => none

/-- The intervals of a field that go with entries. -/
def gone (field : Bytes) (history : List Observation) : List NumericRange :=
  history.filterMap fun
    | ingested _ => none
    | deleted i => i.interval? field

/-- How often more a bit pattern is a bound of the intervals that have come than of those that have
gone. -/
def net (bound : NumericRange → Binary64) (field : Bytes) (history : List Observation)
    (x : Binary64) : Int :=
  ((come field history).map bound).count x - ((gone field history).map bound).count x

/-- No multiplicity of a bound leaves the range of 64-bit integers, at any time of a history. -/
def StaysInRange (field : Bytes) (history : List Observation) : Prop :=
  ∀ past, past <+: history →
    ∀ x, InRange (net (·.min) field past x) ∧ InRange (net (·.max) field past x)

/-- What the observations of a history add to a statistic along an axis. -/
def marks (k : StatisticKind) (a : Axis) (history : List Observation) : Int :=
  (history.map fun o ↦ o.sign * o.info.mark k a).sum

variable {field : Bytes} {history : List Observation}

private theorem sum_eq_net (bound : NumericRange → Binary64) (field : Bytes)
    (history : List Observation) (x : Binary64) :
    (history.map fun o ↦
      o.sign * if (o.info.interval? field).map bound = some x then 1 else 0).sum =
      net bound field history x := by
  induction history with
  | nil => rfl
  | cons o rest ih =>
    rw [List.map_cons, List.sum_cons, ih]
    unfold net come gone
    cases o with
    | ingested i | deleted i =>
      cases hi : i.interval? field with
      | none => simp [sign, info, hi]
      | some r =>
        simp only [sign, info, hi, List.filterMap_cons, List.map_cons, List.count_cons,
          Option.map_some, Option.some.injEq, beq_iff_eq]
        split <;> omega

/-- Along the axis of a lower bound, entries add its multiplicity. -/
theorem marks_lower (field : Bytes) (history : List Observation) (x : Binary64) :
    marks (.extent field) (.lower x) history = net (·.min) field history x :=
  sum_eq_net (·.min) field history x

/-- Along the axis of an upper bound, entries add its multiplicity. -/
theorem marks_upper (field : Bytes) (history : List Observation) (x : Binary64) :
    marks (.extent field) (.upper x) history = net (·.max) field history x :=
  sum_eq_net (·.max) field history x

/-- Of the intervals that have come, those that have gone and those that are left count together. -/
theorem net_of_perm {left : List NumericRange} (bound : NumericRange → Binary64)
    (h : (come field history).Perm (gone field history ++ left)) (x : Binary64) :
    net bound field history x = (left.map bound).count x := by
  have hcount := (h.map bound).count_eq x
  rw [List.map_append, List.count_append] at hcount
  rw [net, hcount]
  omega

/-- Observations change multiplicities by one at most, so short histories stay in the range. -/
theorem staysInRange_of_length_lt (field : Bytes) (h : history.length < 2 ^ 63) :
    StaysInRange field history := by
  intro past hpast x
  have hlength := hpast.length_le
  have hnet (bound : NumericRange → Binary64) : InRange (net bound field past x) := by
    have hle (f : Observation → Option NumericRange) :
        ((past.filterMap f).map bound).count x ≤ past.length := by
      refine Nat.le_trans List.count_le_length ?_
      rw [List.length_map]
      exact List.length_filterMap_le f past
    have hcome : ((come field past).map bound).count x ≤ past.length := hle _
    have hgone : ((gone field past).map bound).count x ≤ past.length := hle _
    apply inRange_of_natAbs_lt
    unfold net
    omega
  exact ⟨hnet _, hnet _⟩

end Observation

namespace Statistic

/-- A statistic that observes the entries of a history. -/
def observeEach (s : Statistic) : List Observation → Statistic
  | [] => s
  | .ingested i :: rest => (s.ingested i).observeEach rest
  | .deleted i :: rest => (s.deleted i).observeEach rest

/-- The first entry is observed before the others. -/
theorem observeEach_cons (s : Statistic) (o : Observation) (rest : List Observation) :
    s.observeEach (o :: rest) = (s.observe o.sign o.info).observeEach rest := by
  cases o <;> rfl

/-- Observing entries keeps the kind, and keeps no zeros. -/
theorem Canonical.observeEach {s : Statistic} (h : s.Canonical) (history : List Observation) :
    (s.observeEach history).kind = s.kind ∧ (s.observeEach history).Canonical := by
  induction history generalizing s with
  | nil => exact ⟨rfl, h⟩
  | cons o rest ih =>
    obtain ⟨hk, hc⟩ := ih (h.observe o.sign o.info)
    rw [observeEach_cons]
    exact ⟨hk.trans (s.kind_observe o.sign o.info), hc⟩

/-- Observing entries adds what they mark, where no sum leaves its range on the way. -/
theorem weight_observeEach (s : Statistic) (history : List Observation) (a : Axis)
    (h : ∀ past, past <+: history → InRange (s.weight a + Observation.marks s.kind a past)) :
    (s.observeEach history).weight a = s.weight a + Observation.marks s.kind a history := by
  induction history generalizing s with
  | nil => exact (Int.add_zero _).symm
  | cons o rest ih =>
    have hmarks (past : List Observation) : Observation.marks s.kind a (o :: past) =
        o.sign * o.info.mark s.kind a + Observation.marks s.kind a past := List.sum_cons
    have hfirst := h [o] (List.prefix_append [o] rest)
    rw [hmarks, show Observation.marks s.kind a [] = 0 from rfl, Int.add_zero] at hfirst
    have hw := s.weight_observe o.sign o.info a hfirst
    have hk := s.kind_observe o.sign o.info
    rw [observeEach_cons, ih, hw, hk, hmarks, Int.add_assoc]
    intro past hpast
    have hrange := h (o :: past) ((List.prefix_cons_inj o).mpr hpast)
    rwa [hmarks, ← Int.add_assoc, ← hw, ← hk] at hrange

/-- After a history, an extent keeps the net multiplicities of its bounds, and no zeros. -/
theorem exists_observeEach {field : Bytes} {history : List Observation}
    (h : Observation.StaysInRange field history) :
    ∃ e : Extent, (empty (.extent field)).observeEach history = .extent e ∧ e.field = field ∧
      e.mins.Canonical ∧ e.maxes.Canonical ∧
      ∀ x, e.mins.get x = Observation.net (·.min) field history x ∧
        e.maxes.get x = Observation.net (·.max) field history x := by
  obtain ⟨hkind, hcanonical⟩ := (canonical_empty (.extent field)).observeEach history
  have hweight (a : Axis)
      (ha : ∀ past, past <+: history → InRange (Observation.marks (.extent field) a past)) :
      ((empty (.extent field)).observeEach history).weight a =
        Observation.marks (.extent field) a history := by
    have hw := (empty (.extent field)).weight_observeEach history a
    simp only [weight_empty, kind_empty, Int.zero_add] at hw
    exact hw ha
  cases hs : (empty (.extent field)).observeEach history with
  | count n =>
    rw [hs] at hkind
    cases hkind
  | extent e =>
    rw [hs] at hkind hcanonical hweight
    refine ⟨e, rfl, StatisticKind.extent.inj hkind, hcanonical.1, hcanonical.2, fun x ↦ ⟨?_, ?_⟩⟩
    · rw [← Observation.marks_lower]
      refine hweight (.lower x) fun past hpast ↦ ?_
      rw [Observation.marks_lower]
      exact (h past hpast x).1
    · rw [← Observation.marks_upper]
      refine hweight (.upper x) fun past hpast ↦ ?_
      rw [Observation.marks_upper]
      exact (h past hpast x).2

/-- An extent is exact after any history in which no multiplicity leaves the range of 64-bit
integers, in whatever order entries come and go. It keeps the net multiplicity of every bit pattern
as a lower and as an upper bound, and no zeros; so histories lead to the same extent just if they
agree in these, and it is empty just if all are zero. If the intervals that have come are those that
have gone and some that are left, its least number is the least lower bound of what is left, in the
total order, and its greatest number is the greatest upper bound; and there are none just if nothing
is left. -/
theorem extremes_exact (field : Bytes) (history : List Observation)
    (h : Observation.StaysInRange field history) :
    ∃ e : Extent, (empty (.extent field)).observeEach history = .extent e ∧ e.field = field ∧
      (∀ x, e.mins.get x = Observation.net (·.min) field history x ∧
        e.maxes.get x = Observation.net (·.max) field history x) ∧
      e.mins.Canonical ∧ e.maxes.Canonical ∧
      (∀ other, Observation.StaysInRange field other →
        ((empty (.extent field)).observeEach other = .extent e ↔
          ∀ x, Observation.net (·.min) field other x = Observation.net (·.min) field history x ∧
            Observation.net (·.max) field other x = Observation.net (·.max) field history x)) ∧
      ((extent e).isEmpty = true ↔ ∀ x, Observation.net (·.min) field history x = 0 ∧
        Observation.net (·.max) field history x = 0) ∧
      ∀ left : List NumericRange,
        (Observation.come field history).Perm (Observation.gone field history ++ left) →
        (∀ x, e.min? = some x ↔
          x ∈ left.map (·.min) ∧ ∀ y ∈ left.map (·.min), x.TotalLE y) ∧
        (∀ x, e.max? = some x ↔
          x ∈ left.map (·.max) ∧ ∀ y ∈ left.map (·.max), y.TotalLE x) ∧
        (e.min? = none ↔ left = []) ∧ (e.max? = none ↔ left = []) := by
  obtain ⟨e, he, hfield, hmins, hmaxes, hnet⟩ := exists_observeEach h
  refine ⟨e, he, hfield, hnet, hmins, hmaxes, ?_, ?_, ?_⟩
  · intro other hother
    obtain ⟨d, hd, hfield', hmins', hmaxes', hnet'⟩ := exists_observeEach hother
    rw [hd]
    constructor
    · intro heq x
      cases heq
      exact ⟨(hnet' x).1.symm.trans (hnet x).1, (hnet' x).2.symm.trans (hnet x).2⟩
    · intro heq
      have hkind : (extent d).kind = (extent e).kind :=
        congrArg StatisticKind.extent (hfield'.trans hfield.symm)
      refine Canonical.ext ⟨hmins', hmaxes'⟩ ⟨hmins, hmaxes⟩ hkind fun a ↦ ?_
      cases a with
      | entries => rfl
      | lower x => exact (hnet' x).1.trans ((heq x).1.trans (hnet x).1.symm)
      | upper x => exact (hnet' x).2.trans ((heq x).2.trans (hnet x).2.symm)
  · rw [isEmpty, Bool.and_eq_true, hmins.isEmpty_iff, hmaxes.isEmpty_iff, ← forall_and]
    exact forall_congr' fun x ↦ by rw [(hnet x).1, (hnet x).2]
  · intro left hleft
    have hmin := Multiplicities.get_pos_iff fun x ↦
      (hnet x).1.trans (Observation.net_of_perm _ hleft x)
    have hmax := Multiplicities.get_pos_iff fun x ↦
      (hnet x).2.trans (Observation.net_of_perm _ hleft x)
    refine ⟨fun x ↦ ?_, fun x ↦ ?_, ?_, ?_⟩
    · rw [Extent.min?, Multiplicities.least?_eq_some_iff]
      simp only [hmin]
    · rw [Extent.max?, Multiplicities.greatest?_eq_some_iff]
      simp only [hmax]
    · rw [Extent.min?, Multiplicities.least?_eq_none_iff]
      simp only [hmin, ← List.eq_nil_iff_forall_not_mem, List.map_eq_nil_iff]
    · rw [Extent.max?, Multiplicities.greatest?_eq_none_iff]
      simp only [hmax, ← List.eq_nil_iff_forall_not_mem, List.map_eq_nil_iff]

private def spanning (min max : UInt64) : EntryInfo :=
  ⟨[], [⟨⟨[0x78], .range ⟨⟨min⟩, ⟨max⟩⟩⟩, [], []⟩]⟩

-- Three intervals that come, one of which has gone before, and one that comes and goes.
private def earlyDeletion : List Observation :=
  [.deleted (spanning 0x3FF0000000000000 0x4000000000000000),
    .ingested (spanning 0x0000000000000000 0x7FF0000000000000),
    .ingested (spanning 0xFFF0000000000000 0x4000000000000000),
    .ingested (spanning 0x8000000000000000 0x7FF8000000000000),
    .deleted (spanning 0xFFF0000000000000 0x4000000000000000),
    .ingested (spanning 0x3FF0000000000000 0x4000000000000000)]

/-- What is left begins at one of the zeros and ends at infinity or a NaN: negative zero is the
least number and the NaN the greatest one. -/
theorem extremes_exact_zeros :
    Observation.StaysInRange [0x78] earlyDeletion ∧
      ∃ e : Extent, (empty (.extent [0x78])).observeEach earlyDeletion = .extent e ∧
        e.mins.get ⟨0xFFF0000000000000⟩ = 0 ∧
        e.min? = some ⟨0x8000000000000000⟩ ∧ e.max? = some ⟨0x7FF8000000000000⟩ := by
  have hrange : Observation.StaysInRange [0x78] earlyDeletion :=
    Observation.staysInRange_of_length_lt _ (by decide)
  obtain ⟨e, he, -, hnet, -, -, -, -, hleft⟩ := extremes_exact [0x78] earlyDeletion hrange
  obtain ⟨hmin, hmax, -, -⟩ := hleft
    [⟨⟨0x0000000000000000⟩, ⟨0x7FF0000000000000⟩⟩, ⟨⟨0x8000000000000000⟩, ⟨0x7FF8000000000000⟩⟩]
    (by decide +kernel)
  refine ⟨hrange, e, he, ?_, (hmin _).mpr (by decide +kernel), (hmax _).mpr (by decide +kernel)⟩
  rw [(hnet _).1]
  decide +kernel

end Statistic

end RowVault
