import Mathlib.Algebra.Ring.Int.Defs
import Mathlib.Algebra.Ring.Nat
import RowVault.Statistic.Basic

/-!
# Weights of statistics

A statistic is a bundle of independent numbers: a count, or a multiplicity for each bound. Along
each of these axes, observing and merging are additions as long as no number leaves its range, and a
statistic that keeps no multiplicity of zero is known by its kind and its weights.
-/

namespace RowVault

/-- A number is in the range of 64-bit integers, so that it is not changed to stay there. -/
def InRange (n : Int) : Prop := saturate n = n

/-- Whether a number is changed to stay in the range is seen by changing it. -/
instance (n : Int) : Decidable (InRange n) := inferInstanceAs (Decidable (saturate n = n))

/-- A number whose magnitude is small enough is in the range. -/
theorem inRange_of_natAbs_lt {n : Int} (h : n.natAbs < 2 ^ 63) : InRange n := by
  unfold InRange saturate
  omega

namespace Multiplicities

variable {m n : Multiplicities} {x : Binary64}

/-- The multiplicity of a number that is looked up by its key. -/
theorem get_of_getElem? {count : Int} (h : m[x.orderKey]? = some count) : m.get x = count := by
  rw [get, Std.ExtTreeMap.getD_eq_getD_getElem?, h, Option.getD_some]

/-- A number without a key does not occur. -/
theorem get_of_getElem?_none (h : m[x.orderKey]? = none) : m.get x = 0 := by
  rw [get, Std.ExtTreeMap.getD_eq_getD_getElem?, h, Option.getD_none]

/-- The multiplicity of the number at hand is changed, where it stays in its range. -/
theorem get_bump_of_inRange {y : Binary64} {delta : Int}
    (h : InRange (m.get x + delta * if y = x then 1 else 0)) :
    (m.bump y delta).get x = m.get x + delta * if y = x then 1 else 0 := by
  rw [get_bump]
  by_cases hx : y = x
  · subst hx
    simp only [if_true, Int.mul_one] at h ⊢
    exact h
  · simp [hx]

/-! ## Merging -/

/-- What is kept of a multiplicity: the nearest number in the range, and nothing of zero. -/
def kept? (n : Int) : Option Int := if saturate n = 0 then none else some (saturate n)

/-- What is kept counts as the nearest number in the range. -/
theorem getD_kept? (n : Int) : (kept? n).getD 0 = saturate n := by
  unfold kept?
  split
  · next h => exact h.symm
  · rfl

/-- A zero is not kept. -/
theorem kept?_ne_some_zero (n : Int) : kept? n ≠ some 0 := by
  unfold kept?
  split
  · exact nofun
  · next h => exact fun he ↦ h (Option.some.inj he)

/-- A change concerns the entry of one key only. -/
theorem getElem?_bump (m : Multiplicities) (x : Binary64) (delta : Int) (key : UInt64) :
    (m.bump x delta)[key]? = if x.orderKey = key then kept? (m.get x + delta) else m[key]? := by
  unfold bump kept?
  split
  · rw [Std.ExtTreeMap.getElem?_erase]
    simp only [Std.LawfulEqOrd.compare_eq_iff_eq]
  · rw [Std.ExtTreeMap.getElem?_insert]
    simp only [Std.LawfulEqOrd.compare_eq_iff_eq]

private def bumpEach (m : Multiplicities) (changes : List (UInt64 × Int)) : Multiplicities :=
  changes.foldl (fun m (key, delta) ↦ m.bump (.ofOrderKey key) delta) m

private theorem getElem?_bump_key (m : Multiplicities) (source : UInt64) (delta : Int)
    (key : UInt64) :
    (m.bump (.ofOrderKey source) delta)[key]? =
      if source = key then kept? (m.getD key 0 + delta) else m[key]? := by
  rw [getElem?_bump, get, Binary64.orderKey_ofOrderKey]
  by_cases h : source = key
  · rw [h]
  · rw [if_neg h, if_neg h]

private theorem getElem?_bumpEach_of_not_mem {changes : List (UInt64 × Int)} {key : UInt64}
    (h : key ∉ changes.map (·.1)) : (m.bumpEach changes)[key]? = m[key]? := by
  induction changes generalizing m with
  | nil => rfl
  | cons c rest ih =>
    rw [List.map_cons, List.mem_cons, not_or] at h
    have hc := getElem?_bump_key m c.1 c.2 key
    rw [if_neg (Ne.symm h.1)] at hc
    exact (ih h.2).trans hc

private theorem getElem?_bumpEach_of_mem {changes : List (UInt64 × Int)} {key : UInt64}
    {delta : Int} (hd : (changes.map (·.1)).Nodup) (h : (key, delta) ∈ changes) :
    (m.bumpEach changes)[key]? = kept? (m.getD key 0 + delta) := by
  induction changes generalizing m with
  | nil => cases h
  | cons c rest ih =>
    rw [List.map_cons, List.nodup_cons] at hd
    have hc := getElem?_bump_key m c.1 c.2 key
    rcases List.mem_cons.mp h with rfl | h
    · rw [if_pos rfl] at hc
      exact (getElem?_bumpEach_of_not_mem hd.1).trans hc
    · have hne : c.1 ≠ key := by
        intro he
        exact hd.1 (he ▸ List.mem_map_of_mem h)
      rw [if_neg hne] at hc
      rw [Std.ExtTreeMap.getD_eq_getD_getElem?, ← hc, ← Std.ExtTreeMap.getD_eq_getD_getElem?]
      exact ih hd.2 h

/-- Each entry is merged with the one of its own key, and those of other keys are left alone. -/
theorem getElem?_merge (m n : Multiplicities) (key : UInt64) :
    (m.merge n)[key]? =
      match n[key]? with
      | none => m[key]?
      | some delta => kept? (m.getD key 0 + delta) := by
  have hm : m.merge n = m.bumpEach n.toList := rfl
  have hkeys : n.toList.map (·.1) = n.keys := Std.ExtTreeMap.map_fst_toList_eq_keys
  rw [hm]
  cases hkey : n[key]? with
  | none =>
    apply getElem?_bumpEach_of_not_mem
    rw [hkeys, Std.ExtTreeMap.mem_keys, ← Std.ExtTreeMap.isSome_getElem?_iff_mem, hkey]
    exact nofun
  | some delta =>
    exact getElem?_bumpEach_of_mem (hkeys ▸ Std.ExtTreeMap.nodup_keys)
      (Std.ExtTreeMap.mem_toList_iff_getElem?_eq_some.mpr hkey)

/-- Multiplicities are added, and the sum is kept in its range. A number of which nothing is added
is not touched. -/
theorem get_merge_eq (m n : Multiplicities) (x : Binary64)
    (h : n.get x = 0 → InRange (m.get x)) :
    (m.merge n).get x = saturate (m.get x + n.get x) := by
  have hget : (m.merge n).get x = (m.merge n)[x.orderKey]?.getD 0 :=
    Std.ExtTreeMap.getD_eq_getD_getElem?
  rw [hget, getElem?_merge]
  cases hx : n[x.orderKey]? with
  | none =>
    have hzero := get_of_getElem?_none hx
    rw [hzero, Int.add_zero, h hzero]
    exact Std.ExtTreeMap.getD_eq_getD_getElem?.symm
  | some delta =>
    rw [get_of_getElem? hx]
    exact getD_kept? _

/-- Multiplicities are added, where the sum stays in its range. -/
theorem get_merge (m n : Multiplicities) (x : Binary64) (h : InRange (m.get x + n.get x)) :
    (m.merge n).get x = m.get x + n.get x := by
  rw [get_merge_eq m n x fun hzero ↦ by rwa [hzero, Int.add_zero] at h]
  exact h

/-! ## No multiplicity of zero -/

/-- A multiplicity of zero is not kept. -/
def Canonical (m : Multiplicities) : Prop := ∀ key : UInt64, m[key]? ≠ some 0

/-- Nothing is kept at first. -/
theorem canonical_empty : Canonical ∅ := by
  intro key h
  simp at h

/-- A number whose multiplicity becomes zero is forgotten. -/
theorem Canonical.bump (h : m.Canonical) (x : Binary64) (delta : Int) :
    (m.bump x delta).Canonical := by
  intro key
  rw [getElem?_bump]
  split
  · exact kept?_ne_some_zero _
  · exact h key

/-- No zero is kept when multiplicities are merged. -/
theorem Canonical.merge (h : m.Canonical) (n : Multiplicities) : (m.merge n).Canonical := by
  intro key
  rw [getElem?_merge]
  split
  · exact h key
  · exact kept?_ne_some_zero _

/-- Multiplicities without zeros are known by what they give for each number. -/
theorem Canonical.ext (hm : m.Canonical) (hn : n.Canonical) (h : ∀ x, m.get x = n.get x) :
    m = n := by
  apply Std.ExtTreeMap.ext_getElem?
  intro key
  have hx := h (.ofOrderKey key)
  rw [get, get, Binary64.orderKey_ofOrderKey, Std.ExtTreeMap.getD_eq_getD_getElem?,
    Std.ExtTreeMap.getD_eq_getD_getElem?] at hx
  have hmk := hm key
  have hnk := hn key
  cases hk : m[key]? <;> cases hl : n[key]? <;> simp_all [eq_comm]

end Multiplicities

/-! ## Axes -/

/-- What is counted by one of the numbers of a statistic: entries, or those whose interval begins or
ends with a bit pattern. -/
inductive Axis where
  | entries
  | lower (x : Binary64)
  | upper (x : Binary64)
  deriving DecidableEq, Repr

/-- The interval of an entry's field. -/
def EntryInfo.interval? (i : EntryInfo) (field : Bytes) : Option NumericRange :=
  (i.value? field).bind (·.numericRange?)

/-- What one entry adds to a statistic of a kind along an axis: one or nothing. -/
def EntryInfo.mark (i : EntryInfo) : StatisticKind → Axis → Int
  | .count, .entries => 1
  | .extent field, .lower x => if (i.interval? field).map (·.min) = some x then 1 else 0
  | .extent field, .upper x => if (i.interval? field).map (·.max) = some x then 1 else 0
  | _, _ => 0

/-- An entry adds at most one. -/
theorem EntryInfo.natAbs_mark_le (i : EntryInfo) (k : StatisticKind) (a : Axis) :
    (i.mark k a).natAbs ≤ 1 := by
  unfold mark
  split
  · decide
  · split <;> decide
  · split <;> decide
  · decide

namespace Statistic

variable {s t u : Statistic}

/-- The number of a statistic along an axis. -/
def weight : Statistic → Axis → Int
  | count n, .entries => n
  | extent e, .lower x => e.mins.get x
  | extent e, .upper x => e.maxes.get x
  | _, _ => 0

/-- No multiplicity of zero is kept. -/
def Canonical : Statistic → Prop
  | count _ => True
  | extent e => e.mins.Canonical ∧ e.maxes.Canonical

/-- The statistic of no entries weighs nothing. -/
@[simp] theorem weight_empty (k : StatisticKind) (a : Axis) : (empty k).weight a = 0 := by
  cases k <;> cases a <;> rfl

/-- The statistic of no entries is empty. -/
@[simp] theorem isEmpty_empty (k : StatisticKind) : (empty k).isEmpty = true := by
  cases k <;> rfl

/-- A statistic that is empty weighs nothing. -/
theorem weight_of_isEmpty (h : s.isEmpty = true) (a : Axis) : s.weight a = 0 := by
  cases s with
  | count n =>
    have hn : n = 0 := by simpa [isEmpty] using h
    cases a <;> simp [weight, hn]
  | extent e =>
    rw [isEmpty, Bool.and_eq_true, Std.ExtTreeMap.isEmpty_iff, Std.ExtTreeMap.isEmpty_iff] at h
    cases a <;> simp [weight, h, Multiplicities.get_empty]

/-- The statistic of no entries keeps nothing. -/
theorem canonical_empty (k : StatisticKind) : (empty k).Canonical := by
  cases k with
  | count => trivial
  | extent field => exact ⟨Multiplicities.canonical_empty, Multiplicities.canonical_empty⟩

/-- Statistics of one kind without zeros are known by their weights. -/
theorem Canonical.ext (hs : s.Canonical) (ht : t.Canonical) (hk : s.kind = t.kind)
    (h : ∀ a, s.weight a = t.weight a) : s = t := by
  cases s with
  | count n =>
    cases t with
    | count o => exact congrArg count (h .entries)
    | extent e => cases hk
  | extent d =>
    cases t with
    | count o => cases hk
    | extent e =>
      obtain ⟨field, mins, maxes⟩ := d
      obtain ⟨other, mins', maxes'⟩ := e
      have hfield : field = other := StatisticKind.extent.inj hk
      have hmins : mins = mins' := hs.1.ext ht.1 fun x ↦ h (.lower x)
      have hmaxes : maxes = maxes' := hs.2.ext ht.2 fun x ↦ h (.upper x)
      rw [hfield, hmins, hmaxes]

/-! ## Observing -/

/-- No zero is kept when an entry is observed. -/
theorem Canonical.observe (h : s.Canonical) (sign : Int) (info : EntryInfo) :
    (s.observe sign info).Canonical := by
  cases s with
  | count n => trivial
  | extent e =>
    unfold Statistic.observe
    dsimp only
    split
    · exact ⟨h.1.bump _ _, h.2.bump _ _⟩
    · exact h

/-- Observing an entry adds its mark, where the sum stays in its range. -/
theorem weight_observe (s : Statistic) (sign : Int) (info : EntryInfo) (a : Axis)
    (h : InRange (s.weight a + sign * info.mark s.kind a)) :
    (s.observe sign info).weight a = s.weight a + sign * info.mark s.kind a := by
  cases s with
  | count n =>
    cases a with
    | entries =>
      simp only [weight, kind, EntryInfo.mark, Int.mul_one] at h
      simp only [observe, weight, kind, EntryInfo.mark, Int.mul_one]
      exact h
    | lower x => simp [observe, weight, kind, EntryInfo.mark]
    | upper x => simp [observe, weight, kind, EntryInfo.mark]
  | extent e =>
    cases hr : info.interval? e.field with
    | none =>
      have ho : (extent e).observe sign info = extent e := by
        rw [observe, ← EntryInfo.interval?, hr]
      rw [ho]
      cases a <;> simp [weight, kind, EntryInfo.mark, hr]
    | some r =>
      have ho : (extent e).observe sign info = extent (e.bump r sign) := by
        rw [observe, ← EntryInfo.interval?, hr]
      rw [ho]
      cases a with
      | entries => simp [weight, kind, EntryInfo.mark]
      | lower x =>
        simp only [weight, kind, EntryInfo.mark, hr, Option.map_some, Option.some.injEq] at h ⊢
        exact Multiplicities.get_bump_of_inRange h
      | upper x =>
        simp only [weight, kind, EntryInfo.mark, hr, Option.map_some, Option.some.injEq] at h ⊢
        exact Multiplicities.get_bump_of_inRange h

/-! ## Merging -/

/-- Statistics of one kind are merged. -/
theorem exists_merge (h : s.kind = t.kind) : ∃ u, s.merge t = .ok u := by
  cases hm : s.merge t with
  | ok u => exact ⟨u, rfl⟩
  | error e => exact absurd h (merge_eq_error_iff.mp hm).1

/-- No zero is kept when statistics are merged. -/
theorem Canonical.merge (h : s.Canonical) (hm : s.merge t = .ok u) : u.Canonical := by
  cases s <;> cases t <;> simp only [Statistic.merge] at hm
  · cases hm
    trivial
  · cases hm
  · cases hm
  · split at hm
    · cases hm
      exact ⟨h.1.merge _, h.2.merge _⟩
    · cases hm

/-- Merging adds weights, where the sum stays in its range. -/
theorem weight_merge (hm : s.merge t = .ok u) (a : Axis)
    (h : InRange (s.weight a + t.weight a)) : u.weight a = s.weight a + t.weight a := by
  cases s <;> cases t <;> simp only [Statistic.merge] at hm
  · cases hm
    cases a with
    | entries => exact h
    | lower x => rfl
    | upper x => rfl
  · cases hm
  · cases hm
  · split at hm
    · cases hm
      cases a with
      | entries => rfl
      | lower x => exact Multiplicities.get_merge _ _ x h
      | upper x => exact Multiplicities.get_merge _ _ x h
    · cases hm

end Statistic

end RowVault
