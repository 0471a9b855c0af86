import RowVault.Key.Window

/-!
# Windows and the ranges they come from

A key lies in the window of a range just if the range names it: `nextPrefix` is the least upper
bound of the keys that begin with a byte string. Joining windows that overlap or touch loses no key
and adds none, whatever the ranges look like, and leaves windows that ascend, so that no key lies in
two of them. Ranges that end before they begin name no key, and their windows hold none.
-/

namespace RowVault

/-- The keys below the upper bound of a beginning are those up to it and those that begin with
it. -/
theorem Bytes.below_nextPrefix_iff (last key : Bytes) :
    (∀ u ∈ last.nextPrefix, key < u) ↔ key ≤ last ∨ last <+: key := by
  induction last generalizing key with
  | nil => simp [nextPrefix]
  | cons b rest ih =>
    cases key with
    | nil =>
      have hlower : ∀ u ∈ nextPrefix (b :: rest), ([] : Bytes) < u := by
        rw [nextPrefix]
        split
        · simp
        · split <;> simp
      exact ⟨fun _ ↦ .inl (List.nil_le _), fun _ ↦ hlower⟩
    | cons a key =>
      have hright : (a :: key ≤ b :: rest ∨ b :: rest <+: a :: key) ↔
          a < b ∨ a = b ∧ ∀ u ∈ nextPrefix rest, key < u := by
        rw [List.cons_le_cons_iff, List.cons_prefix_cons, ih key, eq_comm (a := b)]
        grind
      rw [hright, nextPrefix]
      cases hn : nextPrefix rest with
      | some upper => simp [List.cons_lt_cons_iff]
      | none =>
        -- All keys that go on behind the byte are below the next byte, if there is one.
        simp only [Option.not_mem_none, false_implies, implies_true, and_true]
        split
        · next hb =>
          have hstep : a < b + 1 ↔ a < b ∨ a = b := by
            simp only [UInt8.lt_iff_toNat_lt, ← UInt8.toNat_inj, UInt8.toNat_add] at hb ⊢
            have : UInt8.toNat 255 = 255 := rfl
            have : UInt8.toNat 1 = 1 := rfl
            omega
          simp [List.cons_lt_cons_iff, hstep]
        · next hb =>
          simp only [Option.not_mem_none, false_implies, implies_true, true_iff]
          simp only [UInt8.lt_iff_toNat_lt, ← UInt8.toNat_inj] at hb ⊢
          have := a.toNat_lt
          have : UInt8.toNat 255 = 255 := rfl
          omega

/-- Only what is up to a key is below the key with the least byte behind it. -/
theorem Bytes.lt_append_zero_iff (key other : Bytes) : other < key ++ [0] ↔ other ≤ key := by
  induction key generalizing other with
  | nil => cases other <;> simp [List.cons_lt_cons_iff]
  | cons b rest ih =>
    cases other with
    | nil => simp
    | cons a other => rw [List.cons_append, List.cons_lt_cons_iff, List.cons_le_cons_iff, ih]

namespace Window

variable {w v : Window} {key other start : Bytes}

/-- A key lies in a window if it is neither before it nor behind it. -/
theorem holds_iff : w.holds key = true ↔ w.lower ≤ key ∧ ∀ u ∈ w.upper, key < u := by
  simp [holds, Option.all_eq_true]

/-- A window reaches a key unless it ends before. -/
theorem reaches_iff : w.reaches key = true ↔ ∀ u ∈ w.upper, key ≤ u := by
  simp [reaches, Option.all_eq_true]

/-- A key is below the later one of two bounds if it is below one of them. -/
theorem below_laterBound_iff (u v : Option Bytes) (key : Bytes) :
    (∀ b ∈ laterBound u v, key < b) ↔ (∀ b ∈ u, key < b) ∨ ∀ b ∈ v, key < b := by
  cases u with
  | none => simp [laterBound]
  | some u =>
    cases v with
    | none => simp [laterBound]
    | some v =>
      simp only [laterBound, Option.mem_def, Option.some.injEq, forall_eq']
      split
      · next h => exact ⟨.inl, fun hk ↦ hk.elim id fun hv ↦ Std.lt_of_lt_of_le hv h⟩
      · next h =>
        have hle : u ≤ v := Std.le_of_lt (Std.not_le.mp h)
        exact ⟨.inr, fun hk ↦ hk.elim (fun hu ↦ Std.lt_of_lt_of_le hu hle) id⟩

/-- A window that reaches the beginning of a later one is extended by the keys of the latter. -/
theorem holds_extend (hlower : w.lower ≤ v.lower) (hreaches : w.reaches v.lower = true) :
    (w.extend v.upper).holds key = (w.holds key || v.holds key) := by
  rw [Bool.eq_iff_iff, Bool.or_eq_true, holds_iff, holds_iff, holds_iff, extend,
    below_laterBound_iff]
  constructor
  · rintro ⟨hl, hb | hb⟩
    · exact .inl ⟨hl, hb⟩
    · -- A key that is behind the first window is not before the second one.
      by_cases hw : ∀ u ∈ w.upper, key < u
      · exact .inl ⟨hl, hw⟩
      · simp only [Classical.not_forall] at hw
        obtain ⟨u, hu, hkey⟩ := hw
        have hvu : v.lower ≤ u := reaches_iff.mp hreaches u hu
        exact .inr ⟨Std.le_trans hvu (Std.not_lt.mp hkey), hb⟩
  · rintro (⟨hl, hb⟩ | ⟨hl, hb⟩)
    · exact ⟨hl, .inl hb⟩
    · exact ⟨Std.le_trans hlower hl, .inr hb⟩

/-- The keys of one window are below those of another one. -/
def Below (w v : Window) : Prop := ∀ a b, w.holds a = true → v.holds b = true → a < b

/-- A window that ends before another one begins. -/
def Before (w v : Window) : Prop := ∃ u ∈ w.upper, u < v.lower

/-- The keys of a window are below those of a window behind it. -/
theorem Before.below (h : w.Before v) : w.Below v := by
  intro a b ha hb
  obtain ⟨u, hu, huv⟩ := h
  have hau : a < u := (holds_iff.mp ha).2 u hu
  exact Std.lt_of_lt_of_le (Std.lt_trans hau huv) (holds_iff.mp hb).1

/-- No key lies in two windows of which one is below the other. -/
theorem Below.disjoint (h : w.Below v) (key : Bytes) : ¬ (w.holds key = true ∧ v.holds key = true) :=
  fun ⟨hw, hv⟩ ↦ Std.lt_irrefl (h key key hw hv)

/-- A window that ends before it begins holds no key. -/
theorem holds_of_inverted {u : Bytes} (hu : u ∈ w.upper) (h : u ≤ w.lower) (key : Bytes) :
    w.holds key = false := by
  rw [Bool.eq_false_iff, ne_eq, holds_iff]
  rintro ⟨hlower, hupper⟩
  exact Std.lt_irrefl (Std.lt_of_lt_of_le (hupper u hu) (Std.le_trans h hlower))

/-- The window of a single key holds that key only. -/
theorem holds_exactly : (exactly key).holds other = true ↔ other = key := by
  rw [holds_iff, exactly]
  simp only [Option.mem_def, Option.some.injEq, forall_eq', Bytes.lt_append_zero_iff]
  exact ⟨fun h ↦ Std.le_antisymm h.2 h.1, fun h ↦ h ▸ ⟨Std.le_refl _, Std.le_refl _⟩⟩

/-- The window of a beginning holds the keys that begin with it. -/
theorem holds_beginningWith : (beginningWith start).holds key = true ↔ start <+: key := by
  rw [holds_iff, beginningWith, Bytes.below_nextPrefix_iff]
  constructor
  · rintro ⟨hlower, hkey | hkey⟩
    · obtain rfl : start = key := Std.le_antisymm hlower hkey
      exact List.prefix_refl start
    · exact hkey
  · intro h
    exact ⟨h.le, .inr h⟩

end Window

namespace KeyRange

/-- A range names the keys between its ends and those that begin with the last one. -/
theorem covers_iff {r : KeyRange} {key : Bytes} :
    r.covers key = true ↔ r.first ≤ key ∧ (key ≤ r.last ∨ r.last <+: key) := by
  simp [covers, List.isPrefixOf_iff_prefix]

/-- The window of a range holds the keys that the range names. -/
theorem holds_window (r : KeyRange) (key : Bytes) : r.window.holds key = r.covers key := by
  rw [Bool.eq_iff_iff, Window.holds_iff, window, Bytes.below_nextPrefix_iff, covers_iff]

/-- The ranges ascend by their first keys. -/
abbrev Sorted (ranges : List KeyRange) : Prop := ranges.Pairwise fun r s ↦ r.first ≤ s.first

/-- Joined windows hold the keys of the first window and those that the ranges name. -/
theorem any_holds_join {w : Window} {ranges : List KeyRange} (hs : Sorted ranges)
    (hw : ∀ r ∈ ranges, w.lower ≤ r.first) (key : Bytes) :
    (join w ranges).any (·.holds key) = (w.holds key || ranges.any (·.covers key)) := by
  induction ranges generalizing w with
  | nil => simp [join]
  | cons r rest ih =>
    obtain ⟨hr, hs⟩ := List.pairwise_cons.mp hs
    rw [List.forall_mem_cons] at hw
    rw [join, List.any_cons, ← holds_window]
    split
    · next hreaches =>
      rw [ih (w := w.extend r.window.upper) hs hw.2, Window.holds_extend hw.1 hreaches,
        Bool.or_assoc]
    · rw [List.any_cons, ih hs hr]

/-- Joined windows begin where the first window or one of the ranges begins. -/
theorem lower_of_mem_join {w v : Window} {ranges : List KeyRange} (hv : v ∈ join w ranges) :
    v.lower = w.lower ∨ ∃ r ∈ ranges, v.lower = r.first := by
  induction ranges generalizing w with
  | nil => exact .inl (by rw [List.mem_singleton.mp hv])
  | cons r rest ih =>
    rw [join] at hv
    split at hv
    · rcases ih hv with h | ⟨s, hs, h⟩
      · exact .inl h
      · exact .inr ⟨s, List.mem_cons_of_mem r hs, h⟩
    · rcases List.mem_cons.mp hv with rfl | hv
      · exact .inl rfl
      · rcases ih hv with h | ⟨s, hs, h⟩
        · exact .inr ⟨r, by simp, h⟩
        · exact .inr ⟨s, List.mem_cons_of_mem r hs, h⟩

/-- Joined windows ascend. -/
theorem pairwise_before_join {w : Window} {ranges : List KeyRange} (hs : Sorted ranges) :
    (join w ranges).Pairwise Window.Before := by
  induction ranges generalizing w with
  | nil => exact List.pairwise_singleton _ _
  | cons r rest ih =>
    obtain ⟨hr, hs⟩ := List.pairwise_cons.mp hs
    rw [join]
    split
    · exact ih hs
    · next hreaches =>
      rw [Window.reaches_iff] at hreaches
      simp only [Classical.not_forall] at hreaches
      obtain ⟨u, hu, hbefore⟩ := hreaches
      refine List.pairwise_cons.mpr ⟨?_, ih hs⟩
      intro v hv
      have hlower : r.first ≤ v.lower := by
        rcases lower_of_mem_join hv with h | ⟨s, hmem, h⟩
        · exact Std.le_of_eq h.symm
        · exact h ▸ hr s hmem
      exact ⟨u, hu, Std.lt_of_lt_of_le (Std.not_le.mp hbefore) hlower⟩

/-- Joined windows begin in the order of the ranges. -/
theorem pairwise_lower_join {w : Window} {ranges : List KeyRange} (hs : Sorted ranges)
    (hw : ∀ r ∈ ranges, w.lower ≤ r.first) :
    (join w ranges).Pairwise fun u v ↦ u.lower ≤ v.lower := by
  induction ranges generalizing w with
  | nil => exact List.pairwise_singleton _ _
  | cons r rest ih =>
    obtain ⟨hr, hs⟩ := List.pairwise_cons.mp hs
    rw [List.forall_mem_cons] at hw
    rw [join]
    split
    · exact ih hs hw.2
    · refine List.pairwise_cons.mpr ⟨?_, ih hs hr⟩
      intro v hv
      rcases lower_of_mem_join hv with h | ⟨s, hmem, h⟩
      · exact h ▸ hw.1
      · exact h ▸ hw.2 s hmem

private theorem sorted_mergeSort (ranges : List KeyRange) :
    Sorted (ranges.mergeSort fun r s ↦ decide (r.first ≤ s.first)) := by
  have h : (ranges.mergeSort fun r s ↦ decide (r.first ≤ s.first)).Pairwise
      fun r s ↦ decide (r.first ≤ s.first) = true := by
    apply List.pairwise_mergeSort
    · intro r s t hrs hst
      rw [decide_eq_true_eq] at hrs hst ⊢
      exact Std.le_trans hrs hst
    · intro r s
      rw [Bool.or_eq_true, decide_eq_true_eq, decide_eq_true_eq]
      exact Std.le_total
  exact h.imp of_decide_eq_true

/-- A key lies in one of the windows of ranges just if one of the ranges names it. -/
theorem any_holds_coalesce (ranges : List KeyRange) (key : Bytes) :
    (coalesce ranges).any (·.holds key) = ranges.any (·.covers key) := by
  have hsorted := sorted_mergeSort ranges
  have hperm := List.mergeSort_perm ranges fun r s ↦ decide (r.first ≤ s.first)
  rw [coalesce, ← hperm.any_eq]
  cases hm : ranges.mergeSort fun r s ↦ decide (r.first ≤ s.first) with
  | nil => rfl
  | cons r rest =>
    rw [hm] at hsorted
    obtain ⟨hr, hrest⟩ := List.pairwise_cons.mp hsorted
    rw [joinSorted, any_holds_join hrest hr, holds_window, List.any_cons]

/-- The windows of ranges ascend, so that no key lies in two of them. -/
theorem pairwise_before_coalesce (ranges : List KeyRange) :
    (coalesce ranges).Pairwise Window.Before := by
  have hsorted := sorted_mergeSort ranges
  rw [coalesce]
  cases hm : ranges.mergeSort fun r s ↦ decide (r.first ≤ s.first) with
  | nil => exact List.Pairwise.nil
  | cons r rest =>
    rw [hm] at hsorted
    exact pairwise_before_join (List.pairwise_cons.mp hsorted).2

/-- The windows of ranges begin in ascending order, also where they hold no key. -/
theorem pairwise_lower_coalesce (ranges : List KeyRange) :
    (coalesce ranges).Pairwise fun w v ↦ w.lower ≤ v.lower := by
  have hsorted := sorted_mergeSort ranges
  rw [coalesce]
  cases hm : ranges.mergeSort fun r s ↦ decide (r.first ≤ s.first) with
  | nil => exact List.Pairwise.nil
  | cons r rest =>
    rw [hm] at hsorted
    obtain ⟨hr, hrest⟩ := List.pairwise_cons.mp hsorted
    exact pairwise_lower_join hrest hr

/-- If ranges with the same first key are equal, there is one way to sort them. -/
theorem coalesce_of_perm {ranges sorted : List KeyRange} (hperm : ranges.Perm sorted)
    (hsorted : Sorted sorted)
    (heq : ∀ r ∈ ranges, ∀ s ∈ sorted, r.first = s.first → r = s) :
    coalesce ranges = joinSorted sorted := by
  rw [coalesce]
  congr 1
  refine List.Perm.eq_of_pairwise ?_ (sorted_mergeSort ranges) hsorted
    ((List.mergeSort_perm ranges _).trans hperm)
  intro r s hr hs hrs hsr
  exact heq r (List.mem_mergeSort.mp hr) s hs (Std.le_antisymm hrs hsr)

end KeyRange

end RowVault
