import RowVault.Proofs.Statistic.Balance

/-!
# What tallies collect

A tally collects the entries that come and go. When it is closed, the sum of each key of its adapter
has changed by the marks of these entries, as often as the adapter lists the kind; a kind that is
listed twice is collected and handed in twice.
-/

namespace RowVault

/-- What entries add to a statistic of a kind along an axis. -/
def EntryInfo.marks (infos : List EntryInfo) (k : StatisticKind) (a : Axis) : Int :=
  (infos.map (·.mark k a)).sum

namespace EntryInfo

variable {infos more : List EntryInfo}

/-- No entries add nothing. -/
@[simp] theorem marks_nil (k : StatisticKind) (a : Axis) : marks [] k a = 0 := rfl

/-- An entry adds its mark to those of the others. -/
@[simp] theorem marks_cons (i : EntryInfo) (infos : List EntryInfo) (k : StatisticKind) (a : Axis) :
    marks (i :: infos) k a = i.mark k a + marks infos k a := List.sum_cons

/-- Entries behind others add their marks. -/
@[simp] theorem marks_append (infos more : List EntryInfo) (k : StatisticKind) (a : Axis) :
    marks (infos ++ more) k a = marks infos k a + marks more k a := by
  rw [marks, List.map_append, List.sum_append_int]
  rfl

/-- The order of entries does not matter. -/
theorem marks_perm (h : infos.Perm more) (k : StatisticKind) (a : Axis) :
    marks infos k a = marks more k a := by
  induction h with
  | nil => rfl
  | cons i _ ih => rw [marks_cons, marks_cons, ih]
  | swap i j l =>
    simp only [marks_cons]
    omega
  | trans _ _ ih ih' => exact ih.trans ih'

/-- Entries add at most one each. -/
theorem natAbs_marks_le (infos : List EntryInfo) (k : StatisticKind) (a : Axis) :
    (marks infos k a).natAbs ≤ infos.length := by
  induction infos with
  | nil => simp
  | cons i rest ih =>
    have hi := i.natAbs_mark_le k a
    rw [marks_cons, List.length_cons]
    omega

/-- Entries of which each one is repeated add as many times more. -/
theorem marks_flatMap_replicate (infos : List EntryInfo) (times : Nat) (k : StatisticKind)
    (a : Axis) :
    marks (infos.flatMap (.replicate times)) k a = times * marks infos k a := by
  induction infos with
  | nil => simp
  | cons i rest ih =>
    have hi : marks (.replicate times i) k a = times * i.mark k a := by
      rw [marks, List.map_replicate, List.sum_replicate_int]
    rw [List.flatMap_cons, marks_append, ih, hi, marks_cons, Int.mul_add]

end EntryInfo

namespace Statistic

/-- Observing entries adds their marks, where the number of entries leaves room. -/
theorem weight_foldl_ingested (s : Statistic) (infos : List EntryInfo) (a : Axis)
    (h : (s.weight a).natAbs + infos.length < 2 ^ 63) :
    (infos.foldl (fun s i ↦ s.ingested i) s).weight a =
      s.weight a + EntryInfo.marks infos s.kind a := by
  induction infos generalizing s with
  | nil => simp
  | cons i rest ih =>
    have hm := i.natAbs_mark_le s.kind a
    rw [List.length_cons] at h
    have hi : (s.ingested i).weight a = s.weight a + i.mark s.kind a := by
      have hw := s.weight_observe 1 i a (inRange_of_natAbs_lt (by omega))
      rwa [Int.one_mul] at hw
    have hk : (s.ingested i).kind = s.kind := s.kind_observe 1 i
    have hrest := ih (s.ingested i) (by omega)
    rw [hk] at hrest
    rw [List.foldl_cons, hrest, EntryInfo.marks_cons]
    omega

/-- Observing entries keeps the kind, and keeps no zeros. -/
theorem foldl_ingested (infos : List EntryInfo) {s : Statistic} (h : s.Canonical) :
    (infos.foldl (fun s i ↦ s.ingested i) s).kind = s.kind ∧
      (infos.foldl (fun s i ↦ s.ingested i) s).Canonical := by
  induction infos generalizing s with
  | nil => exact ⟨rfl, h⟩
  | cons i rest ih =>
    obtain ⟨hk, hc⟩ := ih (h.observe 1 i)
    exact ⟨hk.trans (s.kind_observe 1 i), hc⟩

/-- A statistic that observes entries, each of them so many times. -/
def ingestedEach (s : Statistic) (times : Nat) (infos : List EntryInfo) : Statistic :=
  (infos.flatMap (.replicate times)).foldl (fun s i ↦ s.ingested i) s

/-- Without entries, a statistic stays as it is. -/
@[simp] theorem ingestedEach_nil (s : Statistic) (times : Nat) : s.ingestedEach times [] = s := rfl

/-- Observing entries several times keeps the kind, and keeps no zeros. -/
theorem Canonical.ingestedEach {s : Statistic} (h : s.Canonical) (times : Nat)
    (infos : List EntryInfo) :
    (s.ingestedEach times infos).kind = s.kind ∧ (s.ingestedEach times infos).Canonical :=
  foldl_ingested _ h

/-- Observing entries several times adds as many times their marks, where their number leaves
room. -/
theorem weight_ingestedEach (s : Statistic) (times : Nat) (infos : List EntryInfo) (a : Axis)
    (h : (s.weight a).natAbs + times * infos.length < 2 ^ 63) :
    (s.ingestedEach times infos).weight a =
      s.weight a + times * EntryInfo.marks infos s.kind a := by
  have hlength : (infos.flatMap (.replicate times)).length = times * infos.length := by
    simp [List.length_flatMap, List.map_const', Nat.mul_comm]
  rw [ingestedEach, weight_foldl_ingested s _ a (by omega), EntryInfo.marks_flatMap_replicate]

end Statistic

namespace Tally

variable {t : Tally} {adapter : Bytes} {kinds : List StatisticKind} {come gone : List EntryInfo}

/-- The deltas of one kind are as many as the kind is listed times. -/
theorem length_filter_kind (t : Tally) (k : StatisticKind) :
    (t.deltas.filter fun delta ↦ delta.kind == k).length = (t.deltas.map (·.kind)).count k := by
  rw [List.count_eq_countP, List.countP_map, List.countP_eq_length_filter]
  rfl

/-- A tally holds entries that came and entries that went, for each kind of an adapter. -/
structure Holds (t : Tally) (adapter : Bytes) (kinds : List StatisticKind)
    (come gone : List EntryInfo) : Prop where
  adapter_eq : t.adapter = adapter
  kinds_eq : t.deltas.map (·.kind) = kinds
  weight_eq : come.length + gone.length < 2 ^ 63 → ∀ delta ∈ t.deltas, ∀ a,
    delta.weight a = EntryInfo.marks come delta.kind a - EntryInfo.marks gone delta.kind a

/-- A tally begins with no entries. -/
theorem holds_start (adapter : Bytes) (kinds : List StatisticKind) :
    (start adapter kinds).Holds adapter kinds [] [] where
  adapter_eq := rfl
  kinds_eq := by simp [start, Function.comp_def]
  weight_eq _ delta hd a := by
    obtain ⟨k, -, rfl⟩ := List.mem_map.mp hd
    simp

private theorem Holds.weight_observe (h : t.Holds adapter kinds come gone) (sign : Int)
    (hsign : sign.natAbs ≤ 1) (info : EntryInfo) (hb : come.length + gone.length + 1 < 2 ^ 63)
    {delta : Statistic} (hd : delta ∈ t.deltas) (a : Axis) :
    (delta.observe sign info).weight a =
      EntryInfo.marks come delta.kind a - EntryInfo.marks gone delta.kind a +
        sign * info.mark delta.kind a := by
  have hw := h.weight_eq (by omega) delta hd a
  have hcome := EntryInfo.natAbs_marks_le come delta.kind a
  have hgone := EntryInfo.natAbs_marks_le gone delta.kind a
  have hmark : (sign * info.mark delta.kind a).natAbs ≤ 1 := by
    rw [Int.natAbs_mul]
    exact Nat.mul_le_mul hsign (info.natAbs_mark_le delta.kind a)
  rw [delta.weight_observe sign info a (inRange_of_natAbs_lt (by omega)), hw]

/-- One more entry is held as one that came. -/
theorem Holds.ingested (h : t.Holds adapter kinds come gone) (info : EntryInfo) :
    (t.ingested info).Holds adapter kinds (come ++ [info]) gone where
  adapter_eq := h.adapter_eq
  kinds_eq := by simpa [Tally.ingested, Statistic.ingested, Function.comp_def] using h.kinds_eq
  weight_eq hb delta hd a := by
    obtain ⟨old, hold, rfl⟩ := List.mem_map.mp hd
    rw [List.length_append, List.length_singleton] at hb
    have hw := h.weight_observe 1 (by decide) info (by omega) hold a
    rw [Statistic.ingested, hw, Statistic.kind_observe, EntryInfo.marks_append]
    simp only [EntryInfo.marks_cons, EntryInfo.marks_nil]
    omega

/-- One entry less is held as one that went. -/
theorem Holds.deleted (h : t.Holds adapter kinds come gone) (info : EntryInfo) :
    (t.deleted info).Holds adapter kinds come (gone ++ [info]) where
  adapter_eq := h.adapter_eq
  kinds_eq := by simpa [Tally.deleted, Statistic.deleted, Function.comp_def] using h.kinds_eq
  weight_eq hb delta hd a := by
    obtain ⟨old, hold, rfl⟩ := List.mem_map.mp hd
    rw [List.length_append, List.length_singleton] at hb
    have hw := h.weight_observe (-1) (by decide) info (by omega) hold a
    rw [Statistic.deleted, hw, Statistic.kind_observe, EntryInfo.marks_append]
    simp only [EntryInfo.marks_cons, EntryInfo.marks_nil]
    omega

/-- Entries that go one after the other are all held. -/
theorem Holds.deletedEach (h : t.Holds adapter kinds come gone) (infos : List EntryInfo) :
    (infos.foldl Tally.deleted t).Holds adapter kinds come (gone ++ infos) := by
  induction infos generalizing t gone with
  | nil => simpa using h
  | cons i rest ih => simpa using ih (h.deleted i)

end Tally

namespace Ledger

variable {l m : Ledger} {t : Tally} {adapter : Bytes} {kinds : List StatisticKind}
  {come gone : List EntryInfo}

/-- How often an adapter lists the kind of a key; a key of another adapter is not listed. -/
def share (adapter : Bytes) (kinds : List StatisticKind) (c : StatisticKey) : Nat :=
  if c.adapter = adapter then kinds.count c.kind else 0

/-- A ledger has booked entries that came and entries that went: where numbers stay in range, the
sum of each listed key has changed by their marks, and its volume by no more than their number. -/
structure Books (l m : Ledger) (adapter : Bytes) (kinds : List StatisticKind)
    (come gone : List EntryInfo) : Prop where
  sane : m.Sane
  grows : ∀ c a, l.volume c a + share adapter kinds c * (come.length + gone.length) < 2 ^ 63 →
    m.sum c a = l.sum c a +
        share adapter kinds c * (EntryInfo.marks come c.kind a - EntryInfo.marks gone c.kind a) ∧
      m.volume c a ≤ l.volume c a + share adapter kinds c * (come.length + gone.length)

/-- A ledger that takes in the changes of a tally books the entries that the tally holds. -/
theorem Takes.books (h : l.Takes m t.changes) (ht : t.Holds adapter kinds come gone) :
    l.Books m adapter kinds come gone where
  sane := h.sane
  grows c a hb := by
    have hc := h.grows c a
    rw [Tally.changes, ParkedDelta.changesOf_map, ht.adapter_eq] at hc
    unfold share at hb ⊢
    by_cases ha : c.adapter = adapter
    · simp only [ha, if_true] at hb hc ⊢
      rw [← ht.kinds_eq, ← t.length_filter_kind c.kind] at hb ⊢
      cases hd : t.deltas.filter fun delta ↦ delta.kind == c.kind with
      | nil =>
        rw [hd] at hb hc
        simpa using hc (by simpa using hb)
      | cons first rest =>
        rw [← hd]
        have hpos : 0 < (t.deltas.filter fun delta ↦ delta.kind == c.kind).length := by
          rw [hd]
          exact Nat.succ_pos _
        have hle := Nat.le_mul_of_pos_left (come.length + gone.length) hpos
        have hweight : ∀ delta ∈ t.deltas.filter fun delta ↦ delta.kind == c.kind,
            delta.weight a = EntryInfo.marks come c.kind a - EntryInfo.marks gone c.kind a := by
          intro delta hm
          obtain ⟨hm, hk⟩ := List.mem_filter.mp hm
          rw [ht.weight_eq (by omega) delta hm a, eq_of_beq hk]
        have hcome := EntryInfo.natAbs_marks_le come c.kind a
        have hgone := EntryInfo.natAbs_marks_le gone c.kind a
        have hbulk : Statistic.bulk (t.deltas.filter fun delta ↦ delta.kind == c.kind) a ≤ _ :=
          Statistic.bulk_le_of_forall (n := come.length + gone.length) fun delta hm ↦ by
            rw [hweight delta hm]
            omega
        rw [Statistic.net_of_forall hweight] at hc
        obtain ⟨hsum, hvolume⟩ := hc (by omega)
        exact ⟨hsum, by omega⟩
    · simp only [ha, if_false] at hb hc ⊢
      simpa using hc (by simpa using hb)

/-- A tally that is begun on a ledger and closed on it books the entries that it holds. -/
theorem Sane.books_close (h : l.Sane) (ht : t.Holds adapter kinds come gone) :
    l.Books (t.close (Tally.openOn l adapter kinds).value.1).value adapter kinds come gone := by
  have hopen := Tally.takes_openOn h adapter kinds
  have hclose := hopen.trans (Tally.takes_close hopen.sane t)
  rw [List.nil_append] at hclose
  exact hclose.books ht

end Ledger

end RowVault
