import RowVault.Proofs.Key.Windows
import RowVault.Proofs.OrderedMap
import RowVault.Proofs.Store.Exposure

/-!
# The rows of windows

The rows of an index ascend by insertion key, then by identity. The rows of a window are those whose
insertion key lies in it, whatever the length of the key, and the rows of windows that ascend are
the rows of the index whose insertion key lies in one of them, each once and in the same order. So
the windows of ranges visit the rows that the ranges name, and nothing is asked of the ranges: they
may overlap, come twice or end before they begin.
-/

namespace RowVault

variable {T : Type}

/-! ## The order of places -/

private theorem Bytes.isLE_compare_iff (a b : Bytes) : (compare a b).isLE = true ↔ a ≤ b := by
  induction a generalizing b with
  | nil => cases b <;> simp [List.compare_nil_cons]
  | cons x a ih =>
    cases b with
    | nil => simp [List.compare_cons_nil]
    | cons y b =>
      rw [List.compare_cons_cons, List.cons_le_cons_iff, ← ih b]
      cases hxy : compare x y with
      | lt => simp [Std.compare_eq_lt.mp hxy]
      | eq =>
        obtain rfl := Std.LawfulEqOrd.eq_of_compare hxy
        simp
      | gt =>
        have hlt : y < x := Std.compare_eq_gt.mp hxy
        have hne : x ≠ y := fun h ↦ Std.lt_irrefl (h ▸ hlt)
        simp [Std.not_lt.mpr (Std.le_of_lt hlt), hne]

/-- Comparisons of byte strings agree with their order. -/
instance : Std.LawfulOrderOrd Bytes where
  isLE_compare := Bytes.isLE_compare_iff
  isGE_compare a b := by
    rw [← Bytes.isLE_compare_iff b a, Std.OrientedOrd.eq_swap (a := b), Ordering.isLE_swap]

namespace RowKey

variable {place : RowKey} {key : Bytes}

/-- Nothing is less than the empty identity, so a floor is the least place of its key. -/
theorem isLE_compare_floor : (compare (floor key) place).isLE = true ↔ key ≤ place.key := by
  rw [compare_def, ← Std.isLE_compare, floor]
  cases compare key place.key with
  | lt => rfl
  | gt => rfl
  | eq =>
    have hid : (compare ([] : Bytes) place.identity).isLE = true :=
      Std.isLE_compare.mpr (List.nil_le _)
    simpa using hid

/-- Places are ordered by key, and by identity where the keys are equal. -/
theorem compare_eq_lt_iff {a b : RowKey} :
    compare a b = .lt ↔ a.key < b.key ∨ a.key = b.key ∧ a.identity < b.identity := by
  rw [compare_def, Ordering.then_eq_lt, Std.compare_eq_lt, Std.compare_eq_lt,
    Std.LawfulEqOrd.compare_eq_iff_eq]

/-- Only places of lesser keys lie below a floor. -/
theorem compare_floor_eq_lt : compare place (floor key) = .lt ↔ place.key < key := by
  rw [← Std.not_le, ← isLE_compare_floor, Std.OrientedOrd.eq_swap (a := floor key)]
  cases compare place (floor key) <;> simp

end RowKey

/-- A row is before another one by insertion key, or by identity under one key. -/
def StoredRow.Precedes (r q : StoredRow T) : Prop :=
  r.row.id.key < q.row.id.key ∨
    r.row.id.key = q.row.id.key ∧ RowId.identityOf r.row.raw < RowId.identityOf q.row.raw

/-- No row is before itself. -/
theorem StoredRow.Precedes.ne {r q : StoredRow T} (h : r.Precedes q) : r ≠ q := by
  rintro rfl
  rcases h with h | ⟨-, h⟩
  · exact Std.lt_irrefl h
  · exact Std.lt_irrefl h

namespace RowSet

/-! ## The rows of one window -/

/-- A place lies in the interval of a window just if its key lies in the window. A window that ends
before it begins holds no key, and its interval is empty. -/
theorem lies_interval (w : Window) (place : RowKey) :
    lies (interval w).1 (interval w).2 place = w.holds place.key := by
  rw [Bool.eq_iff_iff, Window.holds_iff, lies, Bool.and_eq_true, interval,
    RowKey.isLE_compare_floor]
  apply and_congr_right
  intro hlower
  cases hu : w.upper with
  | none => simp
  | some u =>
    simp only [Option.map_some, Option.all_some, beq_iff_eq, RowKey.compare_floor_eq_lt,
      Option.mem_def, Option.some.injEq, forall_eq']
    split
    · rfl
    · next h =>
      have hle : u ≤ place.key := Std.le_trans (Std.not_lt.mp h) hlower
      simp [Std.not_lt.mpr hlower, Std.not_lt.mpr hle]

/-- The rows from a place up to another one, asked of a map that refuses an interval which ends
before it begins. -/
def between? (rows : RowSet T) (lower : RowKey) (upper : Option RowKey) :
    Option (List (StoredRow T)) :=
  if upper.any fun u ↦ compare u lower == .lt then none else some (rows.between lower upper)

/-- The interval of a window does not end before it begins, even if the window does. -/
theorem between?_interval (rows : RowSet T) (w : Window) :
    rows.between? (interval w).1 (interval w).2 = some (rows.within w) := by
  rw [between?, within, if_neg]
  rw [Option.any_eq_true]
  rintro ⟨u, hu, hlt⟩
  obtain ⟨upper, -, rfl⟩ := Option.map_eq_some_iff.mp hu
  rw [beq_iff_eq, interval, RowKey.compare_floor_eq_lt, RowKey.floor] at hlt
  dsimp only at hlt
  split at hlt
  · next h => exact Std.lt_irrefl (Std.lt_trans h hlt)
  · exact Std.lt_irrefl hlt

/-- The rows of a window are those whose insertion key lies in it. -/
theorem Placed.within_eq {rows : RowSet T} (h : rows.Placed) (w : Window) :
    rows.within w = rows.all.filter fun r ↦ w.holds r.row.id.key := by
  rw [within, h.between_eq]
  apply List.filter_congr
  intro r _
  rw [lies_interval]
  rfl

/-! ## The rows of windows, one after the other -/

/-- The rows of an index ascend by place. -/
theorem Placed.ascends {rows : RowSet T} (h : rows.Placed) :
    rows.all.Pairwise fun r q ↦ compare r.place q.place = .lt :=
  OrderedMap.pairwise_values h

/-- The rows of an index ascend by insertion key, then by identity. -/
theorem Placed.precedes {rows : RowSet T} (h : rows.Placed) :
    rows.all.Pairwise StoredRow.Precedes :=
  h.ascends.imp RowKey.compare_eq_lt_iff.mp

/-- Of an ascending list, the elements of one kind, followed by those of another kind that are all
behind them, are the elements of both kinds. -/
theorem filter_append_filter {α : Type} {R : α → α → Prop} {p q : α → Bool} {xs : List α}
    (hxs : xs.Pairwise R) (hboth : ∀ x, p x = true → q x = false)
    (hbehind : ∀ x y, R x y → q x = true → p y = false) :
    xs.filter p ++ xs.filter q = xs.filter fun x ↦ p x || q x := by
  induction xs with
  | nil => rfl
  | cons x rest ih =>
    obtain ⟨hx, hrest⟩ := List.pairwise_cons.mp hxs
    cases hp : p x with
    | true => simp [hp, hboth x hp, ← ih hrest]
    | false =>
      cases hq : q x with
      | false => simp [hp, hq, ← ih hrest]
      | true =>
        have hnone : rest.filter p = [] :=
          List.filter_eq_nil_iff.mpr fun y hy ↦ by simp [hbehind x y (hx y hy) hq]
        have hih := ih hrest
        rw [hnone, List.nil_append] at hih
        simp [hp, hq, hnone, hih]

/-- The rows of windows that lie one below the other are those whose insertion key lies in one of
them. -/
theorem Placed.withinEach_eq {rows : RowSet T} (h : rows.Placed) {windows : List Window}
    (hw : windows.Pairwise Window.Below) :
    rows.withinEach windows = rows.all.filter fun r ↦ windows.any (·.holds r.row.id.key) := by
  induction windows with
  | nil => simp [withinEach]
  | cons w rest ih =>
    obtain ⟨hbelow, hrest⟩ := List.pairwise_cons.mp hw
    have hlt : ∀ r q : StoredRow T, w.holds r.row.id.key = true →
        rest.any (·.holds q.row.id.key) = true → r.row.id.key < q.row.id.key := by
      intro r q hr hq
      obtain ⟨v, hv, hq⟩ := List.any_eq_true.mp hq
      exact hbelow v hv _ _ hr hq
    have happend := filter_append_filter (p := fun r ↦ w.holds r.row.id.key)
      (q := fun r ↦ rest.any (·.holds r.row.id.key)) h.ascends
      (fun r hr ↦ Bool.eq_false_iff.mpr fun hq ↦ Std.lt_irrefl (hlt r r hr hq)) ?_
    · rw [withinEach, List.flatMap_cons, h.within_eq]
      exact (congrArg (_ ++ ·) (ih hrest)).trans happend
    · intro r q hrq hr
      -- A row of a later window has the greater key, so it is not before the row at hand.
      apply Bool.eq_false_iff.mpr
      intro hq
      have hkey : q.row.id.key < r.row.id.key := hlt q r hq hr
      have hcompare : compare q.place r.place = .lt := RowKey.compare_eq_lt_iff.mpr (.inl hkey)
      rw [Std.OrientedOrd.eq_swap, hcompare] at hrq
      cases hrq

/-- The rows of the windows of ranges are those whose insertion key one of the ranges names. -/
theorem Placed.withinEach_coalesce {rows : RowSet T} (h : rows.Placed) (ranges : List KeyRange) :
    rows.withinEach (KeyRange.coalesce ranges) =
      rows.all.filter fun r ↦ ranges.any (·.covers r.row.id.key) := by
  have hbelow := (KeyRange.pairwise_before_coalesce ranges).imp Window.Before.below
  rw [h.withinEach_eq hbelow]
  apply List.filter_congr
  intro r _
  rw [KeyRange.any_holds_coalesce]

/-- Walking the windows of ranges, one after the other, visits the rows whose insertion key one of
the ranges names: between its ends, or beginning with the last one. Each is visited once, in the
order of insertion keys and identities. This holds of any ranges and of any rows, each at its own
place. The windows begin in ascending order and have no key in common; one that ends before it
begins holds none; and no window makes the walk ask for an interval of places that does so. -/
theorem windows_visit_rows_once {rows : RowSet T} (h : rows.Placed) (ranges : List KeyRange) :
    let windows := KeyRange.coalesce ranges
    let visited := rows.withinEach windows
    (∀ r, r ∈ visited ↔ r ∈ rows.all ∧ ∃ range ∈ ranges, range.first ≤ r.row.id.key ∧
      (r.row.id.key ≤ range.last ∨ range.last <+: r.row.id.key)) ∧
    visited.Nodup ∧
    visited.Pairwise StoredRow.Precedes ∧
    windows.Pairwise (fun w v ↦
      w.lower ≤ v.lower ∧ ∀ key, ¬ (w.holds key = true ∧ v.holds key = true)) ∧
    (∀ w ∈ windows, ∀ upper ∈ w.upper, upper ≤ w.lower → ∀ key, w.holds key = false) ∧
    ∀ w ∈ windows, rows.between? (interval w).1 (interval w).2 = some (rows.within w) := by
  intro windows visited
  have hvisited : visited = rows.all.filter fun r ↦ ranges.any (·.covers r.row.id.key) :=
    h.withinEach_coalesce ranges
  have hordered : visited.Pairwise StoredRow.Precedes := by
    rw [hvisited]
    exact h.precedes.filter _
  refine ⟨?_, hordered.imp StoredRow.Precedes.ne, hordered, ?_, ?_, ?_⟩
  · intro r
    rw [hvisited, List.mem_filter, List.any_eq_true]
    simp only [KeyRange.covers_iff]
  · exact List.pairwise_and_iff.mpr ⟨KeyRange.pairwise_lower_coalesce ranges,
      (KeyRange.pairwise_before_coalesce ranges).imp fun hw ↦ hw.below.disjoint⟩
  · intro w _ upper hupper hinverted key
    exact Window.holds_of_inverted hupper hinverted key
  · intro w _
    exact rows.between?_interval w

private def keyedRow (key : Bytes) : StoredRow Unit :=
  let row : RowId := ⟨key, [0x64], [0x61], 0⟩
  ⟨⟨row, row.bytes⟩, ⟨0, ⟨[⟨row, row.bytes⟩], []⟩, ()⟩⟩

private def keyedRows : List Bytes → RowSet Unit
  | [] => ∅
  | key :: keys => (keyedRows keys).insert (keyedRow key).place (keyedRow key)

private theorem placed_keyedRows (keys : List Bytes) : (keyedRows keys).Placed := by
  induction keys with
  | nil => exact placed_empty
  | cons key keys ih => exact ih.insert (keyedRow key)

-- A range that ends before it begins, one inside another one, one that comes twice, and one without
-- an upper bound.
private def mixedRanges : List KeyRange :=
  [⟨[0xFF], [0xFF]⟩, ⟨[0x03], [0x02]⟩, ⟨[0x01, 0xFF], [0x01, 0xFF]⟩, ⟨[0x01], [0x01]⟩,
    ⟨[0x01], [0x01]⟩]

/-- Of seven rows, the four that are in one of the ranges are visited. -/
theorem windows_visit_rows_once_mixed :
    let rows := keyedRows
      [[0xFF, 0xFF], [0x03], [0x01, 0xFF, 0x05], [], [0x02], [0x01], [0x01, 0xFF]]
    let windows := KeyRange.coalesce mixedRanges
    rows.Placed ∧
      (rows.withinEach windows).map (·.row.id.key) =
        [[0x01], [0x01, 0xFF], [0x01, 0xFF, 0x05], [0xFF, 0xFF]] ∧
      windows = [⟨[0x01], some [0x02]⟩, ⟨[0x03], some [0x03]⟩, ⟨[0xFF], none⟩] ∧
      (rows.withinEach windows).Nodup ∧
      ∀ w ∈ windows, rows.between? (interval w).1 (interval w).2 = some (rows.within w) := by
  intro rows windows
  have hplaced : rows.Placed := placed_keyedRows _
  have hwindows : KeyRange.coalesce mixedRanges =
      [⟨[0x01], some [0x02]⟩, ⟨[0x03], some [0x03]⟩, ⟨[0xFF], none⟩] := by
    rw [KeyRange.coalesce_of_perm (List.reverse_perm _).symm (by decide +kernel)
      (by decide +kernel)]
    decide +kernel
  obtain ⟨-, hnodup, -, -, -, hasked⟩ := windows_visit_rows_once hplaced mixedRanges
  refine ⟨hplaced, ?_, hwindows, hnodup, hasked⟩
  rw [hplaced.withinEach_coalesce]
  decide +kernel

end RowSet

end RowVault
