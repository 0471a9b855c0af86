import RowVault.Proofs.Query.Effort
import RowVault.Proofs.Query.Stateless
import RowVault.Scripted.Entry
import RowVault.Scripted.Query

/-!
# Scanning ranges and scanning everything

Where the ranges that a strategy gives for a query cover the rows that the filters of the query
accept, a scan that is narrowed to the ranges yields what a scan of all rows yields, whatever the
ranges look like and however often they name a key, and it does not meet more rows.
-/

namespace RowVault

variable {T : Type}

/-- How many rows the sink is told of in some indices. -/
def Traced.examinedIn {α : Type} (x : Traced α) (among : Bytes → Bool) : Nat :=
  (x.examined.filter fun told ↦ among told.1).foldr (fun told n ↦ told.2 + n) 0

namespace Store

/-- The store with ranges scanned, or not. -/
def withRangeScan (s : Store T) (on : Bool) : Store T :=
  { s with config := { s.config with rangeScan := on } }

/-- The strategy of an index gives no ranges for the constraints of a query, or each stored row that
the filters of the query accept has its key in one of them: between the ends of the range, or
beginning with the last one. -/
def Covers (s : Store T) (q : Query) (index : Index) : Prop :=
  ∀ constraints, q.constraints index.strategy = some constraints →
    let ranges := index.strategy.queryRanges constraints s.config.maxQueryRanges
    ranges = [] ∨ ∀ r ∈ (s.rowsOf index.id).all,
      (∀ f ∈ q.filters index.model, f.accepts (r.decoded index.model) = true) →
        ∃ range ∈ ranges, range.first ≤ r.row.id.key ∧
          (r.row.id.key ≤ range.last ∨ range.last <+: r.row.id.key)

section

variable {s : Store T} {q : Query} {o : QueryOptions}

/-- Without ranges, all rows are scanned. -/
theorem rowsFor_withRangeScan_false (h : s.WF) (q : Query) (index : Index) :
    (s.withRangeScan false).rowsFor q index = (s.rowsOf index.id).all := by
  rw [rowsFor_eq (s := s.withRangeScan false) (h.rows index.id)]
  exact List.filter_eq_self.mpr fun _ _ ↦ rfl

/-- A row that the filters of a query accept is in the ranges, if these cover such rows. -/
theorem Covers.wanted {index : Index} (h : s.Covers q index) {r : StoredRow T}
    (hr : r ∈ (s.rowsOf index.id).all)
    (hq : (q.filters index.model).all (·.accepts (r.decoded index.model)) = true) :
    KeyRange.wanted (q.rangesOn (s.withRangeScan true).config index) r.row.id.key = true := by
  have hon : (s.withRangeScan true).config.rangeScan = true := rfl
  rw [Query.rangesOn, hon, if_pos rfl]
  cases hc : q.constraints index.strategy with
  | none => rfl
  | some constraints =>
    dsimp only
    rw [KeyRange.wanted, Bool.or_eq_true]
    rcases h constraints hc with hnone | hcovers
    · exact .inl (List.isEmpty_iff.mpr hnone)
    · obtain ⟨range, hmem, hfirst, hlast⟩ := hcovers r hr (List.all_eq_true.mp hq)
      exact .inr (List.any_eq_true.mpr ⟨range, hmem, KeyRange.covers_iff.mpr ⟨hfirst, hlast⟩⟩)

/-- Ranges that cover the rows that a query accepts leave its listing as it is. -/
theorem listing_withRangeScan (h : s.WF) (hf : q.Stateless o)
    (hc : ∀ i ∈ s.named o.index, q.supports i = true → s.Covers q i) :
    (s.withRangeScan true).listing q o = (s.withRangeScan false).listing q o := by
  rw [listing_eq_flatMap _ hf, listing_eq_flatMap _ hf, targeted_eq, targeted_eq,
    List.flatMap_def, List.flatMap_def]
  congr 1
  apply List.map_congr_left
  intro i hi
  obtain ⟨hi, hq⟩ := List.mem_filter.mp hi
  congr 1
  rw [rowsFor_withRangeScan_false h, rowsFor_eq (s := s.withRangeScan true) (h.rows i.id),
    List.filter_filter]
  apply List.filter_congr
  intro r hr
  -- A row outside the ranges is not one that the filters of the query accept.
  cases hp : q.passes o i r with
  | false => rw [Bool.and_false, Bool.false_and]
  | true => rw [(hc i hi hq).wanted hr (Bool.and_eq_true_iff.mp hp).2, Bool.and_true]

/-- A scan of ranges meets no more rows than a scan of everything. -/
theorem length_ahead_withRangeScan_le (h : s.WF) (q : Query) (index : Index) :
    (IndexScan.start (s.withRangeScan true) q index).ahead.length ≤
      (IndexScan.start (s.withRangeScan false) q index).ahead.length := by
  rw [IndexScan.start, IndexScan.start]
  split
  · dsimp only
    rw [rowsFor_withRangeScan_false h, rowsFor_eq (s := s.withRangeScan true) (h.rows index.id)]
    exact List.length_filter_le _ _
  · exact Nat.le_refl _

private theorem sum_examined_le (among : Bytes → Bool) {f g : Index → Nat} (hle : ∀ i, f i ≤ g i)
    (indices : List Index) :
    ((indices.map fun i ↦ (i.id, f i)).filter fun told ↦ among told.1).foldr
        (fun told n ↦ told.2 + n) 0 ≤
      ((indices.map fun i ↦ (i.id, g i)).filter fun told ↦ among told.1).foldr
        (fun told n ↦ told.2 + n) 0 := by
  induction indices with
  | nil => exact Nat.le_refl _
  | cons i rest ih =>
    cases ha : among i.id with
    | false => simpa [ha] using ih
    | true => simpa [ha] using Nat.add_le_add (hle i) ih

/-- In every reachable store, where ranges cover the rows that the filters of a query accept and no
filter remembers anything, scanning ranges and scanning everything yield the same rows in the same
order, up to any limit; and without a limit, the scan of ranges examines no more rows, in any of the
indices. -/
theorem range_scan_agrees {s : Store T} (h : s.Reachable) {q : Query} {o : QueryOptions}
    (hf : q.Stateless o) (hc : ∀ i ∈ s.named o.index, q.supports i = true → s.Covers q i) :
    (∀ take, ((s.withRangeScan true).query q o take).value =
        ((s.withRangeScan false).query q o take).value) ∧
      (o.effectiveLimit s.config.defaultLimit = none →
        ∀ among, ((s.withRangeScan true).query q o).examinedIn among ≤
          ((s.withRangeScan false).query q o).examinedIn among) := by
  constructor
  · intro take
    rw [Store.value_query, Store.value_query, listing_withRangeScan h.wf hf hc]
    rfl
  · intro hlimit among
    rw [Traced.examinedIn, Traced.examinedIn, examined_query (s := s.withRangeScan true) hlimit,
      examined_query (s := s.withRangeScan false) hlimit, targeted_eq, targeted_eq]
    exact sum_examined_le among (length_ahead_withRangeScan_le h.wf q) (s.named o.index)

end

private def rangedKeys : List Bytes :=
  [[0x01], [0x01, 0xFF], [0x01, 0xFF, 0x05], [0x02], [0x03], [0xFF, 0xFF]]

-- A range that ends before it begins, one inside another one, one that comes twice, and one without
-- an upper bound.
private def rangedRanges : List KeyRange :=
  [⟨[0x03], [0x02]⟩, ⟨[0x01, 0xFF], [0x01, 0xFF]⟩, ⟨[0x01], [0x01]⟩, ⟨[0x01], [0x01]⟩,
    ⟨[0xFF], [0xFF]⟩]

private def rangedIndex : Index :=
  ⟨⟨[0x73], fun _ ↦ rangedKeys, fun _ _ ↦ rangedRanges⟩, ⟨[0x6D], []⟩⟩

private def rangedCall : Call Scripted.Entry :=
  .ingest (Scripted.AdapterPlan.adapter { id := [0x61] }) rangedIndex .unconstrained
    [{ id := [0x64] }] fun _ ↦ none

private def rangedQuery : Query :=
  Scripted.query none [(Scripted.Condition.keyStart [0x01]).filter] (some [])

/-- Four of the six rows are in a range; the scan of ranges yields the three of them that a scan of
everything yields. -/
theorem range_scan_agrees_overlapping :
    let s := (fresh {} {} : Store Scripted.Entry).after [rangedCall]
    let ranged := (s.withRangeScan true).query rangedQuery {}
    let full := (s.withRangeScan false).query rangedQuery {}
    ranged.value = full.value ∧
      full.value.map (·.row.row.id.key) = [[0x01], [0x01, 0xFF], [0x01, 0xFF, 0x05]] ∧
      ranged.examinedIn (fun _ ↦ true) ≤ full.examinedIn (fun _ ↦ true) ∧
      full.examinedIn (fun _ ↦ true) = 6 := by
  intro s ranged full
  have hreachable : s.Reachable := ⟨{}, {}, _, rfl⟩
  have hstateless : rangedQuery.Stateless {} := by
    constructor
    · intro f hf
      cases hf
    · intro model f hf
      rw [List.mem_singleton.mp hf]
      exact Filter.stateless_host (fun _ _ ↦ rfl) []
  have hindices : s.indices = (∅ : Indices).insertIfNew rangedIndex.id rangedIndex :=
    (indices_ingest ..).trans (indices_register ..)
  have hrows : ∀ r ∈ (s.rowsOf rangedIndex.id).all,
      (∀ f ∈ rangedQuery.filters rangedIndex.model,
        f.accepts (r.decoded rangedIndex.model) = true) →
        ∃ range ∈ rangedRanges, range.first ≤ r.row.id.key ∧
          (r.row.id.key ≤ range.last ∨ range.last <+: r.row.id.key) := by
    decide +kernel
  have hcovers : ∀ i ∈ s.named none, rangedQuery.supports i = true → s.Covers rangedQuery i := by
    intro i hi _ constraints _
    obtain ⟨⟨id, i⟩, hmem, rfl⟩ := List.mem_map.mp hi
    rw [hindices, Std.ExtTreeMap.mem_toList_iff_getElem?_eq_some] at hmem
    obtain ⟨-, rfl⟩ : rangedIndex.id = id ∧ rangedIndex = i := by
      simpa [Std.ExtTreeMap.getElem?_insertIfNew] using hmem
    exact .inr hrows
  obtain ⟨hvalue, hexamined⟩ := range_scan_agrees hreachable hstateless hcovers
  exact ⟨hvalue none, by decide +kernel, hexamined rfl fun _ ↦ true, by decide +kernel⟩

end Store

end RowVault
