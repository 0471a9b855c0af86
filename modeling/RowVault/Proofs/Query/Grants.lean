import RowVault.Proofs.Query.Stateless
import RowVault.Proofs.Store.Deliveries
import RowVault.Proofs.Store.Lookups
import RowVault.Proofs.Visibility.Terms
import RowVault.Scripted.Delivery

/-!
# Callers with more labels

Labels only ever admit. A caller who is given more of them still sees every row, and what the caller
yielded before is what is yielded now, less the rows that have become visible. With filters that
remember what they have been shown, or with a limit, this would fail: rows that have become visible
could change the answers of the filters, or take the places of others.
-/

namespace RowVault

variable {T : Type} {A B : Labels}

namespace StoredRow

/-- A row that is visible stays so. -/
theorem isVisible_mono (h : ∀ l ∈ A, l ∈ B) {r : StoredRow T} (hr : r.isVisible A = true) :
    r.isVisible B = true := by
  rw [isVisible, List.all_eq_true] at hr ⊢
  exact fun formula hf ↦ Visibility.permits_mono h (hr formula hf)

/-- The rows that fewer labels show are those among the rows shown now. -/
theorem filter_visible (h : ∀ l ∈ A, l ∈ B) (p : StoredRow T → Bool) (rows : List (StoredRow T)) :
    rows.filter (fun r ↦ r.isVisible A && p r) =
      (rows.filter fun r ↦ r.isVisible B && p r).filter (·.isVisible A) := by
  rw [List.filter_filter]
  apply List.filter_congr
  intro r _
  cases hA : r.isVisible A with
  | false => rfl
  | true =>
    rw [isVisible_mono h hA]
    rfl

end StoredRow

namespace Store

/-- What a query with stateless filters lists for fewer labels is what it lists now, less the rows
that they hide. -/
theorem listing_of_grant (s : Store T) (h : ∀ l ∈ A, l ∈ B) {q : Query} {o : QueryOptions}
    (hf : q.Stateless o) :
    s.listing q { o with labels := A } =
      (s.listing q { o with labels := B }).filter (·.row.isVisible A) := by
  have hstateless (labels : Labels) : q.Stateless { o with labels } := ⟨hf.client, hf.own⟩
  rw [listing_eq_flatMap s (hstateless A), listing_eq_flatMap s (hstateless B),
    List.filter_flatMap]
  congr 1
  funext i
  rw [List.filter_map, StoredRow.filter_visible h]
  rfl

/-- The entries of a beginning of row ids for fewer labels are among those found now. -/
theorem sublist_entriesBeginning (s : Store T) (h : ∀ l ∈ A, l ∈ B) (index start : Bytes) :
    (s.entriesBeginning index start A).value.Sublist
      (s.entriesBeginning index start B).value := by
  rw [value_entriesBeginning, value_entriesBeginning, cut, cut]
  apply List.Sublist.map
  have hshows (labels : Labels) : StoredRow.shows labels (start.isPrefixOf ·.row.raw) =
      fun r : StoredRow T ↦ r.isVisible labels && start.isPrefixOf r.row.raw :=
    funext fun r ↦ Bool.and_comm _ _
  rw [hshows A, hshows B, StoredRow.filter_visible h]
  exact List.filter_sublist

/-- An entry that is found by a row id is still found. -/
theorem getByRowId_of_grant (s : Store T) (h : ∀ l ∈ A, l ∈ B) {index raw : Bytes} {entry : T}
    (hA : (s.getByRowId index raw A).value = some entry) :
    (s.getByRowId index raw B).value = some entry := by
  rw [value_getByRowId, Option.map_eq_some_iff] at hA ⊢
  obtain ⟨r, hr, hentry⟩ := hA
  rw [Option.filter_eq_some_iff, StoredRow.shows, Bool.and_eq_true] at hr
  obtain ⟨hr, hraw, hvisible⟩ := hr
  refine ⟨r, Option.filter_eq_some_iff.mpr ⟨hr, ?_⟩, hentry⟩
  rw [StoredRow.shows, Bool.and_eq_true]
  exact ⟨hraw, r.isVisible_mono h hvisible⟩

/-- Granting labels never hides data. A decision depends on nothing but which terms of the formula
are held, and a formula that holds, as a tree or as bytes, still does for a larger label set. So in
every store, what a scan of row ids of a beginning or a query with stateless filters and without a
limit yields for fewer labels is among what it yields for more, in the same order, and an entry that
is found by a row id is found again. -/
theorem granted_labels_hide_nothing (s : Store T) :
    (∀ (formula : Bytes) (A B : Labels),
      (∀ f, Visibility.Formula.parse formula = .ok f → ∀ l ∈ f.terms, (l ∈ A ↔ l ∈ B)) →
      Visibility.permits formula A = Visibility.permits formula B) ∧
    ∀ A B : Labels, (∀ l ∈ A, l ∈ B) →
      (∀ f : Visibility.Formula, f.holds A = true → f.holds B = true) ∧
      (∀ formula, Visibility.permits formula A = true → Visibility.permits formula B = true) ∧
      (∀ index start, (s.entriesBeginning index start A).value.Sublist
        (s.entriesBeginning index start B).value) ∧
      (∀ (q : Query) (o : QueryOptions), q.Stateless o →
        o.effectiveLimit s.config.defaultLimit = none →
        (s.query q { o with labels := A }).value.Sublist
          (s.query q { o with labels := B }).value) ∧
      (∀ index raw entry, (s.getByRowId index raw A).value = some entry →
        (s.getByRowId index raw B).value = some entry) := by
  refine ⟨fun _ _ _ ↦ Visibility.permits_congr, ?_⟩
  intro A B h
  refine ⟨fun _ ↦ Visibility.Formula.holds_mono h, fun _ ↦ Visibility.permits_mono h,
    s.sublist_entriesBeginning h, ?_, fun _ _ _ ↦ s.getByRowId_of_grant h⟩
  intro q o hf hlimit
  have hunlimited (labels : Labels) :
      ({ o with labels } : QueryOptions).effectiveLimit s.config.defaultLimit = none := hlimit
  rw [value_query_of_unlimited (hunlimited A), value_query_of_unlimited (hunlimited B),
    s.listing_of_grant h hf]
  exact List.filter_sublist

private theorem stateless_everything : Query.everything.Stateless {} where
  client _ hf := nomatch hf
  own _ _ hf := nomatch hf

private def guarded : Store Scripted.Entry :=
  let entry (data : UInt8) (formula : Bytes) : Scripted.Entry :=
    { Scripted.Entry.ofBytes [data] [data] with visibility := formula }
  let entries := [entry 1 [0x78], entry 2 [0x79], entry 3 [0x78, 0x26, 0x79], entry 4 []]
  (fresh {} {}).after
    [{ Delivery.ofBytes entries with visibility := Scripted.visibilityOfEntry }.call]

/-- The second label shows two more entries, between those that the first one shows. -/
theorem granted_labels_hide_nothing_guarded :
    let few : Labels := .ofList ([[0x78]] : List Bytes)
    let more : Labels := .ofList ([[0x78], [0x79]] : List Bytes)
    let scan (labels : Labels) := (guarded.entriesBeginning Index.ofBytes.id [] labels).value
    let yielded (labels : Labels) := (guarded.query .everything { labels }).value
    let found (labels : Labels) := (guarded.getByRowId Index.ofBytes.id
      [1, 1, 0x61, 0, 0, 0, 1, 0, 0, 0, 1, 0, 0, 0, 0] labels).value
    (yielded few).map (·.row.filing.entry.id) = [[1], [4]] ∧
      (yielded more).map (·.row.filing.entry.id) = [[1], [2], [3], [4]] ∧
      (scan few).Sublist (scan more) ∧ (yielded few).Sublist (yielded more) ∧
      (found few).map (·.id) = some [1] ∧ found more = found few := by
  intro few more scan yielded found
  have hgrant : ∀ l ∈ few, l ∈ more := by
    intro l hl
    rw [Std.ExtTreeSet.mem_ofList, List.contains_iff_mem] at hl ⊢
    exact List.mem_cons.mpr (.inl (List.mem_singleton.mp hl))
  obtain ⟨-, -, hscan, hquery, hfound⟩ := (granted_labels_hide_nothing guarded).2 few more hgrant
  obtain ⟨e, he⟩ : ∃ e, found few = some e := Option.isSome_iff_exists.mp (by decide +kernel)
  refine ⟨by decide +kernel, by decide +kernel, hscan _ _, hquery _ {} stateless_everything rfl,
    by decide +kernel, ?_⟩
  rw [he]
  exact hfound _ _ _ he

end Store

end RowVault
