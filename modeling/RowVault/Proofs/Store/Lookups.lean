import RowVault.Proofs.Store.Deletion
import RowVault.Store.Lookup

/-!
# Lookups as lists

A lookup walks over rows and stops early, but what it finds is the beginning of a list: the rows
that are wanted and visible.
-/

namespace RowVault

variable {T : Type}

namespace StoredRow

/-- The next visible row is the first one of those that are wanted and visible, and the others are
behind it. -/
theorem value_nextVisible (labels : Labels) (wanted : StoredRow T → Bool)
    (rows : List (StoredRow T)) :
    match (nextVisible labels wanted rows).value with
    | none => rows.filter (shows labels wanted) = []
    | some (r, rest) =>
      rows.filter (shows labels wanted) = r :: rest.filter (shows labels wanted) := by
  induction rows with
  | nil => rfl
  | cons r rest ih =>
    rw [nextVisible]
    cases hw : wanted r with
    | false =>
      rw [if_neg (by simp), List.filter_cons_of_neg (by simp [shows, hw])]
      exact ih
    | true =>
      rw [if_pos rfl, Traced.value_bind]
      cases hv : r.isVisible labels with
      | false =>
        rw [List.filter_cons_of_neg (by simp [shows, hv])]
        simp only [decideVisible, Traced.value_bind, Traced.value_pure, hv, Bool.false_eq_true,
          if_false]
        exact ih
      | true =>
        rw [List.filter_cons_of_pos (by simp [shows, hw, hv])]
        simp only [decideVisible, Traced.value_bind, Traced.value_pure, hv, if_true]

/-- The first rows that are wanted and visible. -/
theorem value_takeVisible (labels : Labels) (wanted : StoredRow T → Bool) (n : Nat)
    (rows : List (StoredRow T)) :
    (takeVisible labels wanted n rows).value = (rows.filter (shows labels wanted)).take n := by
  induction n generalizing rows with
  | zero => simp [takeVisible]
  | succ n ih =>
    have hn := value_nextVisible labels wanted rows
    rw [takeVisible, Traced.value_bind]
    cases hv : (nextVisible labels wanted rows).value with
    | none =>
      rw [hv] at hn
      simp [show rows.filter (shows labels wanted) = [] from hn]
    | some found =>
      obtain ⟨r, rest⟩ := found
      rw [hv] at hn
      have hn : rows.filter (shows labels wanted) = r :: rest.filter (shows labels wanted) := hn
      rw [hn, List.take_succ_cons, ← ih rest]
      rfl

end StoredRow

namespace Store

/-- The row of a row id is looked up at its place; it must carry the very row id and be visible. -/
theorem value_getByRowId (s : Store T) (index raw : Bytes) (labels : Labels) :
    (s.getByRowId index raw labels).value =
      (((RowKey.decode? raw).bind fun place ↦ (s.rowsOf index)[place]?).filter
        (StoredRow.shows labels fun r ↦ decide (r.row.raw = raw))).map (·.filing.entry) := by
  rw [getByRowId]
  cases RowKey.decode? raw with
  | none => rfl
  | some place =>
    dsimp only
    rw [Option.bind_some]
    cases (s.rowsOf index)[place]? with
    | none => rfl
    | some r =>
      dsimp only
      by_cases hraw : r.row.raw = raw
      · rw [if_pos hraw, Traced.value_bind]
        cases hv : r.isVisible labels <;>
          simp [StoredRow.decideVisible, StoredRow.shows, Option.filter_some, hraw, hv]
      · simp [StoredRow.shows, Option.filter_some, hraw]

/-- The entry of a data id is that of its first visible row. -/
theorem value_getEntry (s : Store T) (index data adapter : Bytes) (labels : Labels) :
    (s.getEntry index data adapter labels).value =
      ((s.rowsOf index).all.filter (exposes data adapter labels)).head?.map (·.filing.entry) := by
  have hn := StoredRow.value_nextVisible labels (·.belongsTo data adapter) (s.rowsOf index).all
  rw [getEntry, Traced.value_bind]
  cases hv :
    (StoredRow.nextVisible labels (·.belongsTo data adapter) (s.rowsOf index).all).value with
  | none =>
    rw [hv] at hn
    have hn : (s.rowsOf index).all.filter (exposes data adapter labels) = [] := hn
    rw [hn]
    rfl
  | some found =>
    obtain ⟨r, rest⟩ := found
    rw [hv] at hn
    have hn : (s.rowsOf index).all.filter (exposes data adapter labels) =
      r :: rest.filter (exposes data adapter labels) := hn
    rw [hn]
    rfl

/-- The entries of a beginning of row ids are those of the visible rows whose row id begins so. -/
theorem value_entriesBeginning (s : Store T) (index start : Bytes) (labels : Labels)
    (take : Option Nat) :
    (s.entriesBeginning index start labels take).value =
      (cut take ((s.rowsBeginning index start).filter
        (StoredRow.shows labels (start.isPrefixOf ·.row.raw)))).map (·.filing.entry) := by
  rw [entriesBeginning]
  simp only [Traced.value_bind, Traced.value_pure, StoredRow.value_takeVisible]
  cases take with
  | none =>
    rw [List.take_of_length_le]
    · rfl
    · have := List.length_filter_le (StoredRow.shows labels (start.isPrefixOf ·.row.raw))
        (s.rowsBeginning index start)
      simp only [Option.getD_none]
      omega
  | some n => rfl

/-- The rows that a beginning of row ids is looked for in are rows of the index. -/
theorem mem_all_of_mem_rowsBeginning {s : Store T} {index start : Bytes} {r : StoredRow T}
    (h : r ∈ s.rowsBeginning index start) : r ∈ (s.rowsOf index).all := by
  obtain ⟨w, -, hw⟩ := List.mem_flatMap.mp h
  exact RowSet.mem_all_of_mem_between hw

end Store

end RowVault
