import RowVault.Proofs.Query.Listing
import RowVault.Proofs.Store.Filings
import RowVault.Proofs.Store.Victims

/-!
# What deletions remove

A deletion by query removes from each index the rows of all filings of which the query yields a row,
and counts each of these filings once. A deletion of an entry removes the visible rows of the entry.
Neither touches anything else but the ledger.
-/

namespace RowVault.Store

variable {T : Type}

/-- Stores that agree in everything but rows and statistics. -/
structure SameFrame (s t : Store T) : Prop where
  config : t.config = s.config
  adapters : t.adapters = s.adapters
  indices : t.indices = s.indices
  filed : t.filed = s.filed

/-! ## Deletion by query -/

/-- The store with other rows, when the statistics of an adapter have taken entries back. -/
def settle (s : Store T) (adapter : Bytes) (infos : List EntryInfo)
    (rows : Std.ExtTreeMap Bytes (RowSet T)) : Store T :=
  let opened := (Tally.openOn s.ledger adapter (s.kindsOf adapter)).value
  { s with rows, ledger := ((infos.foldl Tally.deleted opened.2).close opened.1).value }

/-- The victims of an adapter are removed and taken back in one tally, before those of the adapters
after it. -/
theorem value_removeDoomed_cons (s : Store T) (entries : Nat) (adapter : Bytes)
    (victims : List (Victim T)) (rest : List (Bytes × List (Victim T)))
    (hs : ∀ v ∈ victims, v.Stands s.rows) (hd : victims.Pairwise fun v w ↦ v.same w = false) :
    ∃ rows,
      (s.removeDoomed entries ((adapter, victims) :: rest)).value =
        ((s.settle adapter (victims.map (·.filing.info)) rows).removeDoomed
          (entries + victims.length) rest).value ∧
      ∀ index, rowsAt rows index =
        (s.rowsOf index).only fun r ↦ !victims.any (·.owns index r) := by
  obtain ⟨rows, hv, hrows⟩ := Deletion.value_removeEach
    ⟨s.rows, (Tally.openOn s.ledger adapter (s.kindsOf adapter)).value.2, entries⟩ victims hs hd
  refine ⟨rows, ?_, hrows⟩
  rw [removeDoomed]
  simp only [Traced.value_bind, hv, settle, List.foldl_map]

/-- Different victims that have rows are removed, whichever adapters they come from. -/
theorem value_removeDoomed (s : Store T) (entries : Nat) (groups : List (Bytes × List (Victim T)))
    (hs : ∀ v ∈ Doomed.victims groups, v.Stands s.rows)
    (hd : (Doomed.victims groups).Pairwise fun v w ↦ v.same w = false) :
    ∃ rows ledger,
      (s.removeDoomed entries groups).value =
        ⟨entries + (Doomed.victims groups).length, { s with rows, ledger }⟩ ∧
      ∀ index, rowsAt rows index =
        (s.rowsOf index).only fun r ↦ !(Doomed.victims groups).any (·.owns index r) := by
  induction groups generalizing s entries with
  | nil =>
    refine ⟨s.rows, s.ledger, rfl, ?_⟩
    intro index
    exact (RowSet.only_eq_self fun _ _ _ ↦ rfl).symm
  | cons group rest ih =>
    obtain ⟨adapter, victims⟩ := group
    simp only [Doomed.victims, List.flatMap_cons, List.mem_append] at hs
    rw [Doomed.victims, List.flatMap_cons, List.pairwise_append] at hd
    obtain ⟨hvictims, hrest, hcross⟩ := hd
    obtain ⟨rows, hv, hrows⟩ := s.value_removeDoomed_cons entries adapter victims rest
      (fun v h ↦ hs v (.inl h)) hvictims
    have hstands : ∀ w ∈ Doomed.victims rest, w.Stands rows := by
      intro w hw
      exact (hs w (.inr hw)).of_forall_same_eq_false (fun v hv ↦ hcross v hv w hw) hrows
    obtain ⟨after, ledger, hafter, hat⟩ :=
      ih (s.settle adapter (victims.map (·.filing.info)) rows) (entries + victims.length) hstands
        hrest
    refine ⟨after, ledger, ?_, ?_⟩
    · rw [hv, hafter, Doomed.victims, Doomed.victims, List.flatMap_cons, List.length_append,
        Nat.add_assoc]
      rfl
    · intro index
      have hat := hat index
      change rowsAt after index = (rowsAt rows index).only _ at hat
      rw [hat, hrows, RowSet.only_only]
      congr 1
      funext r
      rw [Doomed.victims, Doomed.victims, List.flatMap_cons, List.any_append, Bool.not_or]

/-- A hit of a query stands, where entries are stored whole. -/
theorem stands_of_mem_query {s : Store T} (hwf : ∀ index, (s.rowsOf index).WF) {q : Query}
    {o : QueryOptions} {take : Option Nat} {h : Hit T} (hm : h ∈ (s.query q o take).value) :
    h.victim.Stands s.rows := by
  obtain ⟨i, -, hi, hr, -⟩ := of_mem_query hm
  obtain ⟨place, hr⟩ := RowSet.mem_all_iff.mp hr
  have hr' : (rowsAt s.rows h.index)[place]? = some h.row := by
    rw [hi]
    exact hr
  constructor
  · have hlists : (rowsAt s.rows h.index).Lists h.row.filing := (hwf h.index).lists hr'
    exact hlists
  · exact ⟨place, h.row, hr', rfl⟩

/-- A deletion by query removes the filings of the hits with all their rows, and counts them. -/
theorem value_delete (s : Store T) (hwf : ∀ index, (s.rowsOf index).WF) (q : Query)
    (o : QueryOptions) :
    ∃ rows ledger,
      (s.delete q o).value =
        ⟨(Doomed.noted (s.query q o).value).1.length, { s with rows, ledger }⟩ ∧
      ∀ index, rowsAt rows index =
        (s.rowsOf index).only fun r ↦ !(s.query q o).value.any (·.victim.owns index r) := by
  have hs : ∀ v ∈ Doomed.victims (Doomed.ofHits (s.query q o).value), v.Stands s.rows := by
    intro v hv
    obtain ⟨group, hg, hv⟩ := List.mem_flatMap.mp hv
    obtain ⟨h, hh, rfl, -⟩ := Doomed.of_mem_ofHits hg hv
    exact stands_of_mem_query hwf hh
  obtain ⟨rows, ledger, hv, hrows⟩ :=
    s.value_removeDoomed 0 (Doomed.ofHits (s.query q o).value) hs (Doomed.distinct_ofHits _)
  refine ⟨rows, ledger, ?_, ?_⟩
  · rw [delete, Traced.value_bind, hv, Doomed.length_victims_ofHits, Nat.zero_add]
  · intro index
    rw [hrows]
    congr 1
    funext r
    rw [Doomed.any_owns_ofHits]

/-- The rows that a deletion by query leaves. -/
theorem rowsOf_delete (s : Store T) (hwf : ∀ index, (s.rowsOf index).WF) (q : Query)
    (o : QueryOptions) (index : Bytes) :
    (s.delete q o).value.store.rowsOf index =
      (s.rowsOf index).only fun r ↦ !(s.query q o).value.any (·.victim.owns index r) := by
  obtain ⟨rows, ledger, hv, hrows⟩ := s.value_delete hwf q o
  rw [hv]
  exact hrows index

/-- A deletion by query touches rows and statistics only. -/
theorem sameFrame_delete (s : Store T) (hwf : ∀ index, (s.rowsOf index).WF) (q : Query)
    (o : QueryOptions) : s.SameFrame (s.delete q o).value.store := by
  obtain ⟨rows, ledger, hv, -⟩ := s.value_delete hwf q o
  rw [hv]
  exact ⟨rfl, rfl, rfl, rfl⟩

/-! ## Deletion of an entry -/

/-- Whether a row is a visible one of an entry. -/
def exposes (data adapter : Bytes) (labels : Labels) : StoredRow T → Bool :=
  StoredRow.shows labels (·.belongsTo data adapter)

/-- The rows that are looked for are the visible ones of the entry. -/
theorem value_visibleRowsOf (data adapter : Bytes) (labels : Labels) (rows : List (StoredRow T)) :
    (visibleRowsOf data adapter labels rows).value = rows.filter (exposes data adapter labels) := by
  induction rows with
  | nil => rfl
  | cons r rest ih =>
    rw [visibleRowsOf]
    cases hb : r.belongsTo data adapter with
    | false =>
      rw [if_neg (by simp), ih, List.filter_cons_of_neg (by simp [exposes, StoredRow.shows, hb])]
    | true =>
      rw [if_pos rfl]
      simp only [Traced.value_bind, StoredRow.decideVisible, Traced.value_pure, ih]
      cases hv : r.isVisible labels with
      | false =>
        rw [List.filter_cons_of_neg (by simp [exposes, StoredRow.shows, hv])]
        rfl
      | true =>
        rw [List.filter_cons_of_pos (by simp [exposes, StoredRow.shows, hb, hv])]
        rfl

/-- The places are emptied, and all others stay as they are. -/
theorem getElem?_erasePlaces (rows : RowSet T) (filings : List (Filing T)) (places : List RowKey)
    (place : RowKey) :
    (erasePlaces rows filings places).1[place]? =
      if place ∈ places then none else rows[place]? := by
  induction places generalizing rows filings with
  | nil => simp [erasePlaces]
  | cons p rest ih =>
    rw [erasePlaces]
    cases hp : rows[p]? with
    | none =>
      dsimp only
      rw [ih]
      by_cases h : place = p
      · simp [h, hp]
      · simp [h]
    | some stored =>
      dsimp only
      rw [ih, Std.ExtTreeMap.getElem?_erase]
      by_cases h : place = p
      · simp [h]
      · simp [h, Ne.symm h]

/-- Something is removed from the places of stored rows. -/
theorem erasePlaces_pos {rows : RowSet T} {filings : List (Filing T)} {p : RowKey}
    {places : List RowKey} {r : StoredRow T} (hr : rows[p]? = some r) :
    0 < (erasePlaces rows filings (p :: places)).2.2 := by
  rw [erasePlaces, hr]
  exact Nat.succ_pos _

/-- The rows without the visible ones of an entry. -/
theorem erasePlaces_eq {rows : RowSet T} (hwf : rows.WF) (filings : List (Filing T))
    (p : StoredRow T → Bool) :
    (erasePlaces rows filings ((rows.all.filter p).map (·.place))).1 =
      rows.only fun r ↦ !p r := by
  apply Std.ExtTreeMap.ext_getElem?
  intro place
  rw [getElem?_erasePlaces, RowSet.getElem?_only]
  have hmem : place ∈ (rows.all.filter p).map (·.place) ↔
      ∃ r, rows[place]? = some r ∧ p r = true := by
    simp only [List.mem_map, List.mem_filter, RowSet.mem_all_iff]
    constructor
    · rintro ⟨r, ⟨⟨other, hr⟩, hp⟩, rfl⟩
      exact ⟨r, by rw [hwf.place_eq hr]; exact hr, hp⟩
    · rintro ⟨r, hr, hp⟩
      exact ⟨r, ⟨⟨place, hr⟩, hp⟩, hwf.place_eq hr⟩
  cases hr : rows[place]? with
  | none => simp
  | some r => cases hp : p r <;> simp [hmem, hr, hp, Option.filter_some]

/-- Rows are removed from one index only. -/
theorem rowsAt_insert_only (s : Store T) (index : Bytes) (p : StoredRow T → Bool) (i : Bytes) :
    rowsAt (s.rows.insert index ((s.rowsOf index).only fun r ↦ !p r)) i =
      (s.rowsOf i).only fun r ↦ !(index == i && p r) := by
  rw [rowsAt_insert]
  by_cases hi : index = i
  · subst hi
    simp
  · rw [if_neg hi, RowSet.only_eq_self]
    · rfl
    · intro place r hr
      simp [hi]

/-- Without a visible row of the entry, nothing happens. -/
theorem value_deleteEntry_of_none {s : Store T} {index data adapter : Bytes} {labels : Labels}
    (h : (s.rowsOf index).all.any (exposes data adapter labels) = false) :
    (s.deleteEntry index data adapter labels).value = (false, s) := by
  have hrows := value_visibleRowsOf data adapter labels (s.rowsOf index).all
  have hnil : (s.rowsOf index).all.filter (exposes data adapter labels) = [] :=
    List.filter_eq_nil_iff.mpr (List.any_eq_false.mp h)
  rw [deleteEntry]
  simp only [Traced.value_bind, hrows]
  rw [if_pos (List.isEmpty_iff.mpr hnil)]
  rfl

/-- The visible rows of the entry are removed, and their filings are taken back in one tally. -/
theorem value_deleteEntry_of_any {s : Store T} {index data adapter : Bytes} {labels : Labels}
    (hwf : (s.rowsOf index).WF)
    (h : (s.rowsOf index).all.any (exposes data adapter labels) = true) :
    (s.deleteEntry index data adapter labels).value =
      (true, s.settle adapter
        ((erasePlaces (s.rowsOf index) [] (((s.rowsOf index).all.filter
          (exposes data adapter labels)).map (·.place))).2.1.map (·.info))
        (s.rows.insert index ((s.rowsOf index).only fun r ↦ !exposes data adapter labels r))) := by
  have hrows := value_visibleRowsOf data adapter labels (s.rowsOf index).all
  have hcons : (s.rowsOf index).all.filter (exposes data adapter labels) ≠ [] := by
    intro hnil
    rw [List.any_eq_false.mpr (List.filter_eq_nil_iff.mp hnil)] at h
    cases h
  have hpos : 0 < (erasePlaces (s.rowsOf index) [] (((s.rowsOf index).all.filter
      (exposes data adapter labels)).map (·.place))).2.2 := by
    cases hd : (s.rowsOf index).all.filter (exposes data adapter labels) with
    | nil => exact absurd hd hcons
    | cons r rest =>
      have hr : r ∈ (s.rowsOf index).all.filter (exposes data adapter labels) := by
        rw [hd]
        exact List.mem_cons_self
      obtain ⟨place, hplace⟩ := RowSet.mem_all_iff.mp (List.mem_filter.mp hr).1
      rw [List.map_cons]
      apply erasePlaces_pos (r := r)
      rw [hwf.place_eq hplace]
      exact hplace
  rw [deleteEntry]
  simp only [Traced.value_bind, hrows]
  rw [if_neg (by simpa using hcons)]
  simp only [Traced.value_bind, Traced.value_pure, hpos, decide_true, erasePlaces_eq hwf, settle,
    List.foldl_map]

/-- A deletion of an entry tells whether it has visible rows, and removes them. -/
theorem value_deleteEntry (s : Store T) {index : Bytes} (hwf : (s.rowsOf index).WF)
    (data adapter : Bytes) (labels : Labels) :
    ∃ rows ledger,
      (s.deleteEntry index data adapter labels).value =
        ((s.rowsOf index).all.any (exposes data adapter labels), { s with rows, ledger }) ∧
      ∀ i, rowsAt rows i = (s.rowsOf i).only fun r ↦
        !(index == i && exposes data adapter labels r) := by
  cases h : (s.rowsOf index).all.any (exposes data adapter labels) with
  | false =>
    refine ⟨s.rows, s.ledger, value_deleteEntry_of_none h, ?_⟩
    intro i
    refine (RowSet.only_eq_self ?_).symm
    intro place r hr
    by_cases hi : index = i
    · subst hi
      have hn := List.any_eq_false.mp h r (RowSet.mem_all_iff.mpr ⟨place, hr⟩)
      rw [beq_self_eq_true, Bool.true_and, Bool.eq_false_iff.mpr hn]
      rfl
    · simp [hi]
  | true => exact ⟨_, _, value_deleteEntry_of_any hwf h, rowsAt_insert_only s index _⟩

/-- The rows that a deletion of an entry leaves. -/
theorem rowsOf_deleteEntry (s : Store T) {index : Bytes} (hwf : (s.rowsOf index).WF)
    (data adapter : Bytes) (labels : Labels) (i : Bytes) :
    (s.deleteEntry index data adapter labels).value.2.rowsOf i =
      (s.rowsOf i).only fun r ↦ !(index == i && exposes data adapter labels r) := by
  obtain ⟨rows, ledger, hv, hrows⟩ := s.value_deleteEntry hwf data adapter labels
  rw [hv]
  exact hrows i

/-- A deletion of an entry touches rows and statistics only. -/
theorem sameFrame_deleteEntry (s : Store T) {index : Bytes} (hwf : (s.rowsOf index).WF)
    (data adapter : Bytes) (labels : Labels) :
    s.SameFrame (s.deleteEntry index data adapter labels).value.2 := by
  obtain ⟨rows, ledger, hv, -⟩ := s.value_deleteEntry hwf data adapter labels
  rw [hv]
  exact ⟨rfl, rfl, rfl, rfl⟩

end RowVault.Store
