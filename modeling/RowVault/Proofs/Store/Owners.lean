import Mathlib.Data.List.Nodup
import RowVault.Proofs.Store.Invariant

/-!
# Entries that own rows

An entry owns rows of an adapter in an index if one of its rows is stored there. Each owner is
listed once for each index. Storing a filing adds it to the owners and takes those away that it
displaces; removing whole filings takes away exactly these.
-/

namespace RowVault

/-- The row names an adapter. -/
def StoredRow.names {T : Type} (adapter : Bytes) (r : StoredRow T) : Bool :=
  r.row.id.adapter == adapter

namespace RowSet

variable {T : Type} {rows : RowSet T} {f g : Filing T} {adapter : Bytes}

/-- Note the filings of rows, each once. -/
def noteEach (noted : List (Filing T)) (found : List (StoredRow T)) : List (Filing T) :=
  found.foldl (fun noted r ↦ noteFiling r.filing noted) noted

/-- The filings that own rows of an adapter, each once. -/
def filings (rows : RowSet T) (adapter : Bytes) : List (Filing T) :=
  noteEach [] (rows.all.filter (·.names adapter))

/-- The contents of the filings that own rows of an adapter. -/
def infos (rows : RowSet T) (adapter : Bytes) : List EntryInfo :=
  (rows.filings adapter).map (·.info)

private theorem mem_numbers_noteEach (noted : List (Filing T)) (found : List (StoredRow T))
    (n : Nat) :
    n ∈ (noteEach noted found).map (·.number) ↔
      n ∈ noted.map (·.number) ∨ ∃ r ∈ found, r.filing.number = n := by
  induction found generalizing noted with
  | nil => simp [noteEach]
  | cons r rest ih =>
    have hr : noteEach noted (r :: rest) = noteEach (noteFiling r.filing noted) rest := rfl
    rw [hr, ih, mem_numbers_noteFiling]
    simp [or_assoc, eq_comm]

private theorem of_mem_noteEach {noted : List (Filing T)} {found : List (StoredRow T)}
    (h : f ∈ noteEach noted found) : f ∈ noted ∨ ∃ r ∈ found, r.filing = f := by
  induction found generalizing noted with
  | nil => exact .inl h
  | cons r rest ih =>
    rcases ih h with h | ⟨q, hq, he⟩
    · rcases mem_of_mem_noteFiling h with h | rfl
      · exact .inl h
      · exact .inr ⟨r, by simp, rfl⟩
    · exact .inr ⟨q, by simp [hq], he⟩

private theorem nodup_noteEach {noted : List (Filing T)} (found : List (StoredRow T))
    (h : (noted.map (·.number)).Nodup) : ((noteEach noted found).map (·.number)).Nodup := by
  induction found generalizing noted with
  | nil => exact h
  | cons r rest ih => exact ih (nodup_noteFiling r.filing h)

/-- Where entries are stored whole, the filings of rows are noted. -/
theorem WF.mem_noteEach (h : rows.WF) {found : List (StoredRow T)}
    (hf : ∀ r ∈ found, r ∈ rows.all) :
    f ∈ noteEach [] found ↔ ∃ r ∈ found, r.filing = f := by
  constructor
  · intro hm
    rcases of_mem_noteEach hm with hm | hm
    · cases hm
    · exact hm
  · rintro ⟨r, hr, rfl⟩
    have hn := (mem_numbers_noteEach [] found r.filing.number).mpr (.inr ⟨r, hr, rfl⟩)
    obtain ⟨g, hg, he⟩ := List.mem_map.mp hn
    have hg' := of_mem_noteEach hg
    obtain hg' | ⟨q, hq, rfl⟩ := hg'
    · cases hg'
    · obtain ⟨_, hr'⟩ := mem_all_iff.mp (hf r hr)
      obtain ⟨_, hq'⟩ := mem_all_iff.mp (hf q hq)
      rwa [h.filing_eq hr' hq' he.symm]

/-- No filing is noted twice. -/
theorem nodup_noteEach_nil (found : List (StoredRow T)) : (noteEach [] found).Nodup :=
  (nodup_noteEach found (by simp)).of_map _

/-- Rows are stored at different places. -/
theorem WF.nodup_places (h : rows.WF) :
    (rows.all.map (·.place)).Nodup := by
  have hkeys : rows.all.map (·.place) = rows.toList.map (·.1) := by
    rw [all, List.map_map]
    apply List.map_congr_left
    rintro ⟨place, r⟩ hm
    exact h.place_eq (Std.ExtTreeMap.mem_toList_iff_getElem?_eq_some.mp hm)
  rw [hkeys, Std.ExtTreeMap.map_fst_toList_eq_keys]
  exact Std.ExtTreeMap.nodup_keys

/-- A filing owns rows of an adapter if a row of the adapter is stored with it. -/
theorem WF.mem_filings (h : rows.WF) :
    f ∈ rows.filings adapter ↔ ∃ r ∈ rows.all, r.names adapter = true ∧ r.filing = f := by
  rw [filings, h.mem_noteEach fun r hr ↦ (List.mem_filter.mp hr).1]
  simp only [List.mem_filter, and_assoc]

/-- No owner is listed twice. -/
theorem nodup_filings (rows : RowSet T) (adapter : Bytes) : (rows.filings adapter).Nodup :=
  nodup_noteEach_nil _

/-! ## Storing a filing -/

private theorem names_eq_of_place (h : rows.WF) (hi : f.info.WF) {l : EncodedRow}
    (hl : l ∈ f.info.rows) {r : StoredRow T} (hr : rows[l.place]? = some r) :
    r.row.id.adapter = l.id.adapter :=
  ((RowKey.ofRow_inj ((h.sound hr).encoded r.row (h.listed hr)) (hi.encoded l hl)).mp
    (h.place_eq hr)).2.2

private theorem number_ne_of_mem_filings (h : rows.WF) (hf : rows.Fresh f)
    (hg : g ∈ rows.filings adapter) : g.number ≠ f.number := by
  obtain ⟨r, hr, -, rfl⟩ := h.mem_filings.mp hg
  obtain ⟨place, hr⟩ := mem_all_iff.mp hr
  exact hf place r hr

private theorem eq_or_mem_of_mem_stored (h : rows.WF) (hi : f.info.WF) (hf : rows.Fresh f)
    (hg : g ∈ (rows.stored f).filings adapter) : g = f ∨ g ∈ rows.filings adapter := by
  obtain ⟨r, hr, hra, rfl⟩ := (h.stored hi hf).mem_filings.mp hg
  obtain ⟨place, hr⟩ := mem_all_iff.mp hr
  rcases (getElem?_stored_eq_some_iff h hi hf).mp hr with ⟨-, he, -⟩ | ⟨hr, -⟩
  · exact .inl he
  · exact .inr (h.mem_filings.mpr ⟨r, mem_all_iff.mpr ⟨place, hr⟩, hra, rfl⟩)

private theorem eq_or_mem_of_mem_displaced (h : rows.WF) (hi : f.info.WF)
    (ha : ∀ l ∈ f.info.rows, l.id.adapter = adapter) (hg : g ∈ rows.displaced f) :
    g = f ∨ g ∈ rows.filings adapter := by
  rcases mem_displaced hg with rfl | ⟨l, hl, r, hr, rfl⟩
  · exact .inl rfl
  · have hra : r.names adapter = true := by
      rw [StoredRow.names, names_eq_of_place h hi hl hr, ha l hl]
      exact beq_self_eq_true adapter
    exact .inr (h.mem_filings.mpr ⟨r, mem_all_iff.mpr ⟨_, hr⟩, hra, rfl⟩)

-- The filing that is stored owns rows afterwards. If it lists a place twice, it displaces itself.
private theorem stored_or_displaced_self (h : rows.WF) (hi : f.info.WF) (hf : rows.Fresh f)
    (hn : f.info.rows ≠ []) (ha : ∀ l ∈ f.info.rows, l.id.adapter = adapter) :
    f ∈ (rows.stored f).filings adapter ∨ f ∈ rows.displaced f := by
  by_cases hd : f.info.places.Nodup
  · obtain ⟨l, hl⟩ := List.exists_mem_of_ne_nil _ hn
    have hstored : (rows.stored f)[l.place]? = some ⟨l, f⟩ :=
      (getElem?_stored_eq_some_iff h hi hf).mpr (.inl ⟨hd, rfl, hl, rfl⟩)
    refine .inl ((h.stored hi hf).mem_filings.mpr ⟨_, mem_all_iff.mpr ⟨l.place, hstored⟩, ?_, rfl⟩)
    rw [StoredRow.names, ha l hl]
    exact beq_self_eq_true adapter
  · have hm := (mem_numbers_displaced rows f f.number).mpr (.inr ⟨rfl, hd⟩)
    obtain ⟨q, hq, he⟩ := List.mem_map.mp hm
    rcases mem_displaced hq with rfl | ⟨l, hl, r, hr, rfl⟩
    · exact .inr hq
    · exact absurd he (hf _ r hr)

private theorem stored_or_displaced (h : rows.WF) (hi : f.info.WF) (hf : rows.Fresh f)
    (hg : g ∈ rows.filings adapter) :
    g ∈ (rows.stored f).filings adapter ∨ g ∈ rows.displaced f := by
  have hne := number_ne_of_mem_filings h hf hg
  obtain ⟨r, hr, hra, rfl⟩ := h.mem_filings.mp hg
  obtain ⟨place, hr⟩ := mem_all_iff.mp hr
  by_cases hd : rows.Displaces f r.filing.number
  · have hm := (mem_numbers_displaced rows f _).mpr (.inl hd)
    obtain ⟨q, hq, he⟩ := List.mem_map.mp hm
    rcases mem_displaced hq with rfl | ⟨l, hl, p, hp, rfl⟩
    · exact absurd he.symm hne
    · rw [← h.filing_eq hp hr he]
      exact .inr hq
  · have hstored := (getElem?_stored_eq_some_iff h hi hf).mpr (.inr ⟨hr, hd⟩)
    exact .inl ((h.stored hi hf).mem_filings.mpr ⟨r, mem_all_iff.mpr ⟨place, hstored⟩, hra, rfl⟩)

private theorem not_mem_displaced_of_mem_stored (h : rows.WF) (hi : f.info.WF) (hf : rows.Fresh f)
    (hg : g ∈ (rows.stored f).filings adapter) : g ∉ rows.displaced f := by
  intro hq
  have hm := List.mem_map_of_mem (f := (·.number)) hq
  rw [mem_numbers_displaced] at hm
  obtain ⟨r, hr, -, rfl⟩ := (h.stored hi hf).mem_filings.mp hg
  obtain ⟨place, hr⟩ := mem_all_iff.mp hr
  rcases (getElem?_stored_eq_some_iff h hi hf).mp hr with ⟨hd, he, -⟩ | ⟨hr, hd⟩
  · rcases hm with ⟨l, hl, q, hq, hn⟩ | ⟨-, hm⟩
    · exact hf _ q hq (he ▸ hn)
    · exact hm hd
  · rcases hm with hm | ⟨he, -⟩
    · exact hd hm
    · exact hf place r hr he

/-- A filing that is stored takes the place of those that it displaces. If it lists a place twice,
it displaces itself as well. -/
theorem perm_filings_stored (h : rows.WF) (hi : f.info.WF) (hf : rows.Fresh f)
    (hn : f.info.rows ≠ []) (ha : ∀ l ∈ f.info.rows, l.id.adapter = adapter) :
    ((rows.stored f).filings adapter ++ rows.displaced f).Perm (f :: rows.filings adapter) := by
  rw [List.perm_ext_iff_of_nodup]
  · intro g
    rw [List.mem_append, List.mem_cons]
    constructor
    · rintro (hg | hg)
      · exact eq_or_mem_of_mem_stored h hi hf hg
      · exact eq_or_mem_of_mem_displaced h hi ha hg
    · rintro (rfl | hg)
      · exact stored_or_displaced_self h hi hf hn ha
      · exact stored_or_displaced h hi hf hg
  · rw [List.nodup_append]
    refine ⟨nodup_filings _ _, (nodup_placeListed f rows f.info.rows (by simp)).of_map _, ?_⟩
    rintro g hg _ hq rfl
    exact not_mem_displaced_of_mem_stored h hi hf hg hq
  · refine List.nodup_cons.mpr ⟨?_, nodup_filings _ _⟩
    intro hm
    exact number_ne_of_mem_filings h hf hm rfl

/-- A filing that is stored leaves the owners of other adapters alone. -/
theorem perm_filings_stored_of_ne (h : rows.WF) (hi : f.info.WF) (hf : rows.Fresh f)
    (ha : ∀ l ∈ f.info.rows, l.id.adapter ≠ adapter) :
    ((rows.stored f).filings adapter).Perm (rows.filings adapter) := by
  rw [List.perm_ext_iff_of_nodup (nodup_filings _ _) (nodup_filings _ _)]
  intro g
  rw [(h.stored hi hf).mem_filings, h.mem_filings]
  constructor
  · rintro ⟨r, hr, hra, rfl⟩
    obtain ⟨place, hr⟩ := mem_all_iff.mp hr
    rcases (getElem?_stored_eq_some_iff h hi hf).mp hr with ⟨-, -, hl, -⟩ | ⟨hr, -⟩
    · exact absurd (eq_of_beq hra) (ha _ hl)
    · exact ⟨r, mem_all_iff.mpr ⟨place, hr⟩, hra, rfl⟩
  · rintro ⟨r, hr, hra, rfl⟩
    obtain ⟨place, hr⟩ := mem_all_iff.mp hr
    have hkeep : ¬ rows.Displaces f r.filing.number := by
      rintro ⟨l, hl, q, hq, hn⟩
      have hadapter : q.row.id.adapter = r.row.id.adapter := by
        have he := h.filing_eq hq hr hn
        exact (h.sound hr).adapter_eq (h.listed hr) (he ▸ h.listed hq)
      rw [names_eq_of_place h hi hl hq] at hadapter
      exact ha l hl (hadapter.trans (eq_of_beq hra))
    have hstored := (getElem?_stored_eq_some_iff h hi hf).mpr (.inr ⟨hr, hkeep⟩)
    exact ⟨r, mem_all_iff.mpr ⟨place, hstored⟩, hra, rfl⟩

end RowSet

namespace Store

variable {T : Type} {s t : Store T} {adapter index : Bytes} {f : Filing T}

/-! ## All indices -/

/-- The entries that own rows of an adapter, each once for each index. -/
def owners (s : Store T) (adapter : Bytes) : List (Bytes × Filing T) :=
  s.indices.keys.flatMap fun index ↦ ((s.rowsOf index).filings adapter).map fun f ↦ (index, f)

/-- Owners are the filings of rows, in the indices of the rows. -/
theorem WF.mem_owners (h : s.WF) :
    (index, f) ∈ s.owners adapter ↔
      ∃ r ∈ (s.rowsOf index).all, r.names adapter = true ∧ r.filing = f := by
  rw [owners, List.mem_flatMap, ← (h.rows index).mem_filings]
  constructor
  · rintro ⟨i, -, hm⟩
    obtain ⟨g, hg, he⟩ := List.mem_map.mp hm
    cases he
    exact hg
  · intro hf
    obtain ⟨r, hr, -⟩ := (h.rows index).mem_filings.mp hf
    have hi : index ∈ s.indices := by
      rw [← Std.ExtTreeMap.isSome_getElem?_iff_mem]
      exact h.indexed r hr
    exact ⟨index, Std.ExtTreeMap.mem_keys.mpr hi, List.mem_map_of_mem hf⟩

/-- No owner is listed twice. -/
theorem nodup_owners (s : Store T) (adapter : Bytes) : (s.owners adapter).Nodup := by
  rw [owners, List.nodup_flatMap]
  constructor
  · intro i _
    exact (RowSet.nodup_filings _ _).map fun f g he ↦ congrArg Prod.snd he
  · apply Std.ExtTreeMap.nodup_keys.imp
    intro i j hne x hi hj
    obtain ⟨f, -, rfl⟩ := List.mem_map.mp hi
    obtain ⟨g, -, he⟩ := List.mem_map.mp hj
    exact hne (congrArg Prod.fst he).symm

/-- Where the rows are the same, the owners are the same. -/
theorem WF.perm_owners (hs : s.WF) (ht : t.WF) (adapter : Bytes)
    (h : ∀ i, t.rowsOf i = s.rowsOf i) :
    (t.owners adapter).Perm (s.owners adapter) := by
  rw [List.perm_ext_iff_of_nodup (nodup_owners t adapter) (nodup_owners s adapter)]
  rintro ⟨i, f⟩
  rw [ht.mem_owners, hs.mem_owners, h]

private theorem WF.perm_owners_at (hs : s.WF) (index : Bytes) :
    (s.owners adapter).Perm (((s.rowsOf index).filings adapter).map (fun f ↦ (index, f)) ++
      (s.owners adapter).filter fun o ↦ o.1 != index) := by
  have hat : ((s.owners adapter).filter fun o ↦ o.1 == index).Perm
      (((s.rowsOf index).filings adapter).map fun f ↦ (index, f)) := by
    rw [List.perm_ext_iff_of_nodup ((nodup_owners s adapter).filter _)
      ((RowSet.nodup_filings _ _).map fun f g he ↦ congrArg Prod.snd he)]
    rintro ⟨i, f⟩
    rw [List.mem_filter, hs.mem_owners, List.mem_map]
    constructor
    · rintro ⟨hm, hi⟩
      cases eq_of_beq hi
      exact ⟨f, (hs.rows _).mem_filings.mpr hm, rfl⟩
    · rintro ⟨g, hg, he⟩
      cases he
      exact ⟨(hs.rows _).mem_filings.mp hg, beq_self_eq_true _⟩
  exact (List.filter_append_perm (fun o ↦ o.1 == index) (s.owners adapter)).symm.trans
    (hat.append_right _)

/-- Where the rows of one index are exchanged, so are the owners in this index. -/
theorem WF.perm_owners_exchange (hs : s.WF) (ht : t.WF) (adapter : Bytes)
    (h : ∀ i, i ≠ index → t.rowsOf i = s.rowsOf i) :
    (t.owners adapter ++ ((s.rowsOf index).filings adapter).map fun f ↦ (index, f)).Perm
      (s.owners adapter ++ ((t.rowsOf index).filings adapter).map fun f ↦ (index, f)) := by
  have hrest : ((t.owners adapter).filter fun o ↦ o.1 != index).Perm
      ((s.owners adapter).filter fun o ↦ o.1 != index) := by
    rw [List.perm_ext_iff_of_nodup ((nodup_owners t adapter).filter _)
      ((nodup_owners s adapter).filter _)]
    rintro ⟨i, f⟩
    rw [List.mem_filter, List.mem_filter, ht.mem_owners, hs.mem_owners]
    refine and_congr_left fun hi ↦ ?_
    rw [h i (bne_iff_ne.mp hi)]
  have hnew : (t.owners adapter).Perm _ := ht.perm_owners_at index
  have hold : (s.owners adapter).Perm _ := hs.perm_owners_at index
  apply ((hnew.trans (hrest.append_left _)).append_right _).trans
  refine List.Perm.trans ?_ (hold.append_right _).symm
  rw [List.append_assoc]
  exact List.perm_append_comm.trans (List.perm_append_comm.append_right _)

/-- Where whole filings are removed, those with rows of an adapter are its owners no longer. -/
theorem WF.perm_owners_trim (hs : s.WF) (ht : t.WF) (adapter : Bytes)
    {p : Bytes → StoredRow T → Bool}
    (hp : ∀ i, (s.rowsOf i).Respects (p i))
    (hrows : ∀ i, t.rowsOf i = (s.rowsOf i).only (p i))
    {gone : List (Bytes × Filing T)} (hd : gone.Nodup)
    (hgone : ∀ i f, (i, f) ∈ gone ↔
      ∃ r ∈ (s.rowsOf i).all, r.names adapter = true ∧ p i r = false ∧ r.filing = f) :
    (t.owners adapter ++ gone).Perm (s.owners adapter) := by
  have hleft : ∀ i f, (i, f) ∈ t.owners adapter ↔
      ∃ r ∈ (s.rowsOf i).all, r.names adapter = true ∧ p i r = true ∧ r.filing = f := by
    intro i f
    rw [ht.mem_owners, hrows, RowSet.all_only]
    simp only [List.mem_filter]
    constructor
    · rintro ⟨r, ⟨hr, hk⟩, ha, hf⟩
      exact ⟨r, hr, ha, hk, hf⟩
    · rintro ⟨r, hr, ha, hk, hf⟩
      exact ⟨r, ⟨hr, hk⟩, ha, hf⟩
  rw [List.perm_ext_iff_of_nodup]
  · rintro ⟨i, f⟩
    rw [List.mem_append, hleft, hgone, hs.mem_owners]
    constructor
    · rintro (⟨r, hr, ha, -, hf⟩ | ⟨r, hr, ha, -, hf⟩)
      · exact ⟨r, hr, ha, hf⟩
      · exact ⟨r, hr, ha, hf⟩
    · rintro ⟨r, hr, ha, hf⟩
      cases hk : p i r with
      | true => exact .inl ⟨r, hr, ha, hk, hf⟩
      | false => exact .inr ⟨r, hr, ha, hk, hf⟩
  · rw [List.nodup_append]
    refine ⟨nodup_owners t adapter, hd, ?_⟩
    rintro ⟨i, f⟩ hl _ hg rfl
    obtain ⟨r, hr, -, hk, hf⟩ := (hleft i f).1 hl
    obtain ⟨q, hq, -, hk', hf'⟩ := (hgone i f).1 hg
    obtain ⟨_, hr⟩ := RowSet.mem_all_iff.mp hr
    obtain ⟨_, hq⟩ := RowSet.mem_all_iff.mp hq
    have he := hp i hr hq (by rw [hf, hf'])
    rw [hk, hk'] at he
    cases he
  · exact nodup_owners s adapter

/-! ## Deletion of an entry -/

private theorem filings_erasePlaces {rows : RowSet T} (noted : List (Filing T))
    {found : List (StoredRow T)} (hd : (found.map (·.place)).Nodup)
    (hr : ∀ r ∈ found, rows[r.place]? = some r) :
    (erasePlaces rows noted (found.map (·.place))).2.1 = RowSet.noteEach noted found := by
  induction found generalizing rows noted with
  | nil => rfl
  | cons r rest ih =>
    rw [List.map_cons, List.nodup_cons] at hd
    rw [List.map_cons, erasePlaces, hr r (by simp)]
    apply ih (RowSet.noteFiling r.filing noted) hd.2
    intro q hq
    have hne : r.place ≠ q.place := fun he ↦ hd.1 (he ▸ List.mem_map_of_mem hq)
    rw [Std.ExtTreeMap.getElem?_erase]
    simp [hne, hr q (by simp [hq])]

/-- With the rows that meet a condition, their filings are taken back. -/
theorem filings_erased_eq {rows : RowSet T} (h : rows.WF) (p : StoredRow T → Bool) :
    (erasePlaces rows [] ((rows.all.filter p).map (·.place))).2.1 =
      RowSet.noteEach [] (rows.all.filter p) := by
  apply filings_erasePlaces []
  · exact h.nodup_places.sublist (List.filter_sublist.map _)
  · intro r hr
    obtain ⟨place, hr⟩ := RowSet.mem_all_iff.mp (List.mem_filter.mp hr).1
    rwa [h.place_eq hr]

/-- The filings that are taken back with erased rows, each once. -/
theorem filings_erased {rows : RowSet T} (h : rows.WF) (p : StoredRow T → Bool) :
    (erasePlaces rows [] ((rows.all.filter p).map (·.place))).2.1.Nodup ∧
      ∀ f, f ∈ (erasePlaces rows [] ((rows.all.filter p).map (·.place))).2.1 ↔
        ∃ r ∈ rows.all, p r = true ∧ r.filing = f := by
  rw [filings_erased_eq h]
  refine ⟨RowSet.nodup_noteEach_nil _, fun f ↦ ?_⟩
  rw [h.mem_noteEach fun r hr ↦ (List.mem_filter.mp hr).1]
  simp only [List.mem_filter, and_assoc]

end Store

end RowVault
