import RowVault.Proofs.Store.Deliveries
import RowVault.Scripted.Delivery

/-!
# Last writers

A filing displaces the stored entries that share a row identity with it, so of entries that meet the
last one stays. When filings have been stored one after the other, the rows are those of the entries
that none of the later filings meets, whether they were stored before or are among the filings.
-/

namespace RowVault

variable {T : Type}

namespace EntryInfo

/-- Two entries share a row identity: insertion key, data id and adapter. -/
def Meets (i j : EntryInfo) : Prop :=
  ∃ r ∈ i.rows, ∃ l ∈ j.rows,
    r.id.key = l.id.key ∧ r.id.data = l.id.data ∧ r.id.adapter = l.id.adapter

/-- Whether two entries meet is seen by going through their rows. -/
instance (i j : EntryInfo) : Decidable (i.Meets j) := inferInstanceAs (Decidable (∃ r ∈ i.rows, _))

variable {i j : EntryInfo}

/-- Entries meet each other. -/
theorem Meets.symm (h : i.Meets j) : j.Meets i := by
  obtain ⟨r, hr, l, hl, hk, hd, ha⟩ := h
  exact ⟨l, hl, r, hr, hk.symm, hd.symm, ha.symm⟩

/-- Entries meet where they list one place. -/
theorem WF.meets_iff (hi : i.WF) (hj : j.WF) :
    i.Meets j ↔ ∃ r ∈ i.rows, ∃ l ∈ j.rows, r.place = l.place := by
  have hplace : ∀ r ∈ i.rows, ∀ l ∈ j.rows, r.place = l.place ↔
      r.id.key = l.id.key ∧ r.id.data = l.id.data ∧ r.id.adapter = l.id.adapter :=
    fun r hr l hl ↦ RowKey.ofRow_inj (hi.encoded r hr) (hj.encoded l hl)
  constructor
  · rintro ⟨r, hr, l, hl, he⟩
    exact ⟨r, hr, l, hl, (hplace r hr l hl).mpr he⟩
  · rintro ⟨r, hr, l, hl, he⟩
    exact ⟨r, hr, l, hl, (hplace r hr l hl).mp he⟩

/-- The rows of one entry have different places exactly if they have different keys. -/
theorem WF.nodup_places_iff (h : i.WF) : i.places.Nodup ↔ i.keys.Nodup := by
  have hkey : ∀ r ∈ i.rows, ∀ l ∈ i.rows, r.place = l.place ↔ r.id.key = l.id.key := by
    intro r hr l hl
    refine (RowKey.ofRow_inj (h.encoded r hr) (h.encoded l hl)).trans ?_
    rw [h.data_eq hr hl, h.adapter_eq hr hl]
    simp
  rw [places, keys, List.Nodup, List.Nodup, List.pairwise_map, List.pairwise_map]
  constructor
  · intro hp
    exact hp.imp_of_mem fun hr hl hne he ↦ hne ((hkey _ hr _ hl).mpr he)
  · intro hp
    exact hp.imp_of_mem fun hr hl hne he ↦ hne ((hkey _ hr _ hl).mp he)

end EntryInfo

namespace RowSet

variable {rows : RowSet T} {f : Filing T} {place : RowKey} {r : StoredRow T}
  {filings : List (Filing T)}

/-- A row is stored exactly if it is a row of an entry that is stored. -/
theorem WF.getElem?_eq_some_iff (h : rows.WF) :
    rows[place]? = some r ↔
      r.place = place ∧ r.row ∈ r.filing.info.rows ∧ ∃ q ∈ rows.all, q.filing = r.filing := by
  constructor
  · intro hr
    exact ⟨h.place_eq hr, h.listed hr, r, mem_all_iff.mpr ⟨place, hr⟩, rfl⟩
  · rintro ⟨rfl, hl, q, hq, he⟩
    obtain ⟨other, hq⟩ := mem_all_iff.mp hq
    rw [← he] at hl
    have hr := h.whole hq _ hl
    rw [he] at hr
    exact hr

/-- A filing displaces the entries that it meets. -/
theorem WF.displaces_iff (h : rows.WF) (hi : f.info.WF) (hr : rows[place]? = some r) :
    rows.Displaces f r.filing.number ↔ r.filing.info.Meets f.info := by
  rw [(h.sound hr).meets_iff hi]
  constructor
  · rintro ⟨l, hl, q, hq, hn⟩
    rw [← h.filing_eq hq hr hn]
    exact ⟨q.row, h.listed hq, l, hl, h.place_eq hq⟩
  · rintro ⟨a, ha, l, hl, hp⟩
    refine ⟨l, hl, ⟨a, r.filing⟩, ?_, rfl⟩
    rw [← hp]
    exact h.whole hr a ha

/-- After filings of fresh numbers have been stored, the rows are those of the entries that were
stored before and those of the filings, each unless a later filing meets it. A filing whose own keys
repeat has no rows. -/
theorem WF.getElem?_foldl_stored_eq_some_iff (h : rows.WF) (hi : ∀ f ∈ filings, f.info.WF)
    (hn : (filings.map (·.number)).Nodup) (hf : ∀ f ∈ filings, rows.Fresh f) :
    (filings.foldl RowSet.stored rows)[place]? = some r ↔
      (rows[place]? = some r ∧ ∀ g ∈ filings, ¬ r.filing.info.Meets g.info) ∨
        (r.filing.info.keys.Nodup ∧ r.place = place ∧ r.row ∈ r.filing.info.rows ∧
          ∃ earlier later, filings = earlier ++ r.filing :: later ∧
            ∀ g ∈ later, ¬ r.filing.info.Meets g.info) := by
  induction filings generalizing rows with
  | nil => simp
  | cons f rest ih =>
    obtain ⟨hif, hirest⟩ := List.forall_mem_cons.mp hi
    obtain ⟨hff, hfrest⟩ := List.forall_mem_cons.mp hf
    obtain ⟨hnf, hnrest⟩ := List.nodup_cons.mp hn
    have hstored (place : RowKey) (r : StoredRow T) :=
      @getElem?_stored_eq_some_iff T rows f place r h hif hff
    have hfresh : ∀ g ∈ rest, (rows.stored f).Fresh g := by
      intro g hg place r hr
      rcases (hstored _ _).mp hr with ⟨-, hrf, -, -⟩ | ⟨hr, -⟩
      · rw [hrf]
        exact fun he ↦ hnf (List.mem_map.mpr ⟨g, hg, he.symm⟩)
      · exact hfrest g hg place r hr
    rw [List.foldl_cons, ih (h.stored hif hff) hirest hnrest hfresh, hstored]
    constructor
    · rintro (⟨⟨hd, rfl, hl, hp⟩ | ⟨hr, hd⟩, hlater⟩ | ⟨hd, hp, hl, earlier, later, rfl, hlater⟩)
      · exact .inr ⟨hif.nodup_places_iff.mp hd, hp, hl, [], rest, rfl, hlater⟩
      · rw [h.displaces_iff hif hr] at hd
        exact .inl ⟨hr, List.forall_mem_cons.mpr ⟨hd, hlater⟩⟩
      · exact .inr ⟨hd, hp, hl, f :: earlier, later, rfl, hlater⟩
    · rintro (⟨hr, hall⟩ | ⟨hd, hp, hl, earlier, later, hsplit, hlater⟩)
      · obtain ⟨hmeets, hlater⟩ := List.forall_mem_cons.mp hall
        exact .inl ⟨.inr ⟨hr, fun hd ↦ hmeets ((h.displaces_iff hif hr).mp hd)⟩, hlater⟩
      · rcases List.cons_eq_append_iff.mp hsplit with ⟨-, he⟩ | ⟨before, -, rfl⟩
        · obtain ⟨rfl, rfl⟩ := List.cons.inj he.symm
          exact .inl ⟨.inl ⟨hif.nodup_places_iff.mpr hd, rfl, hl, hp⟩, hlater⟩
        · exact .inr ⟨hd, hp, hl, before, later, rfl, hlater⟩

/-- An entry stays through filings: it was stored before or is one of them, and no filing behind it
meets it. -/
def Stays (rows : RowSet T) (filings : List (Filing T)) (f : Filing T) : Prop :=
  ((∃ q ∈ rows.all, q.filing = f) ∧ ∀ g ∈ filings, ¬ f.info.Meets g.info) ∨
    ∃ earlier later, filings = earlier ++ f :: later ∧ ∀ g ∈ later, ¬ f.info.Meets g.info

end RowSet

namespace Store

variable {s : Store T} {index : Bytes} {deliveries : List (Delivery T)} {place : RowKey}
  {r : StoredRow T}

/-- No row has a number that has not been given yet. -/
theorem WF.fresh_of_le (h : s.WF) {f : Filing T} (hf : s.filed ≤ f.number) :
    (s.rowsOf index).Fresh f := by
  intro place r hr
  exact Nat.ne_of_lt (Nat.lt_of_lt_of_le (h.below r (RowSet.mem_all_iff.mpr ⟨place, hr⟩)) hf)

/-- After deliveries into one index, its rows are those of the entries that were stored before and
those of the entries that have been filed, each unless an entry filed later meets it. An entry whose
own keys repeat has no rows. -/
theorem WF.getElem?_deliveries_eq_some_iff (h : s.WF)
    (hindex : ∀ d ∈ deliveries, d.index.id = index) :
    ((s.after (deliveries.map (·.call))).rowsOf index)[place]? = some r ↔
      ((s.rowsOf index)[place]? = some r ∧
          ∀ g ∈ s.filesEach deliveries, ¬ r.filing.info.Meets g.info) ∨
        (r.filing.info.keys.Nodup ∧ r.place = place ∧ r.row ∈ r.filing.info.rows ∧
          ∃ earlier later, s.filesEach deliveries = earlier ++ r.filing :: later ∧
            ∀ g ∈ later, ¬ r.filing.info.Meets g.info) := by
  have hnumbers := s.numbers_filesEach deliveries
  rw [s.rowsOf_deliveries hindex]
  apply (h.rows index).getElem?_foldl_stored_eq_some_iff
  · intro f hf
    obtain ⟨p, -, hf⟩ := mem_filesEach.mp hf
    exact wf_of_mem_files hf
  · rw [hnumbers]
    exact List.nodup_range'
  · intro f hf
    have hm : f.number ∈ (s.filesEach deliveries).map (·.number) := List.mem_map_of_mem hf
    rw [hnumbers] at hm
    exact h.fresh_of_le (List.mem_range'_1.mp hm).1

/-- After deliveries into one index whose strategy gives each entry pairwise distinct keys, its rows
are all rows of the entries that stay: those that no entry filed later meets, whether they were
stored before or have been filed by one of the deliveries. The row sets of other indices are the
same as before.

Of each delivery, in the store that it finds, nothing is filed for the entries that have no key or
cannot be encoded. The other entries have the keys of the strategy, in their order; unless the host
fails, all of them are filed, in the order of the batch, and their row ids are returned. -/
theorem last_writers_stay (hs : s.Reachable) (hindex : ∀ d ∈ deliveries, d.index.id = index)
    (hkeys : ∀ p ∈ s.stages deliveries, ∀ entry ∈ p.2.entries,
      ((p.1.origin p.2).keys entry).Nodup) :
    let t := s.after (deliveries.map (·.call))
    (∀ (place : RowKey) (r : StoredRow T), (t.rowsOf index)[place]? = some r ↔
      r.place = place ∧ r.row ∈ r.filing.info.rows ∧
        (s.rowsOf index).Stays (s.filesEach deliveries) r.filing) ∧
    (∀ other, other ≠ index → t.rows[other]? = s.rows[other]?) ∧
    ∀ p ∈ s.stages deliveries,
      let o := p.1.origin p.2
      let files := p.1.files p.2
      (∀ entry, o.info? entry = none ↔ o.keys entry = [] ∨
        ∃ e, (encodeEntry o.adapter o.index o.visibility entry).value = .error e) ∧
      (∀ entry info, o.info? entry = some info → info.WF ∧ info.keys = o.keys entry) ∧
      ∃ written told fault, (p.1.perform p.2.call).1 = .ingested written told fault ∧
        (fault = none → written = files.flatMap (·.info.rowIds) ∧
          files.map (fun f ↦ (f.entry, f.info)) = p.2.entries.filterMap o.content?) ∧
        ∀ x, fault = some x → ∃ n, p.2.fault n = some x := by
  intro t
  have hdistinct : ∀ f ∈ s.filesEach deliveries, f.info.keys.Nodup := by
    intro f hf
    obtain ⟨p, hp, hf⟩ := mem_filesEach.mp hf
    obtain ⟨hentry, hinfo⟩ := Origin.of_mem_filings hf
    rw [Origin.keys_of_info? hinfo]
    exact hkeys p hp _ hentry
  refine ⟨?_, fun other hne ↦ s.rows_deliveries_of_ne hindex hne, ?_⟩
  · intro place r
    rw [hs.wf.getElem?_deliveries_eq_some_iff hindex, (hs.wf.rows index).getElem?_eq_some_iff]
    constructor
    · rintro (⟨⟨hp, hl, hq⟩, hmeets⟩ | ⟨-, hp, hl, hsplit⟩)
      · exact ⟨hp, hl, .inl ⟨hq, hmeets⟩⟩
      · exact ⟨hp, hl, .inr hsplit⟩
    · rintro ⟨hp, hl, ⟨hq, hmeets⟩ | ⟨earlier, later, hsplit, hmeets⟩⟩
      · exact .inl ⟨⟨hp, hl, hq⟩, hmeets⟩
      · refine .inr ⟨hdistinct r.filing ?_, hp, hl, earlier, later, hsplit, hmeets⟩
        rw [hsplit]
        exact List.mem_append_cons_self
  · intro p _ o files
    exact ⟨fun _ ↦ Origin.info?_eq_none_iff,
      fun _ _ hinfo ↦ ⟨Origin.wf_of_info? hinfo, Origin.keys_of_info? hinfo⟩,
      p.1.reply_delivery p.2⟩

private def byteStart : Store Scripted.Entry :=
  (fresh {} {}).after [(Delivery.ofBytes [.ofBytes [0x64] [1, 2]]).call]

-- The second delivery displaces what the first one has put in the place of the stored entry.
private def byteChain : List (Delivery Scripted.Entry) :=
  [.ofBytes [.ofBytes [0x64] [2, 3], .ofBytes [0x65] [], .ofBytes [0x65] [1]],
    .ofBytes [.ofBytes [0x64] [3, 4]]]

/-- An entry that displaces another one and is displaced in turn leaves only the rows of its own
successor, beside those of an entry with another data id. -/
theorem last_writers_stay_chain :
    let t := byteStart.after (byteChain.map (·.call))
    (t.rowsOf Index.ofBytes.id).all.map (fun r ↦ (r.row.id.key, r.row.id.data)) =
        [([1], [0x65]), ([3], [0x64]), ([4], [0x64])] ∧
      ∀ r ∈ (t.rowsOf Index.ofBytes.id).all,
        (byteStart.rowsOf Index.ofBytes.id).Stays (byteStart.filesEach byteChain) r.filing := by
  intro t
  have hreachable : byteStart.Reachable := ⟨{}, {}, _, rfl⟩
  have hindex : ∀ d ∈ byteChain, d.index.id = Index.ofBytes.id := by decide +kernel
  have hkeys : ∀ p ∈ byteStart.stages byteChain, ∀ entry ∈ p.2.entries,
      ((p.1.origin p.2).keys entry).Nodup := by decide +kernel
  obtain ⟨hrows, -⟩ := last_writers_stay hreachable hindex hkeys
  refine ⟨by decide +kernel, ?_⟩
  intro r hr
  obtain ⟨place, hr⟩ := RowSet.mem_all_iff.mp hr
  exact ((hrows place r).mp hr).2.2

end Store

end RowVault
