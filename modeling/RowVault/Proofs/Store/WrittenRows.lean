import RowVault.Proofs.Store.LastWriters
import RowVault.Proofs.Store.Lookups
import RowVault.Scripted.Delivery

/-!
# Row ids that are returned

A row id that an ingest returns is looked up afterwards if no entry filed later displaces its entry.
The exception are entries to which the strategy gives a key twice: the second row of such an entry
displaces the first one, and with it the whole entry, so that its row ids are returned although no
row has been left.
-/

namespace RowVault

variable {T : Type}

private theorem behind_or_eq {α : Type} {earlier later before after : List α} {x y : α}
    (h : earlier ++ x :: later = before ++ y :: after) : y = x ∨ y ∈ later ∨ x ∈ after := by
  rcases List.append_eq_append_iff.mp h with ⟨between, -, h⟩ | ⟨between, -, h⟩
  · rcases List.cons_eq_append_iff.mp h with ⟨-, he⟩ | ⟨more, -, rfl⟩
    · exact .inl (List.cons.inj he).1
    · exact .inr (.inl (List.mem_append_cons_self))
  · rcases List.cons_eq_append_iff.mp h with ⟨-, he⟩ | ⟨more, -, rfl⟩
    · exact .inl (List.cons.inj he).1.symm
    · exact .inr (.inr (List.mem_append_cons_self))

namespace Store

variable {s : Store T} {index : Bytes} {deliveries : List (Delivery T)}
  {earlier later : List (Filing T)} {f : Filing T} {l : EncodedRow}

/-- After deliveries, the places of the last entry that holds them have its rows, or no row at all
if its keys repeat. -/
theorem WF.getElem?_of_last (h : s.WF) (hindex : ∀ d ∈ deliveries, d.index.id = index)
    (hsplit : s.filesEach deliveries = earlier ++ f :: later)
    (hlast : ∀ g ∈ later, ¬ f.info.Meets g.info) (hl : l ∈ f.info.rows) :
    ((s.after (deliveries.map (·.call))).rowsOf index)[l.place]? =
      if f.info.keys.Nodup then some ⟨l, f⟩ else none := by
  have hrow (r : StoredRow T) :=
    @WF.getElem?_deliveries_eq_some_iff T s index deliveries l.place r h hindex
  split
  · next hd => exact (hrow _).mpr (.inr ⟨hd, rfl, hl, earlier, later, hsplit, hlast⟩)
  · next hd =>
    rw [Option.eq_none_iff_forall_ne_some]
    intro r hr
    -- A row that is there belongs to an entry that meets this one.
    have hwf := (h.after (deliveries.map (·.call))).rows index
    obtain ⟨p, -, hf⟩ := mem_filesEach.mp
      (hsplit ▸ List.mem_append_cons_self : f ∈ s.filesEach deliveries)
    have hmeets : r.filing.info.Meets f.info :=
      ((hwf.sound hr).meets_iff (wf_of_mem_files hf)).mpr
        ⟨r.row, hwf.listed hr, l, hl, hwf.place_eq hr⟩
    rcases (hrow r).mp hr with ⟨-, hnone⟩ | ⟨hkeys, -, -, before, after, hsplit', hnone⟩
    · exact hnone f (hsplit ▸ List.mem_append_cons_self) hmeets
    · rcases behind_or_eq (hsplit.symm.trans hsplit') with he | hbehind | hbehind
      · exact hd (he ▸ hkeys)
      · exact hlast _ hbehind hmeets.symm
      · exact hnone f hbehind hmeets

/-- Where the row of a row id is known, so is what is looked up by the row id. -/
theorem value_getByRowId_of_row (s : Store T) (index : Bytes) (labels : Labels) {l : EncodedRow}
    (hl : l.id.encode = .ok l.raw) {o : Option (Filing T)}
    (h : (s.rowsOf index)[l.place]? = o.map fun f ↦ ⟨l, f⟩) :
    (s.getByRowId index l.raw labels).value =
      (o.filter fun f ↦ f.info.visibilities.all fun formula ↦
        Visibility.permits formula labels).map (·.entry) := by
  have hplace : RowKey.decode? l.raw = some l.place := RowKey.decode?_of_encode hl
  rw [value_getByRowId, hplace, Option.bind_some, h]
  cases o with
  | none => rfl
  | some f => simp [Option.filter_some, StoredRow.shows, StoredRow.isVisible, apply_ite]

/-- An ingest returns the row ids of the entries that it files, unless the host fails. A row id of
an entry that no later entry of the batch meets gives the entry to the callers whom all its fields
admit and to no others, provided that the strategy gives the entry no key twice. If it does, the row
id gives nothing to anyone. -/
theorem written_row_ids_looked_up (hs : s.Reachable) (d : Delivery T) :
    ∃ written told fault, (s.perform d.call).1 = .ingested written told fault ∧
      (fault = none → written = (s.files d).flatMap (·.info.rowIds)) ∧
      (∀ x, fault = some x → ∃ n, d.fault n = some x) ∧
      ∀ earlier f later, s.files d = earlier ++ f :: later →
        (∀ g ∈ later, ¬ f.info.Meets g.info) → ∀ raw ∈ f.info.rowIds, ∀ labels,
          ((s.perform d.call).2.getByRowId d.index.id raw labels).value =
            if ((s.origin d).keys f.entry).Nodup ∧
                ∀ formula ∈ f.info.visibilities, Visibility.permits formula labels = true then
              some f.entry
            else none := by
  obtain ⟨written, told, fault, hreply, hwritten, hfault⟩ := s.reply_delivery d
  refine ⟨written, told, fault, hreply, fun hnone ↦ (hwritten hnone).1, hfault, ?_⟩
  intro earlier f later hsplit hlast raw hraw labels
  obtain ⟨l, hl, rfl⟩ := List.mem_map.mp hraw
  have hf : f ∈ s.files d := hsplit ▸ List.mem_append_cons_self
  have hindex : ∀ x ∈ [d], x.index.id = d.index.id := by simp
  have hrow := hs.wf.getElem?_of_last hindex ((List.append_nil _).trans hsplit) hlast hl
  have hrow : ((s.perform d.call).2.rowsOf d.index.id)[l.place]? =
      (if f.info.keys.Nodup then some f else none).map fun f ↦ ⟨l, f⟩ := by
    rw [apply_ite (Option.map _)]
    exact hrow
  rw [value_getByRowId_of_row _ _ _ ((wf_of_mem_files hf).encoded l hl) hrow,
    ← Origin.keys_of_info? (Origin.of_mem_filings hf).2]
  by_cases hd : f.info.keys.Nodup
  · simp [hd, Option.filter_some, apply_ite]
  · simp [hd]

private def sharedKey : Delivery Scripted.Entry :=
  .ofBytes [.ofBytes [0x64] [1, 2], .ofBytes [0x65] [1]]

/-- The row ids of an entry with two keys give the entry. -/
theorem written_row_ids_looked_up_shared :
    let done := (fresh {} {} : Store Scripted.Entry).perform sharedKey.call
    ∀ raw ∈ [[1, 0x64, 0x61, 0, 0, 0, 1, 0, 0, 0, 1, 0, 0, 0, 1],
        [2, 0x64, 0x61, 0, 0, 0, 1, 0, 0, 0, 1, 0, 0, 0, 1]],
      (done.2.getByRowId Index.ofBytes.id raw ∅).value = some (.ofBytes [0x64] [1, 2]) := by
  intro done raw hraw
  obtain ⟨_, _, _, -, -, -, hlookup⟩ :=
    written_row_ids_looked_up (s := fresh {} {}) ⟨{}, {}, [], rfl⟩ sharedKey
  let files := (fresh {} {} : Store Scripted.Entry).files sharedKey
  have hfound := hlookup [] files[0] [files[1]] (by decide +kernel) (by decide +kernel) raw hraw ∅
  exact hfound.trans (by decide +kernel)

private def repeatedKey : Delivery Scripted.Entry := .ofBytes [.ofBytes [0x64] [1, 1]]

/-- The row ids of an entry to which the strategy gives a key twice are returned, and give nothing
to anyone. -/
theorem written_row_ids_lost :
    let done := (fresh {} {} : Store Scripted.Entry).perform repeatedKey.call
    let raw : Bytes := [1, 0x64, 0x61, 0, 0, 0, 1, 0, 0, 0, 1, 0, 0, 0, 1]
    (∃ told, done.1 = .ingested [raw, raw] told none) ∧
      ∀ labels, (done.2.getByRowId Index.ofBytes.id raw labels).value = none := by
  intro done raw
  refine ⟨⟨_, rfl⟩, ?_⟩
  intro labels
  have hnone : ((RowKey.decode? raw).bind fun place ↦ (done.2.rowsOf Index.ofBytes.id)[place]?) =
      none := by decide +kernel
  rw [value_getByRowId, hnone]
  rfl

end Store

end RowVault
