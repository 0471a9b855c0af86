import RowVault.Proofs.Store.Access

/-!
# What an ingest files

An ingest is a fold: each entry of its batch that has rows is filed under the next number, in the
order of the batch, up to where the host fails, and every other entry leaves nothing behind. If the
host does not fail, the row ids of all entries that are filed are returned.
-/

namespace RowVault

variable {T : Type}

/-- The insertion keys of the rows that an entry lists. -/
def EntryInfo.keys (i : EntryInfo) : List Bytes := i.rows.map (·.id.key)

namespace Origin

/-- The insertion keys that the strategy of the index gives an entry. -/
def keys (o : Origin T) (entry : T) : List Bytes :=
  o.index.strategy.insertionKeys (o.adapter.encode entry o.index.model).common

/-- What is filed of an entry: its rows and fields, if it is encoded and has rows. -/
def info? (o : Origin T) (entry : T) : Option EntryInfo :=
  match (encodeEntry o.adapter o.index o.visibility entry).value with
  | .ok info => if info.isEmpty then none else some info
  | .error _ => none

/-- An entry of which something is filed, with what is filed of it. -/
def content? (o : Origin T) (entry : T) : Option (T × EntryInfo) :=
  (o.info? entry).map (entry, ·)

/-- The filings of a batch, from a number and a position on: one for each entry that has rows, up to
where the host fails. An entry at which the host fails later than at its encoding is filed. -/
def filings (o : Origin T) (fault : Nat → Option HostFault) :
    (number position : Nat) → List T → List (Filing T)
  | _, _, [] => []
  | number, position, entry :: rest =>
    if fault position = some .encoding then []
    else
      match o.info? entry with
      | none => o.filings fault number (position + 1) rest
      | some info =>
        ⟨number, info, entry⟩ ::
          if (fault position).isSome then [] else o.filings fault (number + 1) (position + 1) rest

/-- What a batch files and statistics do not observe: the entry at which the host fails once its
rows are stored. -/
def missed (o : Origin T) (fault : Nat → Option HostFault) :
    (position : Nat) → List T → List EntryInfo
  | _, [] => []
  | position, entry :: rest =>
    if fault position = some .encoding then []
    else
      match o.info? entry with
      | none => o.missed fault (position + 1) rest
      | some info =>
        if (fault position).isSome then [info] else o.missed fault (position + 1) rest

variable {o : Origin T} {fault : Nat → Option HostFault} {number position : Nat} {entries : List T}
  {entry : T} {info : EntryInfo} {f : Filing T}

/-- An entry of which nothing is filed has no content. -/
theorem content?_of_none (h : o.info? entry = none) : o.content? entry = none := by
  rw [content?, h, Option.map_none]

/-- An entry of which something is filed has it as its content. -/
theorem content?_of_some (h : o.info? entry = some info) :
    o.content? entry = some (entry, info) := by
  rw [content?, h, Option.map_some]

/-- What is filed of an entry is its encoding. -/
theorem info?_eq_some_iff : o.info? entry = some info ↔
    (encodeEntry o.adapter o.index o.visibility entry).value = .ok info ∧ info.isEmpty = false := by
  rw [info?]
  split
  · next i h =>
    rw [h, Except.ok.injEq]
    split
    · next he =>
      refine ⟨nofun, ?_⟩
      rintro ⟨rfl, hn⟩
      rw [he] at hn
      cases hn
    · next he =>
      rw [Option.some.injEq]
      refine ⟨?_, And.left⟩
      rintro rfl
      exact ⟨rfl, Bool.eq_false_iff.mpr he⟩
  · next e h =>
    rw [h]
    exact ⟨nofun, fun h ↦ nomatch h.1⟩

/-- Nothing is filed of an entry that has no insertion key or cannot be encoded. -/
theorem info?_eq_none_iff : o.info? entry = none ↔
    o.keys entry = [] ∨
      ∃ e, (encodeEntry o.adapter o.index o.visibility entry).value = .error e := by
  rw [info?]
  split
  · next i h =>
    have hkeys := isEmpty_iff_of_encodeEntry h
    have hok : ¬ ∃ e, (encodeEntry o.adapter o.index o.visibility entry).value = .error e := by
      rw [h]
      exact nofun
    rw [or_iff_left hok, keys, ← hkeys]
    cases i.isEmpty <;> simp
  · next e h => exact ⟨fun _ ↦ .inr ⟨e, h⟩, fun _ ↦ rfl⟩

/-- What is filed is well-formed. -/
theorem wf_of_info? (h : o.info? entry = some info) : info.WF :=
  wf_of_encodeEntry (info?_eq_some_iff.mp h).1

/-- The rows of an entry have the keys of the strategy, in their order. -/
theorem keys_of_info? (h : o.info? entry = some info) : info.keys = o.keys entry := by
  obtain ⟨hencoded, hn⟩ := info?_eq_some_iff.mp h
  rcases encodeEntry_eq_ok hencoded with ⟨-, rfl⟩ | ⟨-, hrows, -⟩
  · cases hn
  · have hids := congrArg (List.map RowId.key) (Encoding.rows_eq_ok hrows).1
    rw [List.map_map, List.map_map] at hids
    exact hids.trans (List.map_id _)

/-- Filings are numbered one after the other. -/
theorem numbers_filings (o : Origin T) (fault : Nat → Option HostFault) (number position : Nat)
    (entries : List T) :
    (o.filings fault number position entries).map (·.number) =
      List.range' number (o.filings fault number position entries).length := by
  induction entries generalizing number position with
  | nil => rfl
  | cons entry rest ih =>
    rw [filings]
    split
    · rfl
    · split
      · exact ih number (position + 1)
      · rw [List.map_cons, List.length_cons, List.range'_succ]
        split
        · rfl
        · rw [ih]

/-- If the host fails at most while it encodes an entry, nothing is missed. -/
theorem missed_eq_nil (hx : ∀ position, fault position = none ∨ fault position = some .encoding)
    (position : Nat) (entries : List T) : o.missed fault position entries = [] := by
  induction entries generalizing position with
  | nil => rfl
  | cons entry rest ih =>
    rw [missed]
    rcases hx position with hp | hp
    · rw [if_neg (by simp [hp])]
      cases o.info? entry with
      | none => exact ih (position + 1)
      | some info => simpa [hp] using ih (position + 1)
    · rw [if_pos hp]

/-- A filing of a batch is that of one of its entries. -/
theorem of_mem_filings (h : f ∈ o.filings fault number position entries) :
    f.entry ∈ entries ∧ o.info? f.entry = some f.info := by
  induction entries generalizing number position with
  | nil => cases h
  | cons entry rest ih =>
    rw [filings] at h
    split at h
    · cases h
    · split at h
      · obtain ⟨hm, hi⟩ := ih h
        exact ⟨List.mem_cons_of_mem entry hm, hi⟩
      · next info hinfo =>
        rcases List.mem_cons.mp h with rfl | h
        · exact ⟨List.mem_cons_self, hinfo⟩
        · split at h
          · cases h
          · obtain ⟨hm, hi⟩ := ih h
            exact ⟨List.mem_cons_of_mem entry hm, hi⟩

end Origin

/-! ## Batches as folds -/

namespace Batch

variable {o : Origin T} {fault : Nat → Option HostFault} {b : Batch T} {position : Nat} {entry : T}
  {rest : List T} {info : EntryInfo}

/-- An entry of which nothing is filed is passed over. -/
theorem value_run_cons_of_none (hx : fault position ≠ some .encoding) (hi : o.info? entry = none) :
    (b.run o.adapter o.index o.visibility fault position (entry :: rest)).value =
      (b.run o.adapter o.index o.visibility fault (position + 1) rest).value := by
  rw [run, if_neg hx, Traced.value_bind]
  cases he : (encodeEntry o.adapter o.index o.visibility entry).value with
  | error e => rfl
  | ok i =>
    cases hn : i.isEmpty with
    | true =>
      dsimp only
      rw [if_pos hn]
    | false =>
      rw [Origin.info?_eq_some_iff.mpr ⟨he, hn⟩] at hi
      cases hi

/-- An entry that has rows is filed. The batch goes on behind it unless the host fails. -/
theorem value_run_cons_of_some (hx : fault position ≠ some .encoding)
    (hi : o.info? entry = some info) :
    (b.run o.adapter o.index o.visibility fault position (entry :: rest)).value =
      let filed := (b.file o.index.id ⟨b.filed, info, entry⟩ (fault position)).value
      if filed.fault.isSome then filed
      else (filed.run o.adapter o.index o.visibility fault (position + 1) rest).value := by
  obtain ⟨he, hn⟩ := Origin.info?_eq_some_iff.mp hi
  rw [run, if_neg hx, Traced.value_bind, he]
  dsimp only
  rw [if_neg (by simp [hn]), Traced.value_bind]
  split <;> rfl

/-- If the host does not fail, the row ids of an entry that is filed are written. -/
theorem value_file_none (b : Batch T) (index : Bytes) (f : Filing T) :
    (b.file index f none).value.fault = b.fault ∧
      (b.file index f none).value.written = b.written ++ f.info.rowIds :=
  ⟨rfl, rfl⟩

/-- Where the host fails at an entry that is filed, it fails in this way. -/
theorem fault_file_some (b : Batch T) (index : Bytes) (f : Filing T) {x : HostFault}
    (hx : x ≠ .encoding) : (b.file index f (some x)).value.fault = some x := by
  cases x with
  | encoding => exact absurd rfl hx
  | sink => rfl
  | callback => rfl

/-- A batch stores its filings one after the other, and counts them; and if the host does not fail,
their row ids are written, and nothing else is filed than the entries that have rows. -/
theorem value_run (o : Origin T) (fault : Nat → Option HostFault) (position : Nat)
    (entries : List T) {b : Batch T} (hb : b.fault = none) :
    let filings := o.filings fault b.filed position entries
    let done := (b.run o.adapter o.index o.visibility fault position entries).value
    done.rows = filings.foldl RowSet.stored b.rows ∧ done.filed = b.filed + filings.length ∧
      (done.fault = none →
        done.written = b.written ++ filings.flatMap (·.info.rowIds) ∧
          filings.map (fun f ↦ (f.entry, f.info)) = entries.filterMap o.content?) := by
  induction entries generalizing b position with
  | nil =>
    by_cases hx : fault position = some .encoding
    · rw [run, if_pos hx]
      refine ⟨rfl, rfl, ?_⟩
      intro hnone
      rw [show fault position = none from hnone] at hx
      cases hx
    · rw [run, if_neg hx]
      refine ⟨rfl, rfl, fun _ ↦ ⟨?_, rfl⟩⟩
      exact (List.append_nil _).symm
  | cons entry rest ih =>
    by_cases hx : fault position = some .encoding
    · rw [run, if_pos hx, Origin.filings, hx]
      refine ⟨rfl, rfl, ?_⟩
      intro hnone
      cases hnone
    · cases hi : o.info? entry with
      | none =>
        rw [value_run_cons_of_none hx hi, Origin.filings, if_neg hx, hi,
          List.filterMap_cons_none (Origin.content?_of_none hi)]
        exact ih (position + 1) hb
      | some info =>
        rw [value_run_cons_of_some hx hi, Origin.filings, if_neg hx, hi,
          List.filterMap_cons_some (Origin.content?_of_some hi)]
        cases hp : fault position with
        | none =>
          obtain ⟨hfault, hfile⟩ := value_file_none b o.index.id ⟨b.filed, info, entry⟩
          obtain ⟨hrows, hfiled, hwritten⟩ := ih (position + 1) (hfault.trans hb)
          rw [rows_file, filed_file] at hrows
          rw [filed_file] at hfiled hwritten
          dsimp only
          rw [hfault, hb]
          refine ⟨hrows, ?_, ?_⟩
          · exact hfiled.trans (Nat.succ_add_eq_add_succ _ _)
          · intro hnone
            obtain ⟨hids, hcontents⟩ := hwritten hnone
            refine ⟨?_, congrArg ((entry, info) :: ·) hcontents⟩
            exact hids.trans (by rw [hfile, List.append_assoc]; rfl)
        | some x =>
          have hfault := fault_file_some b o.index.id ⟨b.filed, info, entry⟩ (x := x)
            (fun he ↦ hx (he ▸ hp))
          dsimp only
          rw [hfault]
          refine ⟨rows_file _ _ _ _, filed_file _ _ _ _, ?_⟩
          intro hnone
          cases hfault.symm.trans hnone

/-- Where a batch ends in a failure of the host, the host fails in this way at some position. -/
theorem exists_of_fault_run (o : Origin T) (fault : Nat → Option HostFault) (position : Nat)
    (entries : List T) {b : Batch T} (hb : b.fault = none) {x : HostFault}
    (h : (b.run o.adapter o.index o.visibility fault position entries).value.fault = some x) :
    ∃ n, fault n = some x := by
  induction entries generalizing b position with
  | nil =>
    rw [run] at h
    split at h
    · exact ⟨position, h⟩
    · cases hb.symm.trans h
  | cons entry rest ih =>
    by_cases hx : fault position = some .encoding
    · rw [run, if_pos hx] at h
      exact ⟨position, h⟩
    · cases hi : o.info? entry with
      | none =>
        rw [value_run_cons_of_none hx hi] at h
        exact ih (position + 1) hb h
      | some info =>
        rw [value_run_cons_of_some hx hi] at h
        cases hp : fault position with
        | none =>
          have hfault := (value_file_none b o.index.id ⟨b.filed, info, entry⟩).1.trans hb
          simp only [hp, hfault, Option.isSome_none, Bool.false_eq_true, if_false] at h
          exact ih (position + 1) hfault h
        | some y =>
          have hfault := fault_file_some b o.index.id ⟨b.filed, info, entry⟩ (x := y)
            (fun he ↦ hx (he ▸ hp))
          simp only [hp, hfault, Option.isSome_some, if_true] at h
          exact ⟨position, hp.trans h⟩

end Batch

/-! ## Calls as folds -/

namespace Store

/-- How the entries of a delivery are encoded: by the adapter that is registered under the
identifier of the given one. -/
def origin (s : Store T) (d : Delivery T) : Origin T :=
  ⟨(s.register d.adapter d.index).value.registered d.adapter, d.index, d.visibility⟩

/-- What a delivery files. -/
def files (s : Store T) (d : Delivery T) : List (Filing T) :=
  (s.origin d).filings d.fault s.filed 0 d.entries

/-- What a delivery files and statistics do not observe. -/
def missed (s : Store T) (d : Delivery T) : List EntryInfo :=
  (s.origin d).missed d.fault 0 d.entries

/-- Deliveries, one after the other, each with the store that it finds. -/
def stages (s : Store T) : List (Delivery T) → List (Store T × Delivery T)
  | [] => []
  | d :: rest => (s, d) :: (s.perform d.call).2.stages rest

/-- What deliveries file, one after the other. -/
def filesEach (s : Store T) (deliveries : List (Delivery T)) : List (Filing T) :=
  (s.stages deliveries).flatMap fun (t, d) ↦ t.files d

/-- What deliveries file is what the first one files and what the others file behind it. -/
@[simp] theorem filesEach_cons (s : Store T) (d : Delivery T) (rest : List (Delivery T)) :
    s.filesEach (d :: rest) = s.files d ++ (s.perform d.call).2.filesEach rest := rfl

private theorem value_batchEnd (s : Store T) (d : Delivery T) :
    let done := s.batchEnd d.adapter d.index d.visibility d.entries d.fault
    done.rows = (s.files d).foldl RowSet.stored (s.rowsOf d.index.id) ∧
      done.filed = s.filed + (s.files d).length ∧
      (done.fault = none →
        done.written = (s.files d).flatMap (·.info.rowIds) ∧
          (s.files d).map (fun f ↦ (f.entry, f.info)) =
            d.entries.filterMap (s.origin d).content?) :=
  Batch.value_run (s.origin d) d.fault 0 d.entries (b := s.batchStart d.adapter d.index) rfl

/-- A delivery stores its filings in its index, one after the other. -/
theorem rowsOf_delivery (s : Store T) (d : Delivery T) :
    (s.perform d.call).2.rowsOf d.index.id =
      (s.files d).foldl RowSet.stored (s.rowsOf d.index.id) := by
  have hrows := s.rowsOf_ingest d.adapter d.index d.visibility d.entries d.fault d.index.id
  rw [if_pos rfl, (s.value_batchEnd d).1] at hrows
  exact hrows

/-- A delivery leaves the row sets of other indices as they are. -/
theorem rows_delivery_of_ne (s : Store T) (d : Delivery T) {other : Bytes}
    (h : other ≠ d.index.id) : (s.perform d.call).2.rows[other]? = s.rows[other]? := by
  have hrows : (s.perform d.call).2.rows = (s.register d.adapter d.index).value.rows.insert
      d.index.id (s.batchEnd d.adapter d.index d.visibility d.entries d.fault).rows := by
    change (s.ingest d.adapter d.index d.visibility d.entries d.fault).value.store.rows = _
    rw [value_ingest]
  rw [hrows, value_register, Std.ExtTreeMap.getElem?_insert, Std.ExtTreeMap.getElem?_insertIfNew]
  simp [Ne.symm h]

/-- A delivery leaves the rows of other indices as they are. -/
theorem rowsOf_delivery_of_ne (s : Store T) (d : Delivery T) {other : Bytes}
    (h : other ≠ d.index.id) : (s.perform d.call).2.rowsOf other = s.rowsOf other := by
  have hrows := s.rowsOf_ingest d.adapter d.index d.visibility d.entries d.fault other
  rw [if_neg (Ne.symm h)] at hrows
  exact hrows

/-- A delivery counts its filings. -/
theorem filed_delivery (s : Store T) (d : Delivery T) :
    (s.perform d.call).2.filed = s.filed + (s.files d).length := by
  have hfiled := s.filed_ingest d.adapter d.index d.visibility d.entries d.fault
  rw [(s.value_batchEnd d).2.1] at hfiled
  exact hfiled

/-- A delivery returns the row ids of its filings, if the host does not fail, and then nothing else
is filed than the entries that have rows. -/
theorem reply_delivery (s : Store T) (d : Delivery T) :
    ∃ written told fault, (s.perform d.call).1 = .ingested written told fault ∧
      (fault = none → written = (s.files d).flatMap (·.info.rowIds) ∧
        (s.files d).map (fun f ↦ (f.entry, f.info)) =
          d.entries.filterMap (s.origin d).content?) ∧
      ∀ x, fault = some x → ∃ n, d.fault n = some x := by
  let done := s.batchEnd d.adapter d.index d.visibility d.entries d.fault
  refine ⟨done.written, done.told, done.fault, ?_, (s.value_batchEnd d).2.2, ?_⟩
  · let ingested := (s.ingest d.adapter d.index d.visibility d.entries d.fault).value
    change Reply.ingested ingested.written ingested.told ingested.fault = _
    simp only [ingested, value_ingest, done]
  · intro x hx
    exact Batch.exists_of_fault_run (s.origin d) d.fault 0 d.entries
      (b := s.batchStart d.adapter d.index) rfl hx

/-! ## Sequences of deliveries -/

/-- Deliveries into one index store their filings there, one after the other. -/
theorem rowsOf_deliveries (s : Store T) {index : Bytes} {deliveries : List (Delivery T)}
    (h : ∀ d ∈ deliveries, d.index.id = index) :
    (s.after (deliveries.map (·.call))).rowsOf index =
      (s.filesEach deliveries).foldl RowSet.stored (s.rowsOf index) := by
  induction deliveries generalizing s with
  | nil => rfl
  | cons d rest ih =>
    obtain ⟨hd, hrest⟩ := List.forall_mem_cons.mp h
    rw [List.map_cons, after_cons, ih _ hrest, filesEach_cons, List.foldl_append]
    have hrows := s.rowsOf_delivery d
    rw [hd] at hrows
    rw [hrows]

/-- Deliveries into one index leave the row sets of others as they are. -/
theorem rows_deliveries_of_ne (s : Store T) {index other : Bytes} {deliveries : List (Delivery T)}
    (h : ∀ d ∈ deliveries, d.index.id = index) (hne : other ≠ index) :
    (s.after (deliveries.map (·.call))).rows[other]? = s.rows[other]? := by
  induction deliveries generalizing s with
  | nil => rfl
  | cons d rest ih =>
    obtain ⟨hd, hrest⟩ := List.forall_mem_cons.mp h
    rw [List.map_cons, after_cons, ih _ hrest]
    exact s.rows_delivery_of_ne d (hd ▸ hne)

/-- What deliveries file is numbered one after the other. -/
theorem numbers_filesEach (s : Store T) (deliveries : List (Delivery T)) :
    (s.filesEach deliveries).map (·.number) =
      List.range' s.filed (s.filesEach deliveries).length := by
  induction deliveries generalizing s with
  | nil => rfl
  | cons d rest ih =>
    rw [filesEach_cons, List.map_append, ih, files, Origin.numbers_filings, List.length_append,
      filed_delivery, files]
    exact List.range'_append_1

/-- What is filed belongs to one of the deliveries. -/
theorem mem_filesEach {s : Store T} {deliveries : List (Delivery T)} {f : Filing T} :
    f ∈ s.filesEach deliveries ↔ ∃ p ∈ s.stages deliveries, f ∈ p.1.files p.2 :=
  List.mem_flatMap

/-- What is filed is well-formed. -/
theorem wf_of_mem_files {s : Store T} {d : Delivery T} {f : Filing T} (h : f ∈ s.files d) :
    f.info.WF :=
  Origin.wf_of_info? (Origin.of_mem_filings h).2

end Store

end RowVault
