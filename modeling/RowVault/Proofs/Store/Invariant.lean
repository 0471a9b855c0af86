import RowVault.Proofs.Store.Deletion
import RowVault.Proofs.Store.History

/-!
# What every history keeps

In a reachable store, entries are stored whole in every index, numbers of filings are below the
number of filings so far, and rows are stored in registered indices only. An ingest adds filings of
its own entries under new numbers, and otherwise rows are only removed, filing by filing.
-/

namespace RowVault

variable {T : Type}

/-- A filing is an entry of a batch, as it is encoded there. -/
structure Filing.From (adapter : Adapter T) (index : Index) (visibility : VisibilityWriter T)
    (entries : List T) (f : Filing T) : Prop where
  mem : f.entry ∈ entries
  encoded : (encodeEntry adapter index visibility f.entry).value = .ok f.info
  indexed : f.info.isEmpty = false

/-! ## Batches -/

namespace Batch

/-- Filing an entry stores it, wherever the host fails. -/
@[simp] theorem rows_file (b : Batch T) (index : Bytes) (f : Filing T) (fault : Option HostFault) :
    (b.file index f fault).value.rows = b.rows.stored f := by
  rw [file]
  split
  · rfl
  · dsimp only
    rw [Traced.value_bind]
    split <;> rfl

/-- Filing an entry takes the next number, wherever the host fails. -/
@[simp] theorem filed_file (b : Batch T) (index : Bytes) (f : Filing T) (fault : Option HostFault) :
    (b.file index f fault).value.filed = b.filed + 1 := by
  rw [file]
  split
  · rfl
  · dsimp only
    rw [Traced.value_bind]
    split <;> rfl

section

variable {adapter : Adapter T} {index : Index} {visibility : VisibilityWriter T}
  {fault : Nat → Option HostFault}

/-- What filing an entry of a batch keeps, and a failure of the host, is kept by the whole batch. -/
theorem run_induction {P : Batch T → Prop} {entries : List T}
    (hfile : ∀ (b : Batch T) (info : EntryInfo) (entry : T) (position : Nat),
      Filing.From adapter index visibility entries ⟨b.filed, info, entry⟩ → P b →
        P (b.file index.id ⟨b.filed, info, entry⟩ (fault position)).value)
    (hfault : ∀ (b : Batch T) (fault : Option HostFault), P b → P { b with fault })
    (position : Nat) {b : Batch T} (h : P b) :
    P (b.run adapter index visibility fault position entries).value := by
  induction entries generalizing b position with
  | nil =>
    rw [run]
    split
    · exact hfault b _ h
    · exact h
  | cons entry rest ih =>
    have ih := ih fun b info e x hf ↦
      hfile b info e x ⟨List.mem_cons_of_mem entry hf.mem, hf.encoded, hf.indexed⟩
    rw [run]
    split
    · exact hfault b _ h
    · rw [Traced.value_bind]
      cases he : (encodeEntry adapter index visibility entry).value with
      | error e => exact ih (position + 1) h
      | ok info =>
        dsimp only
        cases hn : info.isEmpty with
        | true => exact ih (position + 1) h
        | false =>
          rw [if_neg (by simp), Traced.value_bind]
          have hf := hfile b info entry position ⟨List.mem_cons_self, he, hn⟩ h
          split
          · exact hf
          · exact ih (position + 1) hf

/-- What a batch has come to: entries are whole, numbers are below the next one, and rows are old
ones or those of an entry of the batch under a new number. -/
structure Sound (adapter : Adapter T) (index : Index) (visibility : VisibilityWriter T)
    (entries : List T) (start b : Batch T) : Prop where
  wf : b.rows.WF
  below : ∀ r ∈ b.rows.all, r.filing.number < b.filed
  grows : start.filed ≤ b.filed
  origin : ∀ r ∈ b.rows.all, r ∈ start.rows.all ∨
    (start.filed ≤ r.filing.number ∧ r.filing.From adapter index visibility entries)

/-- No row has the next number. -/
theorem fresh_of_below {b : Batch T} (h : ∀ r ∈ b.rows.all, r.filing.number < b.filed)
    (info : EntryInfo) (entry : T) : b.rows.Fresh ⟨b.filed, info, entry⟩ := by
  intro place r hr
  exact Nat.ne_of_lt (h r (RowSet.mem_all_iff.mpr ⟨place, hr⟩))

/-- Filing an entry of the batch keeps it sound. -/
theorem Sound.file {entries : List T} {start b : Batch T}
    (h : Sound adapter index visibility entries start b) {info : EntryInfo} {entry : T}
    (hf : Filing.From adapter index visibility entries ⟨b.filed, info, entry⟩)
    (fault : Option HostFault) :
    Sound adapter index visibility entries start
      (b.file index.id ⟨b.filed, info, entry⟩ fault).value := by
  have hi : (⟨b.filed, info, entry⟩ : Filing T).info.WF := wf_of_encodeEntry hf.encoded
  have hfresh := fresh_of_below h.below info entry
  have hold : ∀ r ∈ (b.rows.stored ⟨b.filed, info, entry⟩).all,
      r ∈ b.rows.all ∨ r.filing = ⟨b.filed, info, entry⟩ := by
    intro r hr
    obtain ⟨place, hr⟩ := RowSet.mem_all_iff.mp hr
    rcases (RowSet.getElem?_stored_eq_some_iff h.wf hi hfresh).mp hr with ⟨-, hr, -⟩ | ⟨hr, -⟩
    · exact .inr hr
    · exact .inl (RowSet.mem_all_iff.mpr ⟨place, hr⟩)
  constructor
  · rw [rows_file]
    exact h.wf.stored hi hfresh
  · intro r hr
    rw [rows_file] at hr
    rw [filed_file]
    rcases hold r hr with hr | hr
    · exact Nat.lt_succ_of_lt (h.below r hr)
    · rw [hr]
      exact Nat.lt_succ_self b.filed
  · rw [filed_file]
    exact Nat.le_succ_of_le h.grows
  · intro r hr
    rw [rows_file] at hr
    rcases hold r hr with hr | hr
    · exact h.origin r hr
    · rw [hr]
      exact .inr ⟨h.grows, hf⟩

/-- A batch is sound from its beginning to its end. -/
theorem sound_run {entries : List T} {start : Batch T} (hwf : start.rows.WF)
    (hbelow : ∀ r ∈ start.rows.all, r.filing.number < start.filed) (position : Nat) :
    Sound adapter index visibility entries start
      (start.run adapter index visibility fault position entries).value := by
  refine run_induction ?_ ?_ position ?_
  · intro b info entry position hf hb
    exact hb.file hf (fault position)
  · intro b x hb
    exact ⟨hb.wf, hb.below, hb.grows, hb.origin⟩
  · exact ⟨hwf, hbelow, Nat.le_refl _, fun r hr ↦ .inl hr⟩

end

end Batch

/-! ## Removals -/

/-- Entries are told apart by rows, so the visible rows of an entry are those of whole filings. -/
theorem RowSet.WF.respects_exposes {rows : RowSet T} (h : rows.WF) (data adapter : Bytes)
    (labels : Labels) : rows.Respects (Store.exposes data adapter labels) := by
  intro place other r q hr hq hn
  have hf := h.filing_eq hr hq hn
  have hl : q.row ∈ r.filing.info.rows := hf ▸ h.listed hq
  have hd := (h.sound hr).data_eq (h.listed hr) hl
  have ha := (h.sound hr).adapter_eq (h.listed hr) hl
  simp only [Store.exposes, StoredRow.shows, StoredRow.belongsTo, StoredRow.isVisible, hd, ha, hf]

/-- In one index, what is no visible row of an entry is spared by whole filings. -/
theorem RowSet.WF.respects_spares {rows : RowSet T} (h : rows.WF) (wanted : Bool)
    (data adapter : Bytes) (labels : Labels) :
    rows.Respects fun r ↦ !(wanted && Store.exposes data adapter labels r) := by
  intro place other r q hr hq hn
  have he := h.respects_exposes data adapter labels hr hq hn
  exact congrArg (fun b ↦ !(wanted && b)) he

/-- Victims own rows by the numbers of their filings, so what they do not own is spared by whole
filings. -/
theorem RowSet.respects_spares {X : Type} (rows : RowSet T) (found : List X) (victim : X → Victim T)
    (index : Bytes) : rows.Respects fun r ↦ !found.any fun x ↦ (victim x).owns index r := by
  intro place other r q hr hq hn
  simp only [Victim.owns, hn]

namespace Store

/-- What holds of every reachable store. -/
structure WF (s : Store T) : Prop where
  rows : ∀ index, (s.rowsOf index).WF
  below : ∀ {index : Bytes}, ∀ r ∈ (s.rowsOf index).all, r.filing.number < s.filed
  index_id : ∀ {id : Bytes} {i : Index}, s.indices[id]? = some i → i.id = id
  adapter_id : ∀ {id : Bytes} {a : Adapter T}, s.adapters[id]? = some a → a.id = id
  indexed : ∀ {index : Bytes}, ∀ r ∈ (s.rowsOf index).all, s.indices[index]?.isSome = true

/-- There are no rows at first. -/
theorem rowsOf_fresh (config : Config) (statistics : StatisticsStore) (index : Bytes) :
    (fresh config statistics : Store T).rowsOf index = ∅ := Std.ExtTreeMap.getD_empty

/-- There are no rows to be listed at first. -/
@[simp] theorem all_rowsOf_fresh (config : Config) (statistics : StatisticsStore) (index : Bytes) :
    ((fresh config statistics : Store T).rowsOf index).all = [] := by
  rw [rowsOf_fresh]
  simp [RowSet.all]

/-- There is nothing to ask of a store without rows. -/
theorem wf_fresh (config : Config) (statistics : StatisticsStore) :
    (fresh config statistics : Store T).WF := by
  constructor
  · intro index
    rw [rowsOf_fresh]
    exact RowSet.wf_empty
  · intro index r hr
    simp at hr
  · intro id i hi
    simp [fresh] at hi
  · intro id a ha
    simp [fresh] at ha
  · intro index r hr
    simp at hr

/-- Removing whole filings keeps what holds of a store. -/
theorem WF.trim {s t : Store T} (h : s.WF) {p : Bytes → StoredRow T → Bool}
    (hp : ∀ index, (s.rowsOf index).Respects (p index))
    (hrows : ∀ index, t.rowsOf index = (s.rowsOf index).only (p index)) (hf : s.SameFrame t) :
    t.WF := by
  have hmem : ∀ {index : Bytes}, ∀ r ∈ (t.rowsOf index).all, r ∈ (s.rowsOf index).all := by
    intro index r hr
    rw [hrows, RowSet.all_only] at hr
    exact (List.mem_filter.mp hr).1
  constructor
  · intro index
    rw [hrows]
    exact (h.rows index).only (hp index)
  · intro index r hr
    rw [hf.filed]
    exact h.below r (hmem r hr)
  · intro id i hi
    rw [hf.indices] at hi
    exact h.index_id hi
  · intro id a ha
    rw [hf.adapters] at ha
    exact h.adapter_id ha
  · intro index r hr
    rw [hf.indices]
    exact h.indexed r (hmem r hr)

/-- A row that goes with a hit belongs to the filing of a visible row, and is visible as well. -/
theorem WF.isVisible_of_owns {s : Store T} (h : s.WF) {q : Query} {o : QueryOptions} {hit : Hit T}
    (hm : hit ∈ (s.query q o).value) {index : Bytes} {r : StoredRow T}
    (hr : r ∈ (s.rowsOf index).all) (ho : hit.victim.owns index r = true) :
    r.isVisible o.labels = true := by
  obtain ⟨i, -, hi, hq, hv⟩ := of_mem_query hm
  obtain ⟨hi', hn⟩ := Bool.and_eq_true_iff.mp ho
  have hindex : i.id = index := hi.symm.trans (eq_of_beq hi')
  rw [hindex] at hq
  obtain ⟨place, hq⟩ := RowSet.mem_all_iff.mp hq
  obtain ⟨other, hr⟩ := RowSet.mem_all_iff.mp hr
  have hf := (h.rows index).filing_eq hq hr (eq_of_beq hn)
  rw [StoredRow.isVisible, ← hf]
  exact hv

/-! ## Registration -/

/-- What registering adds. -/
theorem value_register (s : Store T) (adapter : Adapter T) (index : Index) :
    (s.register adapter index).value = { s with
      adapters := s.adapters.insertIfNew adapter.id adapter
      indices := s.indices.insertIfNew index.id index
      rows := s.rows.insertIfNew index.id ∅ } := by
  rw [register]
  split <;> rfl

section

variable (s : Store T) (adapter : Adapter T) (index : Index)

/-- Registering changes no configuration. -/
@[simp] theorem config_register : (s.register adapter index).value.config = s.config := by
  rw [value_register]

/-- Registering files nothing. -/
@[simp] theorem filed_register : (s.register adapter index).value.filed = s.filed := by
  rw [value_register]

/-- Registering counts nothing. -/
@[simp] theorem ledger_register : (s.register adapter index).value.ledger = s.ledger := by
  rw [value_register]

/-- An adapter is registered unless its identifier is taken. -/
theorem adapters_register :
    (s.register adapter index).value.adapters = s.adapters.insertIfNew adapter.id adapter := by
  rw [value_register]

/-- An index is registered unless its identifier is taken. -/
theorem indices_register :
    (s.register adapter index).value.indices = s.indices.insertIfNew index.id index := by
  rw [value_register]

end

/-- Registering changes no rows. -/
@[simp] theorem rowsOf_register (s : Store T) (adapter : Adapter T) (index : Index) (id : Bytes) :
    (s.register adapter index).value.rowsOf id = s.rowsOf id := by
  rw [rowsOf, rowsOf, value_register, Std.ExtTreeMap.getD_insertIfNew]
  split
  · next hc =>
    obtain ⟨he, hn⟩ := hc
    rw [Std.LawfulEqOrd.eq_of_compare he] at hn
    exact (Std.ExtTreeMap.getD_eq_fallback hn).symm
  · rfl

/-- Registering keeps what holds of a store. -/
theorem WF.register {s : Store T} (h : s.WF) (adapter : Adapter T) (index : Index) :
    (s.register adapter index).value.WF := by
  constructor
  · intro id
    rw [rowsOf_register]
    exact h.rows id
  · intro id r hr
    rw [rowsOf_register] at hr
    rw [filed_register]
    exact h.below r hr
  · intro id i hi
    rw [indices_register, Std.ExtTreeMap.getElem?_insertIfNew] at hi
    split at hi
    · next hc =>
      cases hi
      exact Std.LawfulEqOrd.eq_of_compare hc.1
    · exact h.index_id hi
  · intro id a ha
    rw [adapters_register, Std.ExtTreeMap.getElem?_insertIfNew] at ha
    split at ha
    · next hc =>
      cases ha
      exact Std.LawfulEqOrd.eq_of_compare hc.1
    · exact h.adapter_id ha
  · intro id r hr
    rw [rowsOf_register] at hr
    rw [indices_register, Std.ExtTreeMap.getElem?_insertIfNew]
    split
    · rfl
    · exact h.indexed r hr

/-- The adapter that is used after registering is the registered one, under the same identifier. -/
theorem WF.registered {s : Store T} (h : s.WF) (adapter : Adapter T) (index : Index) :
    (s.register adapter index).value.adapters[adapter.id]? =
        some ((s.register adapter index).value.registered adapter) ∧
      ((s.register adapter index).value.registered adapter).id = adapter.id := by
  have hsome : (s.register adapter index).value.adapters[adapter.id]? =
      some ((s.register adapter index).value.registered adapter) := by
    rw [Store.registered, Std.ExtTreeMap.getD_eq_getD_getElem?, adapters_register,
      Std.ExtTreeMap.getElem?_insertIfNew]
    split
    · rfl
    · next hc =>
      have hm : adapter.id ∈ s.adapters := by
        simpa using hc
      rw [Std.ExtTreeMap.getElem?_eq_some_getElem hm]
      rfl
  exact ⟨hsome, (h.register adapter index).adapter_id hsome⟩

/-! ## Ingest -/

/-- The ledger and the tally with which a batch begins. -/
def openedFor (s : Store T) (adapter : Adapter T) (index : Index) : Ledger × Tally :=
  let s := (s.register adapter index).value
  (Tally.openOn s.ledger (s.registered adapter).id (s.registered adapter).statisticKinds).value

/-- The batch of an ingest at its beginning. -/
def batchStart (s : Store T) (adapter : Adapter T) (index : Index) : Batch T where
  rows := s.rowsOf index.id
  tally := (s.openedFor adapter index).2
  filed := s.filed

/-- The batch of an ingest at its end. -/
def batchEnd (s : Store T) (adapter : Adapter T) (index : Index) (visibility : VisibilityWriter T)
    (entries : List T) (fault : Nat → Option HostFault) : Batch T :=
  ((s.batchStart adapter index).run ((s.register adapter index).value.registered adapter) index
    visibility fault 0 entries).value

/-- An ingest runs its batch and puts the rows into the index. -/
theorem value_ingest (s : Store T) (adapter : Adapter T) (index : Index)
    (visibility : VisibilityWriter T) (entries : List T) (fault : Nat → Option HostFault) :
    (s.ingest adapter index visibility entries fault).value =
      let b := s.batchEnd adapter index visibility entries fault
      { written := b.written
        told := b.told
        fault := b.fault
        store := { (s.register adapter index).value with
          rows := (s.register adapter index).value.rows.insert index.id b.rows
          ledger := (b.tally.close (s.openedFor adapter index).1).value
          filed := b.filed } } := by
  have hstart : s.batchStart adapter index =
      { rows := (s.register adapter index).value.rowsOf index.id
        tally := (s.openedFor adapter index).2
        filed := (s.register adapter index).value.filed } := by
    rw [rowsOf_register, value_register]
    rfl
  rw [batchEnd, hstart]
  rfl

section

variable (s : Store T) (adapter : Adapter T) (index : Index) (visibility : VisibilityWriter T)
  (entries : List T) (fault : Nat → Option HostFault)

/-- An ingest changes no configuration. -/
@[simp] theorem config_ingest :
    (s.ingest adapter index visibility entries fault).value.store.config = s.config := by
  rw [value_ingest]
  exact config_register s adapter index

/-- An ingest registers its adapter. -/
theorem adapters_ingest : (s.ingest adapter index visibility entries fault).value.store.adapters =
    (s.register adapter index).value.adapters := by
  rw [value_ingest]

/-- An ingest registers its index. -/
theorem indices_ingest : (s.ingest adapter index visibility entries fault).value.store.indices =
    (s.register adapter index).value.indices := by
  rw [value_ingest]

/-- An ingest files as much as its batch. -/
theorem filed_ingest : (s.ingest adapter index visibility entries fault).value.store.filed =
    (s.batchEnd adapter index visibility entries fault).filed := by
  rw [value_ingest]

end

/-- An ingest changes the rows of its index only. -/
theorem rowsOf_ingest (s : Store T) (adapter : Adapter T) (index : Index)
    (visibility : VisibilityWriter T) (entries : List T) (fault : Nat → Option HostFault)
    (id : Bytes) :
    (s.ingest adapter index visibility entries fault).value.store.rowsOf id =
      if index.id = id then (s.batchEnd adapter index visibility entries fault).rows
      else s.rowsOf id := by
  rw [value_ingest]
  change rowsAt _ id = _
  rw [rowsAt_insert]
  split
  · rfl
  · exact rowsOf_register s adapter index id

/-- The batch of an ingest is sound. -/
theorem WF.batch {s : Store T} (h : s.WF) (adapter : Adapter T) (index : Index)
    (visibility : VisibilityWriter T) (entries : List T) (fault : Nat → Option HostFault) :
    Batch.Sound ((s.register adapter index).value.registered adapter) index visibility entries
      (s.batchStart adapter index) (s.batchEnd adapter index visibility entries fault) :=
  Batch.sound_run (h.rows index.id) (fun r hr ↦ h.below r hr) 0

/-- An ingest keeps what holds of a store. -/
theorem WF.ingest {s : Store T} (h : s.WF) (adapter : Adapter T) (index : Index)
    (visibility : VisibilityWriter T) (entries : List T) (fault : Nat → Option HostFault) :
    (s.ingest adapter index visibility entries fault).value.store.WF := by
  have hb := h.batch adapter index visibility entries fault
  have hr := h.register adapter index
  constructor
  · intro id
    rw [rowsOf_ingest]
    split
    · exact hb.wf
    · exact h.rows id
  · intro id r hm
    rw [rowsOf_ingest] at hm
    rw [filed_ingest]
    split at hm
    · exact hb.below r hm
    · exact Nat.lt_of_lt_of_le (h.below r hm) hb.grows
  · intro id i hi
    rw [indices_ingest] at hi
    exact hr.index_id hi
  · intro id a ha
    rw [adapters_ingest] at ha
    exact hr.adapter_id ha
  · intro id r hm
    rw [rowsOf_ingest] at hm
    rw [indices_ingest]
    split at hm
    · next he =>
      rw [indices_register, ← he, Std.ExtTreeMap.getElem?_insertIfNew]
      split
      · rfl
      · next hc =>
        have hc : index.id ∈ s.indices := by simpa using hc
        rw [Std.ExtTreeMap.getElem?_eq_some_getElem hc]
        rfl
    · rw [← rowsOf_register s adapter index] at hm
      exact hr.indexed r hm

/-! ## Every call -/

/-- The call adds entries of its batch to an index, under numbers that are new. -/
def AddsTo (s : Store T) (c : Call T) (index : Bytes) (f : Filing T) : Prop :=
  ∃ given i visibility entries fault,
    c = .ingest given i visibility entries fault ∧ i.id = index ∧
      f.From ((s.register given i).value.registered given) i visibility entries

/-- The rows of a filing of an index after a call: they are old, or the call has added them. -/
theorem WF.mem_rowsOf_perform {s : Store T} (h : s.WF) {c : Call T} {index : Bytes}
    {r : StoredRow T} (hr : r ∈ ((s.perform c).2.rowsOf index).all) :
    r ∈ (s.rowsOf index).all ∨ (s.filed ≤ r.filing.number ∧ s.AddsTo c index r.filing) := by
  cases c with
  | register adapter i =>
    have hrows : (s.perform (.register adapter i)).2.rowsOf index = s.rowsOf index :=
      rowsOf_register s adapter i index
    rw [hrows] at hr
    exact .inl hr
  | ingest given i visibility entries fault =>
    have hrows : (s.perform (.ingest given i visibility entries fault)).2.rowsOf index = _ :=
      rowsOf_ingest s given i visibility entries fault index
    rw [hrows] at hr
    split at hr
    · next hi =>
      rcases (h.batch given i visibility entries fault).origin r hr with hr | ⟨hn, hf⟩
      · exact .inl (hi ▸ hr)
      · exact .inr ⟨hn, given, i, visibility, entries, fault, rfl, hi, hf⟩
    · exact .inl hr
  | delete q o =>
    have hrows : (s.perform (.delete q o)).2.rowsOf index = _ := s.rowsOf_delete h.rows q o index
    rw [hrows, RowSet.all_only] at hr
    exact .inl (List.mem_filter.mp hr).1
  | deleteEntry i data adapter labels =>
    have hrows : (s.perform (.deleteEntry i data adapter labels)).2.rowsOf index = _ :=
      s.rowsOf_deleteEntry (h.rows i) data adapter labels index
    rw [hrows, RowSet.all_only] at hr
    exact .inl (List.mem_filter.mp hr).1

/-- Every call keeps what holds of a store. -/
theorem WF.perform {s : Store T} (h : s.WF) (c : Call T) : (s.perform c).2.WF := by
  cases c with
  | register adapter index => exact h.register adapter index
  | ingest adapter index visibility entries fault =>
    exact h.ingest adapter index visibility entries fault
  | delete q o =>
    refine h.trim ?_ (s.rowsOf_delete h.rows q o) (s.sameFrame_delete h.rows q o)
    intro index
    exact RowSet.respects_spares _ _ Hit.victim index
  | deleteEntry index data adapter labels =>
    refine h.trim ?_ (s.rowsOf_deleteEntry (h.rows index) data adapter labels)
      (s.sameFrame_deleteEntry (h.rows index) data adapter labels)
    intro i
    exact (h.rows i).respects_spares (index == i) data adapter labels

/-- No call changes the configuration. -/
theorem WF.config_perform {s : Store T} (h : s.WF) (c : Call T) :
    (s.perform c).2.config = s.config := by
  cases c with
  | register adapter index => exact config_register s adapter index
  | ingest adapter index visibility entries fault =>
    exact config_ingest s adapter index visibility entries fault
  | delete q o => exact (s.sameFrame_delete h.rows q o).config
  | deleteEntry index data adapter labels =>
    exact (s.sameFrame_deleteEntry (h.rows index) data adapter labels).config

/-- What holds of a store is kept by a history. -/
theorem WF.after {s : Store T} (h : s.WF) (calls : List (Call T)) : (s.after calls).WF :=
  after_induction (fun _ c hs ↦ hs.perform c) h calls

/-- No history changes the configuration. -/
theorem WF.config_after {s : Store T} (h : s.WF) (calls : List (Call T)) :
    (s.after calls).config = s.config := by
  have hboth : (s.after calls).WF ∧ (s.after calls).config = s.config :=
    after_induction (P := fun t ↦ t.WF ∧ t.config = s.config)
      (fun t c ht ↦ ⟨ht.1.perform c, (ht.1.config_perform c).trans ht.2⟩) ⟨h, rfl⟩ calls
  exact hboth.2

/-- Every reachable store is well-formed. -/
theorem Reachable.wf {s : Store T} (h : s.Reachable) : s.WF :=
  h.induction wf_fresh fun _ c hs ↦ hs.perform c

end Store

end RowVault
