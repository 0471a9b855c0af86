import RowVault.Proofs.Store.Invariant

/-!
# Statistics have no say in anything else

Stores that differ in their ledgers only give the same replies to the same calls and keep the same
rows, whatever their statistics stores make of the changes that they are handed.
-/

namespace RowVault

variable {T : Type}

namespace Batch

private theorem value_file_tally (b : Batch T) (tally : Tally) (index : Bytes) (f : Filing T)
    (fault : Option HostFault) :
    ∃ after, ({ b with tally }.file index f fault).value =
      { (b.file index f fault).value with tally := after } := by
  unfold file
  by_cases hs : fault = some .sink
  · subst hs
    exact ⟨_, rfl⟩
  · by_cases hc : fault = some .callback
    · subst hc
      exact ⟨_, rfl⟩
    · simp only [hs, hc, if_false]
      exact ⟨_, rfl⟩

/-- The tally of a batch has no say in how the batch runs. -/
theorem value_run_tally (adapter : Adapter T) (index : Index) (visibility : VisibilityWriter T)
    (fault : Nat → Option HostFault) (position : Nat) (b : Batch T) (tally : Tally)
    (entries : List T) :
    ∃ after, ({ b with tally }.run adapter index visibility fault position entries).value =
      { (b.run adapter index visibility fault position entries).value with tally := after } := by
  induction entries generalizing b tally position with
  | nil =>
    unfold run
    split
    · exact ⟨_, rfl⟩
    · exact ⟨_, rfl⟩
  | cons entry rest ih =>
    unfold run
    split
    · exact ⟨_, rfl⟩
    · simp only [Traced.value_bind]
      cases (encodeEntry adapter index visibility entry).value with
      | error e => exact ih (position + 1) b tally
      | ok info =>
        dsimp only
        cases info.isEmpty with
        | true => exact ih (position + 1) b tally
        | false =>
          obtain ⟨after, hf⟩ :=
            b.value_file_tally tally index.id ⟨b.filed, info, entry⟩ (fault position)
          simp only [Bool.false_eq_true, if_false, Traced.value_bind, hf]
          split
          · exact ⟨_, rfl⟩
          · exact ih (position + 1) _ after

end Batch

namespace Store

/-- Stores that agree in everything but their ledgers. -/
structure SameRows (s t : Store T) : Prop where
  config : s.config = t.config
  adapters : s.adapters = t.adapters
  indices : s.indices = t.indices
  filed : s.filed = t.filed
  rows : ∀ index, s.rowsOf index = t.rowsOf index

namespace SameRows

variable {s t : Store T}

/-- Queries yield the same. -/
theorem value_query (h : s.SameRows t) (q : Query) (o : QueryOptions) (take : Option Nat) :
    (s.query q o take).value = (t.query q o take).value := by
  have htargeted : s.targeted o.index = t.targeted o.index := by
    simp only [targeted, targets, h.indices]
  have hstart : IndexScan.start s q = IndexScan.start t q := by
    funext i
    simp only [IndexScan.start, rowsFor, h.config, h.rows]
  rw [Store.value_query, Store.value_query, h.config, listing, listing, htargeted, hstart]

/-- Registering gives the same adapter. -/
theorem register (h : s.SameRows t) (adapter : Adapter T) (index : Index) :
    (s.register adapter index).value.registered adapter =
        (t.register adapter index).value.registered adapter ∧
      (s.register adapter index).value.SameRows (t.register adapter index).value := by
  have hadapters : (s.register adapter index).value.adapters =
      (t.register adapter index).value.adapters := by
    rw [adapters_register, adapters_register, h.adapters]
  refine ⟨by rw [registered, registered, hadapters], ?_, hadapters, ?_, ?_, ?_⟩
  · rw [config_register, config_register, h.config]
  · rw [indices_register, indices_register, h.indices]
  · rw [filed_register, filed_register, h.filed]
  · intro i
    rw [rowsOf_register, rowsOf_register, h.rows]

/-- Batches run alike, apart from their tallies. -/
theorem batchEnd (h : s.SameRows t) (adapter : Adapter T) (index : Index)
    (visibility : VisibilityWriter T) (entries : List T) (fault : Nat → Option HostFault) :
    ∃ tally, t.batchEnd adapter index visibility entries fault =
      { s.batchEnd adapter index visibility entries fault with tally } := by
  have hstart : t.batchStart adapter index =
      { s.batchStart adapter index with tally := (t.batchStart adapter index).tally } := by
    rw [batchStart, batchStart, h.rows, h.filed]
  rw [Store.batchEnd, Store.batchEnd, hstart, (h.register adapter index).1]
  exact Batch.value_run_tally _ _ _ _ _ _ _ _

/-- An ingest writes the same entries. -/
theorem ingest (h : s.SameRows t) (adapter : Adapter T) (index : Index)
    (visibility : VisibilityWriter T) (entries : List T) (fault : Nat → Option HostFault) :
    (s.ingest adapter index visibility entries fault).value.store.SameRows
      (t.ingest adapter index visibility entries fault).value.store := by
  obtain ⟨-, hsame⟩ := h.register adapter index
  obtain ⟨tally, hb⟩ := h.batchEnd adapter index visibility entries fault
  constructor
  · rw [config_ingest, config_ingest, h.config]
  · rw [adapters_ingest, adapters_ingest, hsame.adapters]
  · rw [indices_ingest, indices_ingest, hsame.indices]
  · rw [filed_ingest, filed_ingest, hb]
  · intro i
    rw [rowsOf_ingest, rowsOf_ingest, hb, h.rows]

/-- Every call is replied to in the same way, and stores that agree still do so afterwards. -/
theorem perform (h : s.SameRows t) (hs : s.WF) (ht : t.WF) (c : Call T) :
    (s.perform c).1 = (t.perform c).1 ∧ (s.perform c).2.SameRows (t.perform c).2 := by
  cases c with
  | register adapter index =>
    obtain ⟨hadapter, hsame⟩ := h.register adapter index
    exact ⟨congrArg Reply.registered hadapter, hsame⟩
  | ingest adapter index visibility entries fault =>
    obtain ⟨tally, hb⟩ := h.batchEnd adapter index visibility entries fault
    refine ⟨?_, h.ingest adapter index visibility entries fault⟩
    simp only [Store.perform, value_ingest, hb]
  | delete q o =>
    have hq := h.value_query q o none
    obtain ⟨_, _, hv, hrows⟩ := s.value_delete hs.rows q o
    obtain ⟨_, _, hv', hrows'⟩ := t.value_delete ht.rows q o
    simp only [Store.perform, hv, hv', hq]
    refine ⟨trivial, h.config, h.adapters, h.indices, h.filed, ?_⟩
    intro i
    refine (hrows i).trans (.trans ?_ (hrows' i).symm)
    rw [hq, h.rows]
  | deleteEntry index data adapter labels =>
    obtain ⟨_, _, hv, hrows⟩ := s.value_deleteEntry (hs.rows index) data adapter labels
    obtain ⟨_, _, hv', hrows'⟩ := t.value_deleteEntry (ht.rows index) data adapter labels
    simp only [Store.perform, hv, hv', h.rows]
    refine ⟨trivial, h.config, h.adapters, h.indices, h.filed, ?_⟩
    intro i
    refine (hrows i).trans (.trans ?_ (hrows' i).symm)
    rw [h.rows]

/-- Histories are replied to in the same way, and lead to the same rows. -/
theorem after (h : s.SameRows t) (hs : s.WF) (ht : t.WF) (calls : List (Call T)) :
    s.replies calls = t.replies calls ∧ (s.after calls).SameRows (t.after calls) := by
  induction calls generalizing s t with
  | nil => exact ⟨rfl, h⟩
  | cons c rest ih =>
    obtain ⟨hreply, hnext⟩ := h.perform hs ht c
    obtain ⟨hreplies, hafter⟩ := ih hnext (hs.perform c) (ht.perform c)
    exact ⟨by rw [replies, replies, hreply, hreplies], hafter⟩

end SameRows

end Store

end RowVault
