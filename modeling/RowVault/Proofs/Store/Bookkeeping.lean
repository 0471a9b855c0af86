import RowVault.Proofs.Statistic.Tallies
import RowVault.Proofs.Store.Deliveries
import RowVault.Proofs.Store.Owners

/-!
# Booking entries

Every call of a host whose adapters name themselves books the entries that come and those that go
for one adapter at a time, and these are the difference of the adapter's owners before and after. So
the statistics of each key stay balanced: they come to what the owners add up to. Numbers stay in
range as long as there have not been too many filings.

Where the host fails once the rows of an entry are stored, this entry is missed. From then on the
statistics are balanced but for the entries that have been missed, whatever becomes of their rows.
-/

namespace RowVault

variable {T : Type}

/-- The encodings of the adapter name the adapter itself. -/
def Adapter.NamesItself (a : Adapter T) : Prop :=
  ∀ entry model, (a.encode entry model).adapter = a.id

/-- The adapter of the call names itself. -/
def Call.NamesItself : Call T → Prop
  | .register adapter _ => adapter.NamesItself
  | .ingest adapter _ _ _ _ => adapter.NamesItself
  | .delete _ _ => True
  | .deleteEntry _ _ _ _ => True

/-- The adapter of the call names itself, and the host fails at most while it encodes an entry. -/
def Call.Steady : Call T → Prop
  | .register adapter _ => adapter.NamesItself
  | .ingest adapter _ _ _ fault =>
    adapter.NamesItself ∧ ∀ position, fault position = none ∨ fault position = some .encoding
  | .delete _ _ => True
  | .deleteEntry _ _ _ _ => True

/-- The adapter of a steady call names itself in particular. -/
theorem Call.Steady.namesItself {c : Call T} (h : c.Steady) : c.NamesItself := by
  cases c with
  | register adapter index => exact h
  | ingest adapter index visibility entries fault => exact h.1
  | delete q o => trivial
  | deleteEntry index data adapter labels => trivial

private theorem perm_replace {before after displaced come gone start : List EntryInfo}
    {i : EntryInfo}
    (h : (after ++ displaced).Perm (i :: before)) (h' : (before ++ gone).Perm (come ++ start)) :
    (after ++ (gone ++ displaced)).Perm ((come ++ [i]) ++ start) := by
  rw [List.perm_iff_count] at *
  intro a
  have h := h a
  have h' := h' a
  simp only [List.count_append, List.count_cons, List.count_nil] at *
  omega

private theorem perm_exchange {after before now was come gone : List EntryInfo}
    (h : (after ++ was).Perm (before ++ now)) (h' : (now ++ gone).Perm (come ++ was)) :
    (after ++ gone).Perm (come ++ before) := by
  rw [List.perm_iff_count] at *
  intro a
  have h := h a
  have h' := h' a
  simp only [List.count_append] at *
  omega

namespace Batch

variable {adapter : Adapter T} {index : Index} {visibility : VisibilityWriter T}
  {entries : List T} {start b : Batch T} {come missed gone : List EntryInfo}

/-- A batch has come to a point where its tally holds entries that came and entries that went. With
those that came and were missed, they are the difference between the owners at the beginning and
now. -/
structure Accounts (adapter : Adapter T) (start b : Batch T) (come missed gone : List EntryInfo) :
    Prop where
  holds : b.tally.Holds adapter.id adapter.statisticKinds come gone
  filed : b.filed = start.filed + (come ++ missed).length
  owners : (b.rows.infos adapter.id ++ gone).Perm
    ((come ++ missed) ++ start.rows.infos adapter.id)
  others : ∀ other, other ≠ adapter.id → (b.rows.infos other).Perm (start.rows.infos other)

namespace Accounts

/-- A failure of the host changes no account. -/
theorem fail (h : Accounts adapter start b come missed gone) (x : Option HostFault) :
    Accounts adapter start { b with fault := x } come missed gone :=
  ⟨h.holds, h.filed, h.owners, h.others⟩

private theorem of_tally (h : Accounts adapter start b come [] gone)
    (hb : Sound adapter index visibility entries start b) (ha : adapter.NamesItself)
    {info : EntryInfo} {entry : T}
    (hf : Filing.From adapter index visibility entries ⟨b.filed, info, entry⟩)
    {fault : Option HostFault} {now : List EntryInfo}
    (ht : (b.file index.id ⟨b.filed, info, entry⟩ fault).value.tally.Holds adapter.id
      adapter.statisticKinds now (gone ++ (b.rows.displaced ⟨b.filed, info, entry⟩).map (·.info)))
    (hnow : now ++ missed = come ++ [info]) :
    Accounts adapter start (b.file index.id ⟨b.filed, info, entry⟩ fault).value now missed
      (gone ++ (b.rows.displaced ⟨b.filed, info, entry⟩).map (·.info)) := by
  have hi : (⟨b.filed, info, entry⟩ : Filing T).info.WF := wf_of_encodeEntry hf.encoded
  have hfresh := fresh_of_below hb.below info entry
  have hnames : ∀ l ∈ info.rows, l.id.adapter = adapter.id := by
    intro l hl
    rw [adapter_of_encodeEntry hf.encoded hl]
    exact ha entry index.model
  have hne : info.rows ≠ [] := by
    intro hn
    have hempty := hf.indexed
    simp [EntryInfo.isEmpty, hn] at hempty
  constructor
  · exact ht
  · rw [filed_file, h.filed, hnow, List.append_nil, List.length_append]
    rfl
  · rw [rows_file, hnow]
    have hperm := (RowSet.perm_filings_stored hb.wf hi hfresh hne hnames).map (·.info)
    have howners := h.owners
    rw [List.map_append, List.map_cons] at hperm
    rw [List.append_nil] at howners
    exact perm_replace hperm howners
  · intro other ho
    rw [rows_file]
    refine ((RowSet.perm_filings_stored_of_ne hb.wf hi hfresh ?_).map _).trans (h.others other ho)
    intro l hl
    rw [hnames l hl]
    exact Ne.symm ho

/-- An entry that is filed and observed is one that came. -/
theorem file (h : Accounts adapter start b come [] gone)
    (hb : Sound adapter index visibility entries start b) (ha : adapter.NamesItself)
    {info : EntryInfo} {entry : T}
    (hf : Filing.From adapter index visibility entries ⟨b.filed, info, entry⟩) :
    Accounts adapter start (b.file index.id ⟨b.filed, info, entry⟩ none).value (come ++ [info]) []
      (gone ++ (b.rows.displaced ⟨b.filed, info, entry⟩).map (·.info)) := by
  have htally : (b.file index.id ⟨b.filed, info, entry⟩ none).value.tally =
      (((b.rows.displaced ⟨b.filed, info, entry⟩).map (·.info)).foldl Tally.deleted
        b.tally).ingested info := by
    rw [List.foldl_map]
    rfl
  refine h.of_tally hb ha hf ?_ (List.append_nil _)
  rw [htally]
  exact (h.holds.deletedEach _).ingested info

/-- An entry that is filed and not observed is missed. -/
theorem file_missed (h : Accounts adapter start b come [] gone)
    (hb : Sound adapter index visibility entries start b) (ha : adapter.NamesItself)
    {info : EntryInfo} {entry : T}
    (hf : Filing.From adapter index visibility entries ⟨b.filed, info, entry⟩) {x : HostFault}
    (hx : x ≠ .encoding) :
    Accounts adapter start (b.file index.id ⟨b.filed, info, entry⟩ (some x)).value come [info]
      (gone ++ (b.rows.displaced ⟨b.filed, info, entry⟩).map (·.info)) := by
  have htally : (b.file index.id ⟨b.filed, info, entry⟩ (some x)).value.tally =
      ((b.rows.displaced ⟨b.filed, info, entry⟩).map (·.info)).foldl Tally.deleted b.tally := by
    rw [List.foldl_map]
    cases x with
    | encoding => exact absurd rfl hx
    | sink => rfl
    | callback => rfl
  refine h.of_tally hb ha hf ?_ rfl
  rw [htally]
  exact h.holds.deletedEach _

/-- A batch keeps account of the owners to its end, wherever the host fails. -/
theorem run {o : Origin T} {all : List T} (fault : Nat → Option HostFault) (position : Nat)
    (h : Accounts o.adapter start b come [] gone) (ha : o.adapter.NamesItself)
    (hb : Sound o.adapter o.index o.visibility all start b) (hn : b.fault = none)
    (hall : ∀ entry ∈ entries, entry ∈ all) :
    ∃ come gone, Accounts o.adapter start
      (b.run o.adapter o.index o.visibility fault position entries).value come
        (o.missed fault position entries) gone := by
  induction entries generalizing b come gone position with
  | nil =>
    rw [Batch.run]
    split
    · exact ⟨come, gone, h.fail _⟩
    · exact ⟨come, gone, h⟩
  | cons entry rest ih =>
    obtain ⟨hentry, hrest⟩ := List.forall_mem_cons.mp hall
    by_cases hx : fault position = some .encoding
    · rw [Batch.run, if_pos hx, Origin.missed, if_pos hx]
      exact ⟨come, gone, h.fail _⟩
    · rw [Origin.missed, if_neg hx]
      cases hi : o.info? entry with
      | none =>
        rw [value_run_cons_of_none hx hi]
        exact ih (position + 1) h hb hn hrest
      | some info =>
        obtain ⟨hencoded, hindexed⟩ := Origin.info?_eq_some_iff.mp hi
        have hf : Filing.From o.adapter o.index o.visibility all ⟨b.filed, info, entry⟩ :=
          ⟨hentry, hencoded, hindexed⟩
        rw [value_run_cons_of_some hx hi]
        cases hp : fault position with
        | none =>
          have hfault := (value_file_none b o.index.id ⟨b.filed, info, entry⟩).1.trans hn
          have hfiled := ih (position + 1) (h.file hb ha hf) (hb.file hf none) hfault hrest
          simpa [hfault] using hfiled
        | some x =>
          -- The batch ends here, so no other entry is missed.
          have hne : x ≠ .encoding := fun he ↦ hx (he ▸ hp)
          have hfault := fault_file_some b o.index.id ⟨b.filed, info, entry⟩ hne
          have hfiled := h.file_missed hb ha hf hne
          simpa [hfault] using ⟨come, _, hfiled⟩

end Accounts

/-- A batch that has just begun has nothing to account for. -/
theorem accounts_start (hs : start.tally = Tally.start adapter.id adapter.statisticKinds) :
    Accounts adapter start start [] [] [] where
  holds := by
    rw [hs]
    exact Tally.holds_start _ _
  filed := rfl
  owners := by
    rw [List.append_nil, List.append_nil, List.nil_append]
  others _ _ := .refl _

end Batch

namespace Store

variable {s t : Store T} {adapter : Bytes} {come unseen gone : List EntryInfo}
  {missed : Bytes → List EntryInfo}

/-- The contents of the entries that own rows of an adapter, each once for each index. -/
def ownerInfos (s : Store T) (adapter : Bytes) : List EntryInfo := (s.owners adapter).map (·.2.info)

/-- How often the adapter of a key lists its kind; an adapter that is not registered lists
nothing. -/
def listed (s : Store T) (c : StatisticKey) : Nat := (s.kindsOf c.adapter).count c.kind

/-- Where the statistics of a key stand: with what was missed, the sum is what the owners add up to,
and the volume leaves room for taking all of them back. -/
structure Balance (s : Store T) (missed : List EntryInfo) (c : StatisticKey) (a : Axis) : Prop where
  sum_eq : s.ledger.sum c a + s.listed c * EntryInfo.marks missed c.kind a =
    s.listed c * EntryInfo.marks (s.ownerInfos c.adapter) c.kind a
  volume_le : s.ledger.volume c a +
      s.listed c * ((s.ownerInfos c.adapter).length + missed.length) ≤
    2 * s.filed * s.listed c

/-- A key stays balanced while its sum and its owners stay the same. -/
theorem Balance.of_perm {c : StatisticKey} {a : Axis} {missed : List EntryInfo}
    (h : s.Balance missed c a) (hsum : t.ledger.sum c a = s.ledger.sum c a)
    (hvolume : t.ledger.volume c a ≤ s.ledger.volume c a) (hlisted : t.listed c = s.listed c)
    (hfiled : s.filed ≤ t.filed)
    (howners : (t.ownerInfos c.adapter).Perm (s.ownerInfos c.adapter)) :
    t.Balance missed c a := by
  constructor
  · rw [hsum, hlisted, EntryInfo.marks_perm howners]
    exact h.sum_eq
  · rw [hlisted, howners.length_eq]
    have hroom := Nat.mul_le_mul_right (s.listed c) (Nat.mul_le_mul_left 2 hfiled)
    have hvolume' := h.volume_le
    omega

/-- What holds after calls whose adapters name themselves: rows come from registered adapters, which
name themselves, and the statistics of every key whose numbers stay in range are balanced but for
what was missed. -/
structure BalancedBut (s : Store T) (missed : Bytes → List EntryInfo) : Prop where
  sane : s.ledger.Sane
  honest : ∀ {id : Bytes} {a : Adapter T}, s.adapters[id]? = some a → a.NamesItself
  known : ∀ {index : Bytes}, ∀ r ∈ (s.rowsOf index).all, s.adapters[r.row.id.adapter]?.isSome = true
  missed_eq_nil : ∀ {id : Bytes}, s.adapters[id]? = none → missed id = []
  balance : ∀ c, 2 * s.filed * s.listed c < 2 ^ 63 → ∀ a, s.Balance (missed c.adapter) c a

/-- What holds after steady calls: nothing was missed. -/
def Balanced (s : Store T) : Prop := s.BalancedBut fun _ ↦ []

/-- Without rows and totals everything is balanced. -/
theorem balanced_fresh {config : Config} {verdict : List StatisticCall → StatisticCall → Verdict}
    (h : ∀ before call expected found, verdict before call ≠ .reject expected found) :
    (fresh config { verdict } : Store T).Balanced where
  sane := Ledger.sane_of_verdict h
  honest ha := by simp [fresh] at ha
  known {index} r hr := by
    simp at hr
  missed_eq_nil _ := rfl
  balance c _ a := by
    have htotal : (fresh config { verdict } : Store T).ledger.total c = .empty c.kind :=
      Std.ExtTreeMap.getD_empty
    have howners : (fresh config { verdict } : Store T).ownerInfos c.adapter = [] := rfl
    have hparked : (fresh config { verdict } : Store T).ledger.parked c = [] := rfl
    constructor
    · simp [Ledger.sum, htotal, hparked, howners]
    · simp [Ledger.volume, htotal, hparked, howners]

/-! ## Booking -/

/-- From one store to the next one, entries that come and entries that go have been booked for an
adapter. With those that came and were missed, they are the difference of its owners. -/
structure Booked (s t : Store T) (adapter : Bytes) (come unseen gone : List EntryInfo) : Prop where
  books : s.ledger.Books t.ledger adapter (s.kindsOf adapter) come gone
  adapters : t.adapters = s.adapters
  filed : t.filed = s.filed + (come ++ unseen).length
  owners : (t.ownerInfos adapter ++ gone).Perm ((come ++ unseen) ++ s.ownerInfos adapter)
  others : ∀ other, other ≠ adapter → (t.ownerInfos other).Perm (s.ownerInfos other)

/-- A key stays balanced when the difference of owners is booked, but for what is missed anew. -/
theorem BalancedBut.balance_of_booked (h : s.BalancedBut missed)
    (hb : s.Booked t adapter come unseen gone) {c : StatisticKey}
    (hc : 2 * t.filed * t.listed c < 2 ^ 63) (a : Axis) :
    t.Balance (missed c.adapter ++ if c.adapter = adapter then unseen else []) c a := by
  have hlisted : t.listed c = s.listed c := by
    rw [listed, listed, kindsOf, kindsOf, hb.adapters]
  have hgrowth : 2 * t.filed * t.listed c = 2 * s.filed * s.listed c +
      2 * (s.listed c * come.length) + 2 * (s.listed c * unseen.length) := by
    rw [hlisted, hb.filed, List.length_append]
    grind
  have hbefore := h.balance c (by omega) a
  have hsum := hbefore.sum_eq
  have hvolume := hbefore.volume_le
  have hgrows := hb.books.grows c a
  rw [Nat.mul_add] at hvolume
  by_cases ha : c.adapter = adapter
  · have hshare : Ledger.share adapter (s.kindsOf adapter) c = s.listed c := by
      rw [Ledger.share, if_pos ha, listed, ha]
    have howners := hb.owners
    rw [← ha] at howners
    have hlength := howners.length_eq
    have hmarks := EntryInfo.marks_perm howners c.kind a
    simp only [List.length_append] at hlength
    simp only [EntryInfo.marks_append] at hmarks
    have hproduct := congrArg (s.listed c * ·) hlength
    simp only [Nat.mul_add] at hproduct
    rw [hshare, Nat.mul_add] at hgrows
    obtain ⟨hsum', hvolume'⟩ := hgrows (by omega)
    rw [if_pos ha]
    constructor
    · have hproduct' := congrArg ((s.listed c : Int) * ·) hmarks
      simp only [Int.mul_add] at hproduct'
      rw [hsum', hlisted, EntryInfo.marks_append, Int.mul_sub, Int.mul_add]
      omega
    · rw [hlisted] at hgrowth ⊢
      rw [List.length_append, Nat.mul_add, Nat.mul_add]
      omega
  · have hshare : Ledger.share adapter (s.kindsOf adapter) c = 0 := if_neg ha
    rw [hshare, Nat.zero_mul, Nat.add_zero] at hgrows
    obtain ⟨hsum', hvolume'⟩ := hgrows (by omega)
    rw [if_neg ha, List.append_nil]
    refine hbefore.of_perm ?_ hvolume' hlisted ?_ (hb.others c.adapter ha)
    · simp [hsum']
    · rw [hb.filed]
      exact Nat.le_add_right _ _

/-! ## Registration and ingest -/

/-- Registering does not change the kinds of a registered adapter. -/
theorem kindsOf_register (s : Store T) (a : Adapter T) (index : Index) {id : Bytes}
    (h : s.adapters[id]?.isSome = true) : (s.register a index).value.kindsOf id = s.kindsOf id := by
  have hsame : (s.register a index).value.adapters[id]? = s.adapters[id]? := by
    rw [adapters_register, Std.ExtTreeMap.getElem?_insertIfNew]
    apply if_neg
    rintro ⟨he, hn⟩
    rw [Std.ExtTreeMap.isSome_getElem?_iff_mem, ← Std.LawfulEqOrd.eq_of_compare he] at h
    exact hn h
  rw [kindsOf, kindsOf, hsame]

/-- An adapter that is not registered has no owners. -/
theorem BalancedBut.ownerInfos_eq_nil (h : s.BalancedBut missed) (hs : s.WF)
    (hn : s.adapters[adapter]? = none) : s.ownerInfos adapter = [] := by
  rw [ownerInfos, List.map_eq_nil_iff, List.eq_nil_iff_forall_not_mem]
  rintro ⟨i, f⟩ hm
  obtain ⟨r, hr, hra, -⟩ := hs.mem_owners.mp hm
  have hk := h.known r hr
  rw [eq_of_beq hra, hn] at hk
  cases hk

/-- A key whose adapter has no owners and was not registered is balanced. -/
theorem BalancedBut.balance_of_unknown (h : s.BalancedBut missed) {c : StatisticKey}
    (hn : s.adapters[c.adapter]? = none) (hledger : t.ledger = s.ledger)
    (hempty : t.ownerInfos c.adapter = []) (a : Axis) : t.Balance (missed c.adapter) c a := by
  have hlisted : s.listed c = 0 := by
    rw [listed, kindsOf, hn]
    rfl
  obtain ⟨hsum, hvolume⟩ := h.balance c (by rw [hlisted, Nat.mul_zero]; decide) a
  rw [hlisted] at hsum hvolume
  rw [h.missed_eq_nil hn] at hsum ⊢
  constructor
  · rw [hledger, hempty]
    simpa using hsum
  · rw [hledger, hempty]
    simp only [List.length_nil, Nat.mul_zero, Nat.add_zero, Nat.zero_mul] at hvolume ⊢
    omega

/-- An adapter that is not registered has no owners, so its first registration keeps the
balance. -/
theorem BalancedBut.register (h : s.BalancedBut missed) (hs : s.WF) {a : Adapter T}
    (ha : a.NamesItself) (index : Index) : (s.register a index).value.BalancedBut missed := by
  have hledger := s.ledger_register a index
  constructor
  · rw [hledger]
    exact h.sane
  · intro id b hb
    rw [adapters_register, Std.ExtTreeMap.getElem?_insertIfNew] at hb
    split at hb
    · cases hb
      exact ha
    · exact h.honest hb
  · intro i r hr
    rw [rowsOf_register] at hr
    rw [adapters_register, Std.ExtTreeMap.getElem?_insertIfNew]
    split
    · rfl
    · exact h.known r hr
  · intro id hn
    rw [adapters_register, Std.ExtTreeMap.getElem?_insertIfNew] at hn
    split at hn
    · cases hn
    · exact h.missed_eq_nil hn
  · intro c hc axis
    have howners :
        ((s.register a index).value.ownerInfos c.adapter).Perm (s.ownerInfos c.adapter) :=
      (hs.perm_owners (hs.register a index) c.adapter (rowsOf_register s a index)).map _
    cases hx : s.adapters[c.adapter]? with
    | none =>
      rw [h.ownerInfos_eq_nil hs hx] at howners
      exact h.balance_of_unknown hx hledger howners.eq_nil axis
    | some x =>
      have hlisted : (s.register a index).value.listed c = s.listed c := by
        rw [listed, listed, kindsOf_register s a index (by rw [hx]; rfl)]
      rw [filed_register, hlisted] at hc
      exact (h.balance c hc axis).of_perm (by rw [hledger]) (by rw [hledger])
        hlisted (Nat.le_of_eq (s.filed_register a index).symm) howners

private theorem WF.perm_ownerInfos_ingest (hs : s.WF) (given : Adapter T) (index : Index)
    (visibility : VisibilityWriter T) (entries : List T) (fault : Nat → Option HostFault)
    (adapter : Bytes) :
    ((s.ingest given index visibility entries fault).value.store.ownerInfos adapter ++
      (s.rowsOf index.id).infos adapter).Perm
        ((s.register given index).value.ownerInfos adapter ++
          (s.batchEnd given index visibility entries fault).rows.infos adapter) := by
  have hone : ∀ i, i ≠ index.id →
      (s.ingest given index visibility entries fault).value.store.rowsOf i =
        (s.register given index).value.rowsOf i := by
    intro i hi
    rw [rowsOf_ingest, if_neg (Ne.symm hi), rowsOf_register]
  have hperm := ((hs.register given index).perm_owners_exchange
    (hs.ingest given index visibility entries fault) adapter hone).map (·.2.info)
  rw [List.map_append, List.map_append, rowsOf_register, rowsOf_ingest, if_pos rfl] at hperm
  simpa [ownerInfos, RowSet.infos, Function.comp_def] using hperm

/-- After the registration, a delivery books the entries that come and those that are displaced, but
for the entry that it misses. -/
theorem BalancedBut.booked_delivery (h : s.BalancedBut missed) (hs : s.WF) {d : Delivery T}
    (hd : d.adapter.NamesItself) :
    ∃ come gone, (s.register d.adapter d.index).value.Booked (s.perform d.call).2 d.adapter.id come
      (s.missed d) gone := by
  have hbalanced := h.register hs hd d.index
  obtain ⟨hsome, hid⟩ := hs.registered d.adapter d.index
  have hopened : (s.batchStart d.adapter d.index).tally = _ :=
    Tally.value_openOn_snd (s.register d.adapter d.index).value.ledger _ _
  have hsound : Batch.Sound (s.origin d).adapter d.index d.visibility d.entries
      (s.batchStart d.adapter d.index) (s.batchStart d.adapter d.index) :=
    ⟨hs.rows d.index.id, fun r hr ↦ hs.below r hr, Nat.le_refl _, fun r hr ↦ .inl hr⟩
  obtain ⟨come, gone, hholds, hfiled, howners, hothers⟩ : ∃ come gone, Batch.Accounts
      (s.origin d).adapter (s.batchStart d.adapter d.index)
      (s.batchEnd d.adapter d.index d.visibility d.entries d.fault) come (s.missed d) gone :=
    (Batch.accounts_start hopened).run (o := s.origin d) d.fault 0 (hbalanced.honest hsome) hsound
      rfl fun _ ↦ id
  have hregistered : (s.origin d).adapter.id = d.adapter.id := hid
  rw [hregistered] at hholds howners hothers
  have hexchange := hs.perm_ownerInfos_ingest d.adapter d.index d.visibility d.entries d.fault
  refine ⟨come, gone, ?_, ?_, ?_, ?_, ?_⟩
  · have hkinds : (s.register d.adapter d.index).value.kindsOf d.adapter.id =
        ((s.register d.adapter d.index).value.registered d.adapter).statisticKinds := by
      rw [kindsOf, hsome]
    have hledger := congrArg (·.store.ledger)
      (s.value_ingest d.adapter d.index d.visibility d.entries d.fault)
    rw [hkinds, Delivery.call, perform, hledger, openedFor, hid]
    exact hbalanced.sane.books_close hholds
  · exact adapters_ingest s d.adapter d.index d.visibility d.entries d.fault
  · change (s.ingest d.adapter d.index d.visibility d.entries d.fault).value.store.filed = _
    rw [filed_ingest, filed_register]
    exact hfiled
  · exact perm_exchange (hexchange d.adapter.id) howners
  · intro other ho
    have hindex : ((s.batchEnd d.adapter d.index d.visibility d.entries d.fault).rows.infos other ++
        []).Perm ([] ++ (s.rowsOf d.index.id).infos other) := by
      rw [List.append_nil, List.nil_append]
      exact hothers other ho
    have hperm := perm_exchange (hexchange other) hindex
    rwa [List.append_nil, List.nil_append] at hperm

/-- A delivery of an adapter that names itself keeps the balance, but for the entry that it
misses. -/
theorem BalancedBut.delivery (h : s.BalancedBut missed) (hs : s.WF) {d : Delivery T}
    (hd : d.adapter.NamesItself) :
    (s.perform d.call).2.BalancedBut fun a ↦
      missed a ++ if a = d.adapter.id then s.missed d else [] := by
  have hbalanced := h.register hs hd d.index
  obtain ⟨hsome, hid⟩ := hs.registered d.adapter d.index
  have hsound := hs.batch d.adapter d.index d.visibility d.entries d.fault
  obtain ⟨come, gone, hbooked⟩ := h.booked_delivery hs hd
  constructor
  · exact hbooked.books.sane
  · intro id a hsome
    rw [hbooked.adapters] at hsome
    exact hbalanced.honest hsome
  · intro i r hm
    rw [hbooked.adapters]
    change r ∈ ((s.ingest d.adapter d.index d.visibility d.entries d.fault).value.store.rowsOf
      i).all at hm
    rw [rowsOf_ingest] at hm
    split at hm
    · rcases hsound.origin r hm with hold | ⟨-, hf⟩
      · have hold : r ∈ ((s.register d.adapter d.index).value.rowsOf d.index.id).all := by
          rw [rowsOf_register]
          exact hold
        exact hbalanced.known r hold
      · obtain ⟨place, hplace⟩ := RowSet.mem_all_iff.mp hm
        have hnames := adapter_of_encodeEntry hf.encoded (hsound.wf.listed hplace)
        rw [hnames, hbalanced.honest hsome, hid, hsome]
        rfl
    · rw [← rowsOf_register s d.adapter d.index] at hm
      exact hbalanced.known r hm
  · intro id hn
    rw [hbooked.adapters] at hn
    rw [hbalanced.missed_eq_nil hn, if_neg]
    · rfl
    · rintro rfl
      rw [hsome] at hn
      cases hn
  · intro c hc a
    exact hbalanced.balance_of_booked hbooked hc a

/-! ## Deletions -/

/-- A deletion that settles whole filings of an adapter keeps the balance. -/
theorem BalancedBut.settle (h : s.BalancedBut missed) (hs : s.WF) (adapter : Bytes)
    (gone : List (Bytes × Filing T)) {p : Bytes → StoredRow T → Bool}
    (hp : ∀ i, (s.rowsOf i).Respects (p i)) {rows : Std.ExtTreeMap Bytes (RowSet T)}
    (hrows : ∀ i, rowsAt rows i = (s.rowsOf i).only (p i))
    (hnames : ∀ i, ∀ r ∈ (s.rowsOf i).all, p i r = false → r.names adapter = true)
    (hd : gone.Nodup)
    (hgone : ∀ i f, (i, f) ∈ gone ↔ ∃ r ∈ (s.rowsOf i).all, p i r = false ∧ r.filing = f) :
    (s.settle adapter (gone.map (·.2.info)) rows).WF ∧
      (s.settle adapter (gone.map (·.2.info)) rows).BalancedBut missed := by
  have hwf : (s.settle adapter (gone.map (·.2.info)) rows).WF :=
    hs.trim hp hrows ⟨rfl, rfl, rfl, rfl⟩
  have hbooked : s.Booked (s.settle adapter (gone.map (·.2.info)) rows) adapter [] []
      (gone.map (·.2.info)) := by
    refine ⟨?_, rfl, rfl, ?_, ?_⟩
    · have hholds := (Tally.holds_start adapter (s.kindsOf adapter)).deletedEach
        (gone.map (·.2.info))
      rw [← Tally.value_openOn_snd s.ledger adapter (s.kindsOf adapter)] at hholds
      exact h.sane.books_close hholds
    · have hperm := hs.perm_owners_trim hwf adapter hp hrows hd ?_
      · simpa [ownerInfos] using hperm.map (·.2.info)
      · intro i f
        rw [hgone]
        constructor
        · rintro ⟨r, hr, hk, hf⟩
          exact ⟨r, hr, hnames i r hr hk, hk, hf⟩
        · rintro ⟨r, hr, -, hk, hf⟩
          exact ⟨r, hr, hk, hf⟩
    · intro other ho
      have hperm := hs.perm_owners_trim hwf other hp hrows List.nodup_nil ?_
      · simpa [ownerInfos] using hperm.map (·.2.info)
      · intro i f
        constructor
        · exact nofun
        · rintro ⟨r, hr, ha, hk, -⟩
          have he := (eq_of_beq ha).symm.trans (eq_of_beq (hnames i r hr hk))
          exact absurd he ho
  refine ⟨hwf, hbooked.books.sane, ?_, ?_, ?_, ?_⟩
  · intro id a hsome
    exact h.honest hsome
  · intro i r hr
    have hrow : r ∈ ((s.rowsOf i).only (p i)).all := by
      rw [← hrows]
      exact hr
    rw [RowSet.all_only] at hrow
    exact h.known r (List.mem_filter.mp hrow).1
  · intro id hn
    exact h.missed_eq_nil hn
  · intro c hc a
    have hbalance := h.balance_of_booked hbooked hc a
    rwa [ite_self, List.append_nil] at hbalance

/-- A victim owns rows of an adapter. -/
def IsOwner (s : Store T) (adapter : Bytes) (v : Victim T) : Prop :=
  ∃ r ∈ (s.rowsOf v.index).all, r.names adapter = true ∧ r.filing = v.filing

section

variable {victims : List (Victim T)} {v w : Victim T} {rows : Std.ExtTreeMap Bytes (RowSet T)}

/-- A victim that owns rows stands. -/
theorem WF.stands_of_isOwner (hs : s.WF) (h : s.IsOwner adapter v) : v.Stands s.rows := by
  obtain ⟨r, hr, -, hf⟩ := h
  obtain ⟨place, hr⟩ := RowSet.mem_all_iff.mp hr
  exact ⟨hf ▸ (hs.rows v.index).lists hr, place, r, hr, congrArg Filing.number hf⟩

/-- A row of an owner is stored with the owner's filing, and names its adapter. -/
theorem WF.of_owns (hs : s.WF) (h : s.IsOwner adapter v) {i : Bytes} {r : StoredRow T}
    (hr : r ∈ (s.rowsOf i).all) (ho : v.owns i r = true) :
    v.index = i ∧ r.filing = v.filing ∧ r.names adapter = true := by
  simp only [Victim.owns, Bool.and_eq_true, beq_iff_eq] at ho
  obtain ⟨rfl, hn⟩ := ho
  obtain ⟨q, hq, ha, hf⟩ := h
  obtain ⟨_, hr⟩ := RowSet.mem_all_iff.mp hr
  obtain ⟨_, hq⟩ := RowSet.mem_all_iff.mp hq
  have he := (hs.rows v.index).filing_eq hr hq (by rw [hf, hn])
  have hadapter := ((hs.rows v.index).sound hq).adapter_eq ((hs.rows v.index).listed hq)
    (he ▸ (hs.rows v.index).listed hr)
  refine ⟨rfl, he.trans hf, ?_⟩
  rw [StoredRow.names, hadapter]
  exact ha

/-- An owner outlives the removal of other ones. -/
theorem WF.isOwner_of_same_eq_false (hs : s.WF) (howns : ∀ v ∈ victims, s.IsOwner adapter v)
    (hne : ∀ v ∈ victims, v.same w = false)
    (hrows : ∀ i, t.rowsOf i = (s.rowsOf i).only fun r ↦ !victims.any (·.owns i r))
    {other : Bytes} (h : s.IsOwner other w) : t.IsOwner other w := by
  obtain ⟨r, hr, ha, hf⟩ := h
  have hkeep : victims.any (·.owns w.index r) = false := by
    rw [List.any_eq_false]
    intro v hv ho
    obtain ⟨hi, hf', -⟩ := hs.of_owns (howns v hv) hr ho
    have hsame := hne v hv
    simp [Victim.same, hi, ← hf, hf'] at hsame
  refine ⟨r, ?_, ha, hf⟩
  rw [hrows, RowSet.all_only]
  exact List.mem_filter.mpr ⟨hr, by rw [hkeep]; rfl⟩

/-- Removing different victims that own rows of one adapter keeps the balance. -/
theorem BalancedBut.settle_victims (h : s.BalancedBut missed) (hs : s.WF)
    (howns : ∀ v ∈ victims, s.IsOwner adapter v)
    (hd : victims.Pairwise fun v w ↦ v.same w = false)
    (hrows : ∀ i, rowsAt rows i = (s.rowsOf i).only fun r ↦ !victims.any (·.owns i r)) :
    (s.settle adapter (victims.map (·.filing.info)) rows).WF ∧
      (s.settle adapter (victims.map (·.filing.info)) rows).BalancedBut missed := by
  have hinfos : victims.map (·.filing.info) =
      (victims.map fun v ↦ (v.index, v.filing)).map (·.2.info) := by
    rw [List.map_map]
    rfl
  rw [hinfos]
  refine h.settle hs adapter _ ?_ hrows ?_ ?_ ?_
  · intro i
    exact RowSet.respects_spares _ victims id i
  · intro i r hr hk
    have hany : victims.any (·.owns i r) = true := by simpa using hk
    obtain ⟨v, hv, ho⟩ := List.any_eq_true.mp hany
    exact (hs.of_owns (howns v hv) hr ho).2.2
  · apply hd.map _
    intro v w hne he
    obtain ⟨hi, hf⟩ := Prod.mk.inj he
    simp [Victim.same, hi, hf] at hne
  · intro i f
    rw [List.mem_map]
    constructor
    · rintro ⟨v, hv, he⟩
      cases he
      obtain ⟨r, hr, -, hf⟩ := howns v hv
      refine ⟨r, hr, ?_, hf⟩
      have hany : victims.any (·.owns v.index r) = true :=
        List.any_eq_true.mpr ⟨v, hv, by simp [Victim.owns, hf]⟩
      rw [hany]
      rfl
    · rintro ⟨r, hr, hk, rfl⟩
      have hany : victims.any (·.owns i r) = true := by simpa using hk
      obtain ⟨v, hv, ho⟩ := List.any_eq_true.mp hany
      obtain ⟨hi, hf, -⟩ := hs.of_owns (howns v hv) hr ho
      exact ⟨v, hv, by rw [hi, hf]⟩

end

/-- Removing different victims, adapter by adapter, keeps the balance. -/
theorem BalancedBut.removeDoomed (h : s.BalancedBut missed) (hs : s.WF) (entries : Nat)
    {groups : List (Bytes × List (Victim T))}
    (howned : ∀ group ∈ groups, ∀ v ∈ group.2, s.IsOwner group.1 v)
    (hd : (Doomed.victims groups).Pairwise fun v w ↦ v.same w = false) :
    (s.removeDoomed entries groups).value.store.BalancedBut missed := by
  induction groups generalizing s entries with
  | nil => exact h
  | cons group rest ih =>
    obtain ⟨adapter, victims⟩ := group
    rw [Doomed.victims, List.flatMap_cons, List.pairwise_append] at hd
    obtain ⟨hvictims, hrest, hcross⟩ := hd
    have howns : ∀ v ∈ victims, s.IsOwner adapter v := howned (adapter, victims) (by simp)
    obtain ⟨rows, hv, hrows⟩ := s.value_removeDoomed_cons entries adapter victims rest
      (fun v hv ↦ hs.stands_of_isOwner (howns v hv)) hvictims
    obtain ⟨hwf, hbalanced⟩ := h.settle_victims hs howns hvictims hrows
    rw [hv]
    refine ih hbalanced hwf (entries + victims.length) ?_ hrest
    intro group hg w hw
    have hne : ∀ v ∈ victims, v.same w = false := fun v hv ↦
      hcross v hv w (List.mem_flatMap.mpr ⟨group, hg, hw⟩)
    have hw := howned group (by simp [hg]) w hw
    exact hs.isOwner_of_same_eq_false (t := s.settle adapter _ rows) howns hne hrows hw

/-- A deletion by query keeps the balance. -/
theorem BalancedBut.delete (h : s.BalancedBut missed) (hs : s.WF) (q : Query) (o : QueryOptions) :
    (s.delete q o).value.store.BalancedBut missed := by
  rw [Store.delete, Traced.value_bind]
  refine h.removeDoomed hs 0 ?_ (Doomed.distinct_ofHits _)
  intro group hg v hv
  obtain ⟨hit, hh, rfl, ha⟩ := Doomed.of_mem_ofHits hg hv
  obtain ⟨i, -, hi, hr, -⟩ := of_mem_query hh
  refine ⟨hit.row, ?_, ?_, rfl⟩
  · rw [Hit.victim, hi]
    exact hr
  · rw [StoredRow.names, ha, beq_self_eq_true]

/-- A deletion of an entry keeps the balance. -/
theorem BalancedBut.deleteEntry (h : s.BalancedBut missed) (hs : s.WF) (index data adapter : Bytes)
    (labels : Labels) : (s.deleteEntry index data adapter labels).value.2.BalancedBut missed := by
  cases hany : (s.rowsOf index).all.any (exposes data adapter labels) with
  | false =>
    rw [value_deleteEntry_of_none hany]
    exact h
  | true =>
    obtain ⟨hd, hmem⟩ := filings_erased (hs.rows index) (exposes data adapter labels)
    rw [value_deleteEntry_of_any (hs.rows index) hany]
    generalize (erasePlaces (s.rowsOf index) [] (((s.rowsOf index).all.filter
      (exposes data adapter labels)).map (·.place))).2.1 = erased at hd hmem
    have hinfos : erased.map (·.info) = (erased.map fun f ↦ (index, f)).map (·.2.info) := by
      rw [List.map_map]
      rfl
    rw [hinfos]
    refine (h.settle hs adapter _ ?_ (rowsAt_insert_only s index _) ?_ ?_ ?_).2
    · intro i
      exact (hs.rows i).respects_spares (index == i) data adapter labels
    · intro i r _ hk
      simp only [Bool.not_eq_false', Bool.and_eq_true, exposes, StoredRow.shows,
        StoredRow.belongsTo] at hk
      exact hk.2.1.2
    · exact hd.map fun f g he ↦ congrArg Prod.snd he
    · intro i f
      simp only [List.mem_map, Prod.mk.injEq, hmem, Bool.not_eq_false', Bool.and_eq_true,
        beq_iff_eq]
      constructor
      · rintro ⟨g, ⟨r, hr, hx, rfl⟩, rfl, rfl⟩
        exact ⟨r, hr, ⟨rfl, hx⟩, rfl⟩
      · rintro ⟨r, hr, ⟨rfl, hx⟩, rfl⟩
        exact ⟨r.filing, ⟨r, hr, hx, rfl⟩, rfl, rfl⟩

/-! ## Every call -/

/-- What a call files for an adapter and statistics do not observe. -/
def missedBy (s : Store T) (adapter : Bytes) : Call T → List EntryInfo
  | .ingest given index visibility entries fault =>
    if adapter = given.id then s.missed ⟨given, index, visibility, entries, fault⟩ else []
  | _ => []

/-- What the calls of a history file for an adapter and statistics do not observe. -/
def missedEach (s : Store T) (adapter : Bytes) : List (Call T) → List EntryInfo
  | [] => []
  | c :: rest => s.missedBy adapter c ++ (s.perform c).2.missedEach adapter rest

/-- A steady call misses nothing. -/
theorem missedBy_of_steady (s : Store T) (adapter : Bytes) {c : Call T} (h : c.Steady) :
    s.missedBy adapter c = [] := by
  cases c with
  | register given index => rfl
  | ingest given index visibility entries fault =>
    rw [missedBy, missed, Origin.missed_eq_nil h.2, ite_self]
  | delete q o => rfl
  | deleteEntry index data other labels => rfl

/-- A steady history misses nothing. -/
theorem missedEach_of_steady (s : Store T) (adapter : Bytes) {calls : List (Call T)}
    (h : ∀ c ∈ calls, c.Steady) : s.missedEach adapter calls = [] := by
  induction calls generalizing s with
  | nil => rfl
  | cons c rest ih =>
    obtain ⟨hc, hrest⟩ := List.forall_mem_cons.mp h
    rw [missedEach, s.missedBy_of_steady adapter hc, ih _ hrest]
    rfl

/-- Every call keeps the balance, but for what it misses. -/
theorem BalancedBut.perform (h : s.BalancedBut missed) (hs : s.WF) {c : Call T}
    (hc : c.NamesItself) :
    (s.perform c).2.BalancedBut fun a ↦ missed a ++ s.missedBy a c := by
  cases c with
  | register adapter index =>
    simp only [missedBy, List.append_nil]
    exact h.register hs hc index
  | ingest adapter index visibility entries fault =>
    exact h.delivery hs (d := ⟨adapter, index, visibility, entries, fault⟩) hc
  | delete q o =>
    simp only [missedBy, List.append_nil]
    exact h.delete hs q o
  | deleteEntry index data adapter labels =>
    simp only [missedBy, List.append_nil]
    exact h.deleteEntry hs index data adapter labels

/-- A history keeps the balance, but for what it misses. -/
theorem BalancedBut.after (h : s.BalancedBut missed) (hs : s.WF) {calls : List (Call T)}
    (hc : ∀ c ∈ calls, c.NamesItself) :
    (s.after calls).BalancedBut fun a ↦ missed a ++ s.missedEach a calls := by
  induction calls generalizing s missed with
  | nil =>
    simp only [missedEach, List.append_nil]
    exact h
  | cons c rest ih =>
    obtain ⟨hc, hrest⟩ := List.forall_mem_cons.mp hc
    have hafter := ih (h.perform hs hc) (hs.perform c) hrest
    simp only [List.append_assoc] at hafter
    exact hafter

/-- A history of steady calls keeps the balance. -/
theorem Balanced.after (h : s.Balanced) (hs : s.WF) {calls : List (Call T)}
    (hc : ∀ c ∈ calls, c.Steady) : (s.after calls).Balanced := by
  have hafter := BalancedBut.after h hs fun c hm ↦ (hc c hm).namesItself
  simp only [missedEach_of_steady s _ hc, List.append_nil] at hafter
  exact hafter

end Store

end RowVault
