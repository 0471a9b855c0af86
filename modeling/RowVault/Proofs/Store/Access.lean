import Mathlib.Data.List.Induction
import RowVault.Proofs.Store.Invariant
import RowVault.Proofs.Store.Lookups
import RowVault.Proofs.Visibility.Conjunction
import RowVault.Scripted.Entry

/-!
# Who sees an entry, and who removes it

What the writer of a field asks for and what the caller of an ingest asks for are joined into one
formula for each persisted field of an entry. No read gives an entry to a caller who does not
satisfy both for every field, and no deletion removes its rows for such a caller. A caller who
satisfies all of them is given the entry, if none of them is malformed or nested as deep as a
formula may be.
-/

namespace RowVault

variable {T : Type}

/-- How entries of an ingest are encoded. -/
structure Origin (T : Type) where
  adapter : Adapter T
  index : Index
  visibility : VisibilityWriter T

/-- What is asked for the persisted fields of an entry. -/
def Origin.demands (o : Origin T) (entry : T) : List Demand :=
  RowVault.demands o.adapter o.index o.visibility entry

namespace Demand

/-- A caller has what the writer of the field and what the caller of the ingest ask for. -/
def Admits (labels : Labels) (d : Demand) : Prop :=
  Visibility.permits d.own labels = true ∧ Visibility.permits d.asked labels = true

/-- A formula asks for nothing, or is well-formed and could be put in parentheses once more. -/
def Roomy (formula : Bytes) : Prop :=
  formula = [] ∨ (∃ f, Visibility.Formula.parse formula = .ok f) ∧ Visibility.nesting formula ≤ 63

/-- Where both sides have room, they are joined into their conjunction. -/
theorem permits_conjoin_of_roomy {d : Demand} (hown : Roomy d.own) (hasked : Roomy d.asked)
    (labels : Labels) :
    Visibility.permits (Visibility.conjoin d.own d.asked) labels = true ↔ d.Admits labels := by
  have hroom : d.own = [] ∨ d.asked = [] ∨
      (∃ e, Visibility.Formula.parse d.own = .error e) ∨
      (∃ e, Visibility.Formula.parse d.asked = .error e) ∨
      (Visibility.nesting d.own < Visibility.maxNesting ∧
        Visibility.nesting d.asked < Visibility.maxNesting) := by
    rcases hown with hown | ⟨-, hown⟩
    · exact .inl hown
    · rcases hasked with hasked | ⟨-, hasked⟩
      · exact .inr (.inl hasked)
      · exact .inr (.inr (.inr (.inr ⟨Nat.lt_succ_of_le hown, Nat.lt_succ_of_le hasked⟩)))
  rw [Visibility.permits_conjoin labels hroom, Bool.and_eq_true]
  exact Iff.rfl

end Demand

/-! ## Visible rows and what is asked for -/

namespace Filing.From

variable {o : Origin T} {entries : List T} {f : Filing T} {r : StoredRow T} {labels : Labels}

/-- The formulas of a filed entry join what is asked for its fields. -/
theorem visibilities_eq (h : f.From o.adapter o.index o.visibility entries) :
    f.info.visibilities =
      (o.demands f.entry).map fun d ↦ Visibility.conjoin d.own d.asked := by
  have hfields := congrArg (List.map Prod.snd) (fields_of_encodeEntry h.encoded h.indexed)
  rw [List.map_map, List.map_map] at hfields
  exact hfields

/-- Something is asked for exactly the persisted fields. -/
theorem values_eq (h : f.From o.adapter o.index o.visibility entries) :
    (o.demands f.entry).map (·.value) = f.info.fields.map (·.value) := by
  have hfields := congrArg (List.map Prod.fst) (fields_of_encodeEntry h.encoded h.indexed)
  rw [List.map_map, List.map_map] at hfields
  exact hfields.symm

/-- A row is visible only to callers who have all that is asked for. -/
theorem admits_of_isVisible (h : r.filing.From o.adapter o.index o.visibility entries)
    (hv : r.isVisible labels = true) : ∀ d ∈ o.demands r.filing.entry, d.Admits labels := by
  intro d hd
  rw [StoredRow.isVisible, h.visibilities_eq, List.all_map, List.all_eq_true] at hv
  exact Visibility.permits_of_permits_conjoin (hv d hd)

/-- A row is visible to callers who have all that is asked for, if all formulas have room. -/
theorem isVisible_of_admits (h : r.filing.From o.adapter o.index o.visibility entries)
    (hroom : ∀ d ∈ o.demands r.filing.entry, Demand.Roomy d.own ∧ Demand.Roomy d.asked)
    (ha : ∀ d ∈ o.demands r.filing.entry, d.Admits labels) : r.isVisible labels = true := by
  rw [StoredRow.isVisible, h.visibilities_eq, List.all_map, List.all_eq_true]
  intro d hd
  exact (Demand.permits_conjoin_of_roomy (hroom d hd).1 (hroom d hd).2 labels).mpr (ha d hd)

end Filing.From

namespace Store

/-! ## Where stored rows come from -/

/-- A filing of an index is an entry that a call of a history has ingested, encoded as there, under
a number that this call has given. -/
def Ingested (start : Store T) (calls : List (Call T)) (index : Bytes) (f : Filing T)
    (o : Origin T) : Prop :=
  ∃ earlier later given entries fault,
    calls = earlier ++ .ingest given o.index o.visibility entries fault :: later ∧
    o.index.id = index ∧
    o.adapter = ((start.after earlier).register given o.index).value.registered given ∧
    (start.after earlier).filed ≤ f.number ∧
    f.number <
      (start.after (earlier ++ [.ingest given o.index o.visibility entries fault])).filed ∧
    f.From o.adapter o.index o.visibility entries

/-- What has been ingested has been encoded as its origin says. -/
theorem Ingested.exists_from {start : Store T} {calls : List (Call T)} {index : Bytes}
    {f : Filing T} {o : Origin T} (h : start.Ingested calls index f o) :
    ∃ entries, f.From o.adapter o.index o.visibility entries := by
  obtain ⟨_, _, _, entries, _, _, _, _, _, _, hf⟩ := h
  exact ⟨entries, hf⟩

/-- What has been ingested stays so, whatever is called afterwards. -/
theorem Ingested.snoc {start : Store T} {calls : List (Call T)} {index : Bytes} {f : Filing T}
    {o : Origin T} (h : start.Ingested calls index f o) (c : Call T) :
    start.Ingested (calls ++ [c]) index f o := by
  obtain ⟨earlier, later, given, entries, fault, rfl, h⟩ := h
  exact ⟨earlier, later ++ [c], given, entries, fault, by simp, h⟩

/-- Every stored row belongs to an entry that the history has ingested into the index. -/
theorem exists_ingested {start : Store T} (hwf : start.WF)
    (hnone : ∀ index, (start.rowsOf index).all = []) (calls : List (Call T)) {index : Bytes}
    {r : StoredRow T} (hr : r ∈ ((start.after calls).rowsOf index).all) :
    ∃ o, start.Ingested calls index r.filing o := by
  induction calls using List.reverseRecOn with
  | nil =>
    rw [after_nil, hnone] at hr
    cases hr
  | append_singleton calls c ih =>
    have hs : start.after (calls ++ [c]) = ((start.after calls).perform c).2 :=
      after_append start calls [c]
    have hwf' := hwf.after calls
    have hbelow := (hwf.after (calls ++ [c])).below r hr
    rw [hs] at hr
    rcases hwf'.mem_rowsOf_perform hr with
      hr | ⟨hn, given, i, visibility, entries, fault, rfl, hi, hf⟩
    · obtain ⟨o, ho⟩ := ih hr
      exact ⟨o, ho.snoc c⟩
    · exact ⟨⟨_, i, visibility⟩, calls, [], given, entries, fault, rfl, hi, rfl, hn, hbelow, hf⟩

/-! ## Reads and deletions -/

/-- Reads give an entry, and deletions remove its rows, only where its rows are cleared for the
caller. -/
structure Guards (s : Store T) (labels : Labels) (cleared : Bytes → StoredRow T → Prop) : Prop where
  query : ∀ q o take, o.labels = labels → ∀ h ∈ (s.query q o take).value,
    h.row ∈ (s.rowsOf h.index).all ∧ cleared h.index h.row
  getByRowId : ∀ index raw entry, (s.getByRowId index raw labels).value = some entry →
    ∃ r ∈ (s.rowsOf index).all, r.filing.entry = entry ∧ r.row.raw = raw ∧ cleared index r
  getEntry : ∀ index data adapter entry,
    (s.getEntry index data adapter labels).value = some entry →
    ∃ r ∈ (s.rowsOf index).all,
      r.filing.entry = entry ∧ r.belongsTo data adapter = true ∧ cleared index r
  entriesBeginning : ∀ index start take,
    ∀ entry ∈ (s.entriesBeginning index start labels take).value,
    ∃ r ∈ (s.rowsOf index).all,
      r.filing.entry = entry ∧ start.isPrefixOf r.row.raw = true ∧ cleared index r
  delete : ∀ q o, o.labels = labels → ∀ index, ∀ r ∈ (s.rowsOf index).all,
    r ∉ ((s.delete q o).value.store.rowsOf index).all → cleared index r
  deleteEntry : ∀ index data adapter i, ∀ r ∈ (s.rowsOf i).all,
    r ∉ ((s.deleteEntry index data adapter labels).value.2.rowsOf i).all → cleared i r

/-- Reads and deletions are guarded by the visibility of rows. -/
theorem WF.guards_isVisible {s : Store T} (h : s.WF) (labels : Labels) :
    s.Guards labels fun _ r ↦ r.isVisible labels = true := by
  constructor
  · rintro q o take rfl hit hm
    obtain ⟨i, -, hi, hr, hv⟩ := of_mem_query hm
    exact ⟨hi ▸ hr, hv⟩
  · intro index raw entry hg
    rw [value_getByRowId, Option.map_eq_some_iff] at hg
    obtain ⟨r, hr, he⟩ := hg
    obtain ⟨hr, hs⟩ := Option.filter_eq_some_iff.mp hr
    obtain ⟨place, -, hr⟩ := Option.bind_eq_some_iff.mp hr
    obtain ⟨hraw, hv⟩ := Bool.and_eq_true_iff.mp hs
    exact ⟨r, RowSet.mem_all_iff.mpr ⟨place, hr⟩, he, of_decide_eq_true hraw, hv⟩
  · intro index data adapter entry hg
    rw [value_getEntry, Option.map_eq_some_iff] at hg
    obtain ⟨r, hr, he⟩ := hg
    obtain ⟨hr, hs⟩ := List.mem_filter.mp (List.mem_of_head? hr)
    obtain ⟨hb, hv⟩ := Bool.and_eq_true_iff.mp hs
    exact ⟨r, hr, he, hb, hv⟩
  · intro index start take entry hm
    rw [value_entriesBeginning] at hm
    obtain ⟨r, hr, he⟩ := List.mem_map.mp hm
    obtain ⟨hr, hs⟩ := List.mem_filter.mp (mem_of_mem_cut hr)
    obtain ⟨hp, hv⟩ := Bool.and_eq_true_iff.mp hs
    exact ⟨r, mem_all_of_mem_rowsBeginning hr, he, hp, hv⟩
  · rintro q o rfl index r hr hgone
    rw [s.rowsOf_delete h.rows, RowSet.all_only, List.mem_filter, not_and] at hgone
    have hgone := hgone hr
    rw [Bool.not_eq_true', Bool.not_eq_false, List.any_eq_true] at hgone
    obtain ⟨hit, hm, ho⟩ := hgone
    exact h.isVisible_of_owns hm hr ho
  · intro index data adapter i r hr hgone
    rw [s.rowsOf_deleteEntry (h.rows index), RowSet.all_only, List.mem_filter, not_and] at hgone
    have hgone := hgone hr
    rw [Bool.not_eq_true', Bool.not_eq_false, Bool.and_eq_true] at hgone
    exact (Bool.and_eq_true_iff.mp hgone.2).2

/-- What clears less guards less. -/
theorem Guards.mono {s : Store T} {labels : Labels} {cleared admitted : Bytes → StoredRow T → Prop}
    (h : s.Guards labels cleared)
    (himp : ∀ index, ∀ r ∈ (s.rowsOf index).all, cleared index r → admitted index r) :
    s.Guards labels admitted := by
  constructor
  · intro q o take ho hit hm
    obtain ⟨hr, hc⟩ := h.query q o take ho hit hm
    exact ⟨hr, himp _ _ hr hc⟩
  · intro index raw entry hg
    obtain ⟨r, hr, he, hraw, hc⟩ := h.getByRowId index raw entry hg
    exact ⟨r, hr, he, hraw, himp _ _ hr hc⟩
  · intro index data adapter entry hg
    obtain ⟨r, hr, he, hb, hc⟩ := h.getEntry index data adapter entry hg
    exact ⟨r, hr, he, hb, himp _ _ hr hc⟩
  · intro index start take entry hm
    obtain ⟨r, hr, he, hp, hc⟩ := h.entriesBeginning index start take entry hm
    exact ⟨r, hr, he, hp, himp _ _ hr hc⟩
  · intro q o ho index r hr hgone
    exact himp _ _ hr (h.delete q o ho index r hr hgone)
  · intro index data adapter i r hr hgone
    exact himp _ _ hr (h.deleteEntry index data adapter i r hr hgone)

/-- An index is targeted by name, or if none is named. -/
theorem mem_targeted {s : Store T} {index : Bytes} {i : Index} (hi : s.indices[index]? = some i)
    {target : Option Bytes} (ht : target = none ∨ target = some index) : i ∈ s.targeted target := by
  rcases ht with rfl | rfl
  · have hm : (index, i) ∈ s.indices.toList :=
      Std.ExtTreeMap.mem_toList_iff_getElem?_eq_some.mpr hi
    show i ∈ s.indices.values
    rw [OrderedMap.values_eq]
    exact List.mem_map_of_mem hm
  · have hf : s.indices.find index = .ok i := by
      rw [Indices.find, hi]
    rw [targeted, targets, hf]
    exact List.mem_singleton_self i

/-! ## Both directions -/

/-- Every stored row belongs to an entry that the history has ingested. Reads give the entry, and
deletions remove its rows, only for callers who have what is asked for each of its persisted fields,
by the writer of the field and by the caller of the ingest; and where all these formulas have room,
such a caller sees the rows, and the query for everything yields them. -/
theorem entries_guarded_by_demands (config : Config) (statistics : StatisticsStore)
    (calls : List (Call T)) :
    let start : Store T := fresh config statistics
    let s := start.after calls
    (∀ index, ∀ r ∈ (s.rowsOf index).all, ∃ o, start.Ingested calls index r.filing o) ∧
    (∀ labels, s.Guards labels fun index r ↦ ∀ o, start.Ingested calls index r.filing o →
      ∀ d ∈ o.demands r.filing.entry, d.Admits labels) ∧
    ∀ index, ∀ r ∈ (s.rowsOf index).all, ∀ o, start.Ingested calls index r.filing o →
      (o.demands r.filing.entry).map (·.value) = r.filing.info.fields.map (·.value) ∧
      ∀ labels,
        (∀ d ∈ o.demands r.filing.entry, Demand.Roomy d.own ∧ Demand.Roomy d.asked) →
        (∀ d ∈ o.demands r.filing.entry, d.Admits labels) →
        r.isVisible labels = true ∧
        ∀ options : QueryOptions, options.labels = labels →
          options.effectiveLimit config.defaultLimit = none → options.clientFilters = [] →
          (options.index = none ∨ options.index = some index) →
          (⟨index, r⟩ : Hit T) ∈ (s.query .everything options).value := by
  intro start s
  have hwf : s.WF := (wf_fresh config statistics).after calls
  refine ⟨?_, ?_, ?_⟩
  · intro index r hr
    exact exists_ingested (wf_fresh config statistics) (all_rowsOf_fresh config statistics) calls hr
  · intro labels
    apply (hwf.guards_isVisible labels).mono
    intro index r hr hv o ho
    obtain ⟨entries, hf⟩ := ho.exists_from
    exact hf.admits_of_isVisible hv
  · intro index r hr o ho
    obtain ⟨entries, hf⟩ := ho.exists_from
    refine ⟨hf.values_eq, ?_⟩
    intro labels hroom ha
    have hv := hf.isVisible_of_admits hroom ha
    refine ⟨hv, ?_⟩
    rintro options rfl hlimit hfilters htarget
    obtain ⟨i, hi⟩ := Option.isSome_iff_exists.mp (hwf.indexed r hr)
    have hid := hwf.index_id hi
    have hconfig : s.config = config := (wf_fresh config statistics).config_after calls
    rw [← hid]
    refine mem_query_everything ?_ hfilters (mem_targeted hi htarget) ?_ hv
    · rw [hconfig]
      exact hlimit
    · rw [hid]
      exact hr

private def lockedEntry : Scripted.Entry := { id := [0x64], fields := [⟨[0x66], .bool true⟩] }

private def lockedAdapter : Adapter Scripted.Entry :=
  Scripted.AdapterPlan.adapter { id := [0x61], codecs := [{ field := [0x66], codec := ⟨[0x78]⟩ }] }

private def lockedIndex : Index := ⟨⟨[0x73], fun _ ↦ [[0x07]], fun _ _ ↦ []⟩, ⟨[0x6D], []⟩⟩

private def lockedCall : Call Scripted.Entry :=
  .ingest lockedAdapter lockedIndex (.uniform [0x79]) [lockedEntry] fun _ ↦ none

private def lockedRow : StoredRow Scripted.Entry :=
  let row : EncodedRow :=
    ⟨⟨[0x07], [0x64], [0x61], 0⟩, [0x07, 0x64, 0x61, 0, 0, 0, 1, 0, 0, 0, 1, 0, 0, 0, 0]⟩
  ⟨row, 0, ⟨[row], [⟨⟨[0x66], .bool true⟩, Cbor.writeValue (.bool true),
    [0x28, 0x78, 0x29, 0x26, 0x28, 0x79, 0x29]⟩]⟩, lockedEntry⟩

private def lockedLabels : Labels := .ofList ([[0x78], [0x79]] : List Bytes)

private def lockedFirst : Labels := .ofList ([[0x78]] : List Bytes)

private theorem locked_ingested :
    (fresh {} {} : Store Scripted.Entry).Ingested [lockedCall] lockedIndex.id lockedRow.filing
      ⟨lockedAdapter, lockedIndex, .uniform [0x79]⟩ :=
  ⟨[], [], lockedAdapter, [lockedEntry], fun _ ↦ none, rfl, rfl, rfl, by decide +kernel,
    by decide +kernel, ⟨List.mem_singleton_self _, rfl, rfl⟩⟩

/-- An entry that asks for two labels is given to a caller who has both, and not to one who has only
the first. -/
theorem entries_guarded_by_demands_locked :
    let s := (fresh {} {} : Store Scripted.Entry).after [lockedCall]
    (⟨lockedIndex.id, lockedRow⟩ : Hit Scripted.Entry) ∈
        (s.query .everything { labels := lockedLabels }).value ∧
      (⟨lockedIndex.id, lockedRow⟩ : Hit Scripted.Entry) ∉
        (s.query .everything { labels := lockedFirst }).value := by
  intro s
  obtain ⟨-, hguards, hgives⟩ :=
    entries_guarded_by_demands (T := Scripted.Entry) {} {} [lockedCall]
  have hr : lockedRow ∈ (s.rowsOf lockedIndex.id).all := by decide +kernel
  constructor
  · obtain ⟨-, hgives⟩ := hgives lockedIndex.id lockedRow hr _ locked_ingested
    refine (hgives lockedLabels ?_ ?_).2 _ rfl rfl rfl (.inl rfl)
    · intro d hd
      rw [List.mem_singleton.mp hd]
      exact ⟨.inr ⟨⟨.term [0x78], rfl⟩, by decide⟩, .inr ⟨⟨.term [0x79], rfl⟩, by decide⟩⟩
    · intro d hd
      rw [List.mem_singleton.mp hd]
      exact ⟨by decide +kernel, by decide +kernel⟩
  · intro hm
    have hall := ((hguards lockedFirst).query _ _ none rfl _ hm).2 _ locked_ingested
    have ha := hall ⟨⟨[0x66], .bool true⟩, [0x78], [0x79]⟩ (List.mem_singleton_self _)
    exact absurd ha.2 (by decide +kernel)

end Store

end RowVault
