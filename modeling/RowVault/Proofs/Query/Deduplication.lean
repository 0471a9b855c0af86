import RowVault.Proofs.Query.Stateless
import RowVault.Proofs.Store.Deliveries
import RowVault.Scripted.Delivery

/-!
# Deduplication among other filters

Deduplication lets the first row of each entry pass that it is asked about. It is asked before the
filters of the call that stand behind it and before those of the query, so that a row which they
refuse may have stood for its entry. What is yielded is therefore what the filters behind it accept
of the rows that it has let pass: one row at most of each entry with several rows, and none if they
refuse the first one and would have accepted another.
-/

namespace RowVault

variable {T : Type}

/-- The query without its filters. -/
def Query.unfiltered (q : Query) : Query := { q with filters := fun _ ↦ [] }

/-- The call with other filters. -/
def QueryOptions.withFilters (o : QueryOptions) (filters : List Filter) : QueryOptions :=
  { o with filters }

namespace Hit

/-- The number of duplicates of a hit. -/
def duplicates (h : Hit T) : Int32 := h.row.row.id.duplicates

/-- The adapter and the data id that a hit comes from. -/
def source (h : Hit T) : Bytes × Bytes := (h.row.row.id.adapter, h.row.row.id.data)

/-- Whether deduplication lets a row pass when rows of some sources have passed. -/
def admitted (passed : List (Bytes × Bytes)) (h : Hit T) : Bool :=
  decide (h.duplicates ≤ 0) || !passed.contains h.source

/-- The sources of which a row has passed, when deduplication has been asked about one more row. -/
def noted (passed : List (Bytes × Bytes)) (h : Hit T) : List (Bytes × Bytes) :=
  if decide (h.duplicates ≤ 0) || passed.contains h.source then passed else h.source :: passed

/-- The rows that deduplication lets pass. -/
def deduplicated : List (Bytes × Bytes) → List (Hit T) → List (Hit T)
  | _, [] => []
  | passed, h :: rest =>
    if h.admitted passed then h :: deduplicated (h.noted passed) rest
    else deduplicated (h.noted passed) rest

/-- A row is in a list, and before it there is no row of its source that has duplicates. -/
def Leads (hits : List (Hit T)) (h : Hit T) : Prop :=
  ∃ earlier later, hits = earlier ++ h :: later ∧
    ∀ g ∈ earlier, 0 < g.duplicates → g.source ≠ h.source

variable {h g : Hit T} {hits rest : List (Hit T)} {passed : List (Bytes × Bytes)}

/-- The first row of a list leads. Another one leads if it does so behind the first one, which does
not come from the same source with duplicates. -/
theorem leads_cons_iff :
    Leads (g :: rest) h ↔ g = h ∨ Leads rest h ∧ (0 < g.duplicates → g.source ≠ h.source) := by
  constructor
  · rintro ⟨earlier, later, hsplit, hnone⟩
    rcases List.cons_eq_append_iff.mp hsplit with ⟨-, he⟩ | ⟨more, rfl, hrest⟩
    · exact .inl (List.cons.inj he).1.symm
    · obtain ⟨hg, hmore⟩ := List.forall_mem_cons.mp hnone
      exact .inr ⟨⟨more, later, hrest, hmore⟩, hg⟩
  · rintro (rfl | ⟨⟨earlier, later, rfl, hnone⟩, hg⟩)
    · exact ⟨[], rest, rfl, nofun⟩
    · exact ⟨g :: earlier, later, rfl, List.forall_mem_cons.mpr ⟨hg, hnone⟩⟩

/-- Each row of a list has a row of its source that leads. -/
theorem exists_leads (hm : h ∈ hits) : ∃ g, Leads hits g ∧ g.source = h.source := by
  induction hits with
  | nil => cases hm
  | cons g rest ih =>
    rcases List.mem_cons.mp hm with rfl | hm
    · exact ⟨h, leads_cons_iff.mpr (.inl rfl), rfl⟩
    · obtain ⟨k, hk, he⟩ := ih hm
      by_cases hg : g.source = h.source
      · exact ⟨g, leads_cons_iff.mpr (.inl rfl), hg⟩
      · exact ⟨k, leads_cons_iff.mpr (.inr ⟨hk, fun _ hgk ↦ hg (hgk.trans he)⟩), he⟩

/-- A row that leads is in the list. -/
theorem Leads.mem (hl : Leads hits h) : h ∈ hits := by
  obtain ⟨earlier, later, rfl, -⟩ := hl
  exact List.mem_append_cons_self

/-- Deduplication goes on with the sources of which it has let a row pass. -/
theorem deduplicated_append (passed : List (Bytes × Bytes)) (hits more : List (Hit T)) :
    deduplicated passed (hits ++ more) =
      deduplicated passed hits ++ deduplicated (hits.foldl noted passed) more := by
  induction hits generalizing passed with
  | nil => rfl
  | cons h rest ih =>
    rw [List.cons_append, deduplicated, deduplicated, ih, List.foldl_cons]
    split <;> rfl

/-- Deduplication leaves some of the rows, in their order. -/
theorem sublist_deduplicated (passed : List (Bytes × Bytes)) (hits : List (Hit T)) :
    (deduplicated passed hits).Sublist hits := by
  induction hits generalizing passed with
  | nil => exact List.Sublist.slnil
  | cons h rest ih =>
    rw [deduplicated]
    split
    · exact (ih _).cons_cons h
    · exact (ih _).cons h

/-- A row without duplicates passes, and nothing is noted. -/
theorem deduplicated_cons_of_le (hd : h.duplicates ≤ 0) :
    deduplicated passed (h :: rest) = h :: deduplicated passed rest := by
  rw [deduplicated, admitted, noted, decide_eq_true hd]
  rfl

/-- A row of a source of which a row has passed does not pass if it has duplicates. -/
theorem deduplicated_cons_of_mem (hd : 0 < h.duplicates) (hp : h.source ∈ passed) :
    deduplicated passed (h :: rest) = deduplicated passed rest := by
  rw [deduplicated, admitted, noted, decide_eq_false (Int32.not_le.mpr hd),
    List.contains_iff_mem.mpr hp]
  rfl

/-- The first row of a source passes, and its source is noted if the row has duplicates. -/
theorem deduplicated_cons_of_not_mem (hd : 0 < h.duplicates) (hp : h.source ∉ passed) :
    deduplicated passed (h :: rest) = h :: deduplicated (h.source :: passed) rest := by
  have hcontains : passed.contains h.source = false :=
    Bool.eq_false_iff.mpr fun hc ↦ hp (List.contains_iff_mem.mp hc)
  rw [deduplicated, admitted, noted, decide_eq_false (Int32.not_le.mpr hd), hcontains]
  rfl

/-- Deduplication lets the rows without duplicates pass, and the first one with duplicates of each
source of which no row has passed. -/
theorem mem_deduplicated_iff :
    h ∈ deduplicated passed hits ↔
      h ∈ hits ∧ (h.duplicates ≤ 0 ∨ (h.source ∉ passed ∧ Leads hits h)) := by
  induction hits generalizing passed with
  | nil => simp [deduplicated]
  | cons g rest ih =>
    rw [leads_cons_iff, List.mem_cons]
    by_cases hd : g.duplicates ≤ 0
    · rw [deduplicated_cons_of_le hd, List.mem_cons, ih]
      have hno : ¬ 0 < g.duplicates := Int32.not_lt.mpr hd
      grind
    · have hd : 0 < g.duplicates := Int32.not_le.mp hd
      by_cases hp : g.source ∈ passed
      · rw [deduplicated_cons_of_mem hd hp, ih]
        have hle : ¬ g.duplicates ≤ 0 := Int32.not_le.mpr hd
        grind
      · rw [deduplicated_cons_of_not_mem hd hp, List.mem_cons, ih]
        grind

/-- Of the rows with duplicates, deduplication lets at most one of each source pass. -/
theorem nodup_deduplicated (passed : List (Bytes × Bytes)) (hits : List (Hit T)) :
    (((deduplicated passed hits).filter fun h ↦ decide (0 < h.duplicates)).map source).Nodup := by
  induction hits generalizing passed with
  | nil => exact List.nodup_nil
  | cons g rest ih =>
    by_cases hd : g.duplicates ≤ 0
    · rw [deduplicated_cons_of_le hd, List.filter_cons_of_neg (by simpa using hd)]
      exact ih passed
    · have hd : 0 < g.duplicates := Int32.not_le.mp hd
      by_cases hp : g.source ∈ passed
      · rw [deduplicated_cons_of_mem hd hp]
        exact ih passed
      · rw [deduplicated_cons_of_not_mem hd hp, List.filter_cons_of_pos (by simpa using hd),
          List.map_cons]
        apply List.nodup_cons.mpr
        refine ⟨?_, ih _⟩
        intro hm
        obtain ⟨h, hm, he⟩ := List.mem_map.mp hm
        obtain ⟨hm, hpos⟩ := List.mem_filter.mp hm
        rcases (mem_deduplicated_iff.mp hm).2 with hle | ⟨hnew, -⟩
        · exact Int32.not_le.mpr (of_decide_eq_true hpos) hle
        · exact hnew (he ▸ List.mem_cons_self)

end Hit

/-! ## Chains with deduplication -/

/-- A chain of filters in which deduplication stands between filters that answer by a condition and
others that answer by another one. -/
structure Filter.Dedupes (a b : DecodedRow → Bool) (passed : List (Bytes × Bytes))
    (chain : List Filter) : Prop where
  split : ∃ before after, chain = before ++ .dedupe passed :: after ∧
    (Filter.every before).Answers a ∧ (Filter.every after).Answers b

section

variable {a b c : DecodedRow → Bool} {passed : List (Bytes × Bytes)} {client own : List Filter}
  {index : Index} {labels : Labels} {p : Hit T → Bool}

/-- Deduplication answers by the sources of which a row has passed, and notes the one of the row. -/
theorem Filter.value_ask_dedupe (model : IndexModel) (passed : List (Bytes × Bytes)) (h : Hit T) :
    (Filter.ask (h.row.decoded model) (.dedupe passed)).value =
      (h.admitted passed, .dedupe (h.noted passed)) := by
  have hduplicates : (h.row.decoded model).duplicates = h.duplicates := rfl
  have hsource : ((h.row.decoded model).adapter, (h.row.decoded model).data) = h.source := rfl
  rw [Filter.ask, hduplicates, hsource, Hit.admitted, Hit.noted]
  by_cases hd : h.duplicates ≤ 0
  · simp [hd]
  · cases hp : passed.contains h.source <;> simp [hd]

/-- A chain with deduplication accepts the rows that its filters accept and that are admitted. What
is noted of a row depends on the filters before deduplication only. -/
theorem Filter.Dedupes.askEvery (hc : Filter.Dedupes a b passed client) (model : IndexModel)
    (h : Hit T) :
    ∃ client', (Filter.askEvery (h.row.decoded model) client).value =
        (a (h.row.decoded model) && (h.admitted passed && b (h.row.decoded model)), client') ∧
      Filter.Dedupes a b (if a (h.row.decoded model) then h.noted passed else passed) client' := by
  obtain ⟨before, after, rfl, hbefore, hafter⟩ := hc.split
  obtain ⟨before', hasked, hbefore'⟩ := hbefore.askEvery (h.row.decoded model)
  obtain ⟨after', hbehind, hafter'⟩ := hafter.askEvery (h.row.decoded model)
  rw [Filter.askEvery_append, hasked, Filter.askEvery_cons, Filter.value_ask_dedupe, hbehind]
  cases a (h.row.decoded model) with
  | false => exact ⟨_, rfl, ⟨_, _, rfl, hbefore', hafter⟩⟩
  | true =>
    cases h.admitted passed with
    | false => exact ⟨_, rfl, ⟨_, _, rfl, hbefore', hafter⟩⟩
    | true => exact ⟨_, rfl, ⟨_, _, rfl, hbefore', hafter'⟩⟩

private theorem sift_cons_of_dedupes (index : Index) (hc : Filter.Dedupes a b passed client)
    (ho : (Filter.every own).Answers c) {r : StoredRow T} (hv : r.isVisible labels = true)
    (rest : List (StoredRow T)) :
    let h : Hit T := ⟨index.id, r⟩
    let row := r.decoded index.model
    ∃ client' own', Filter.Dedupes a b (if a row then h.noted passed else passed) client' ∧
      (Filter.every own').Answers c ∧
      sift index.model labels client own (r :: rest) =
        let behind := sift index.model labels client' own' rest
        (if a row && (h.admitted passed && b row) && c row then r :: behind.1 else behind.1,
          behind.2) := by
  intro h row
  obtain ⟨client', hclient, hc'⟩ := hc.askEvery index.model h
  obtain ⟨own', hown, ho'⟩ := ho.askEvery row
  cases haccepted : a row && (h.admitted passed && b row) with
  | false =>
    refine ⟨client', own, hc', ho, ?_⟩
    rw [sift_cons_refused hv (hclient.trans (by rw [haccepted]))]
    rfl
  | true =>
    have hclient := hclient.trans (by rw [haccepted])
    refine ⟨client', own', hc', ho', ?_⟩
    cases hq : c row with
    | false =>
      rw [sift_cons_passed hv hclient (hown.trans (by rw [hq]))]
      rfl
    | true =>
      rw [sift_cons_kept hv hclient (hown.trans (by rw [hq]))]
      rfl

/-- Sifting the rows of an index by a chain with deduplication: of the rows that the filters before
deduplication accept, those that it lets pass and that the filters behind it accept. -/
theorem sift_of_dedupes (labels : Labels) (hc : Filter.Dedupes a b passed client)
    (ho : (Filter.every own).Answers c)
    (hp : ∀ r, p ⟨index.id, r⟩ = (b (r.decoded index.model) && c (r.decoded index.model)))
    (rows : List (StoredRow T)) :
    let sifted := sift index.model labels client own rows
    let asked : List (Hit T) :=
      (rows.filter fun r ↦ r.isVisible labels && a (r.decoded index.model)).map (⟨index.id, ·⟩)
    sifted.1.map (⟨index.id, ·⟩) = (Hit.deduplicated passed asked).filter p ∧
      Filter.Dedupes a b (asked.foldl Hit.noted passed) sifted.2 := by
  induction rows generalizing passed client own with
  | nil => exact ⟨rfl, hc⟩
  | cons r rest ih =>
    cases hv : r.isVisible labels with
    | false =>
      rw [sift_cons_hidden hv, List.filter_cons_of_neg (by simp [hv])]
      exact ih hc ho
    | true =>
      obtain ⟨client', own', hc', ho', hsift⟩ := sift_cons_of_dedupes index hc ho hv rest
      obtain ⟨hrows, hafter⟩ := ih hc' ho'
      rw [hsift]
      cases ha : a (r.decoded index.model) with
      | false =>
        rw [ha] at hrows hafter
        rw [List.filter_cons_of_neg (by simp [ha])]
        exact ⟨hrows, hafter⟩
      | true =>
        rw [ha] at hrows hafter
        rw [List.filter_cons_of_pos (by simp [hv, ha])]
        refine ⟨?_, hafter⟩
        rw [List.map_cons, Hit.deduplicated, apply_ite (List.map _), List.map_cons, hrows,
          apply_ite (List.filter p), List.filter_cons, hp]
        cases (⟨index.id, r⟩ : Hit T).admitted passed <;>
          cases b (r.decoded index.model) <;> cases c (r.decoded index.model) <;> rfl

end

/-- Filters that are added behind those of a call are asked behind them. -/
theorem QueryOptions.clientFilters_append (o : QueryOptions) (filters more : List Filter) :
    (o.withFilters (filters ++ more)).clientFilters =
      (o.withFilters filters).clientFilters ++ more := by
  rw [clientFilters_eq, clientFilters_eq, List.append_assoc]
  rfl

namespace Store

variable {s : Store T} {q : Query} {o : QueryOptions} {before after : List Filter}

private theorem siftEach_of_dedupes {a b : DecodedRow → Bool} {p : Hit T → Bool} {labels : Labels}
    {passed : List (Bytes × Bytes)} {client : List Filter} {indices : List Index}
    (hc : Filter.Dedupes a b passed client) (ho : ∀ model, ∀ f ∈ q.filters model, f.Stateless)
    (hp : ∀ i ∈ indices, ∀ r, p ⟨i.id, r⟩ =
      (b (r.decoded i.model) && (q.filters i.model).all (·.accepts (r.decoded i.model)))) :
    siftEach labels client (indices.map (IndexScan.start s q)) =
      (Hit.deduplicated passed ((indices.filter q.supports).flatMap fun i ↦
        ((s.rowsFor q i).filter fun r ↦ r.isVisible labels && a (r.decoded i.model)).map
          (⟨i.id, ·⟩))).filter p := by
  induction indices generalizing passed client with
  | nil => rfl
  | cons i rest ih =>
    obtain ⟨hi, hrest⟩ := List.forall_mem_cons.mp hp
    rw [List.map_cons, siftEach, IndexScan.start]
    cases hq : q.supports i with
    | false =>
      rw [List.filter_cons_of_neg (by simp [hq])]
      exact ih hc hrest
    | true =>
      obtain ⟨hrows, hafter⟩ := sift_of_dedupes labels hc
        (Filter.answers_of_stateless (ho i.model)) hi (s.rowsFor q i)
      rw [List.filter_cons_of_pos hq, List.flatMap_cons, Hit.deduplicated_append,
        List.filter_append, ← hrows, ← ih hafter hrest]
      rfl

private theorem value_query_unfiltered (hf : q.unfiltered.Stateless o)
    (hlimit : o.effectiveLimit s.config.defaultLimit = none) :
    (s.query q.unfiltered o).value =
      ((s.targeted o.index).filter q.supports).flatMap fun i ↦
        ((s.rowsFor q i).filter fun r ↦ r.isVisible o.labels &&
          o.clientFilters.all (·.accepts (r.decoded i.model))).map (⟨i.id, ·⟩) := by
  rw [value_query_of_unlimited hlimit, s.listing_eq_flatMap hf]
  simp only [Query.passes, Query.unfiltered, List.all_nil, Bool.and_true]
  rfl

/-- Without a limit and with stateless filters around deduplication, what is yielded without
deduplication are the rows that meet a condition, of those that the filters before it accept. What
is yielded with deduplication are the rows that meet this condition, of those that it lets pass. -/
theorem WF.exists_filter_of_dedupe (hs : s.WF) (hf : q.Stateless (o.withFilters (before ++ after)))
    (hlimit : o.effectiveLimit s.config.defaultLimit = none) :
    let asked := (s.query q.unfiltered (o.withFilters before)).value
    ∃ p, (s.query q (o.withFilters (before ++ after))).value = asked.filter p ∧
      (s.query q (o.withFilters (before ++ .dedupe [] :: after))).value =
        (Hit.deduplicated [] asked).filter p := by
  intro asked
  let p (h : Hit T) : Bool := s.indices[h.index]?.any fun i ↦
    after.all (·.accepts (h.row.decoded i.model)) &&
      (q.filters i.model).all (·.accepts (h.row.decoded i.model))
  have hp : ∀ i ∈ s.targeted o.index, ∀ r : StoredRow T, p ⟨i.id, r⟩ =
      (after.all (·.accepts (r.decoded i.model)) &&
        (q.filters i.model).all (·.accepts (r.decoded i.model))) := by
    intro i hi r
    rw [targeted_eq] at hi
    simp only [p, hs.getElem?_of_mem_named hi, Option.any_some]
  have hlisting (filters : List Filter) :
      (s.query q (o.withFilters filters)).value = s.listing q (o.withFilters filters) :=
    value_query_of_unlimited hlimit
  have hbefore : q.unfiltered.Stateless (o.withFilters before) :=
    ⟨fun f hm ↦ hf.client f (List.mem_append_left after hm), fun _ _ hm ↦ nomatch hm⟩
  have hasked := value_query_unfiltered hbefore hlimit
  refine ⟨p, ?_, ?_⟩
  · rw [hlisting, s.listing_eq_flatMap hf, show asked = _ from hasked, List.filter_flatMap,
      List.flatMap_def, List.flatMap_def]
    congr 1
    apply List.map_congr_left
    intro i hi
    rw [List.filter_map, List.filter_filter]
    congr 1
    apply List.filter_congr
    intro r _
    rw [Query.passes, QueryOptions.clientFilters_append, List.all_append, Function.comp_apply,
      hp i (List.mem_filter.mp hi).1 r]
    ac_rfl
  · have hchain : Filter.Dedupes
        (fun row ↦ (o.withFilters before).clientFilters.all (·.accepts row))
        (fun row ↦ after.all (·.accepts row)) []
        ((o.withFilters before).clientFilters ++ .dedupe [] :: after) := by
      refine ⟨_, _, rfl, ?_, ?_⟩
      · exact Filter.answers_of_stateless hbefore.clientFilters
      · exact Filter.answers_of_stateless fun f hm ↦ hf.client f (List.mem_append_right before hm)
    rw [hlisting, listing, QueryOptions.clientFilters_append, show asked = _ from hasked]
    exact siftEach_of_dedupes hchain hf.own hp

/-- In every reachable store, adding deduplication between stateless filters of an unlimited call
takes away rows that have duplicates and nothing else, and leaves at most one of each source. A row
with duplicates stays only if deduplication is asked about no other one of its source before: none
of those that the filters before deduplication accept, whether or not the filters behind it and
those of the query accept them. No source is lost, therefore, unless these filters tell the rows of
a source apart. -/
theorem deduplication_asked_before_filters (hs : s.Reachable)
    (hf : q.Stateless (o.withFilters (before ++ after)))
    (hlimit : o.effectiveLimit s.config.defaultLimit = none) :
    let asked := (s.query q.unfiltered (o.withFilters before)).value
    let plain := (s.query q (o.withFilters (before ++ after))).value
    let deduped := (s.query q (o.withFilters (before ++ .dedupe [] :: after))).value
    plain.Sublist asked ∧ deduped.Sublist plain ∧
    (∀ h, h ∈ deduped ↔ h ∈ plain ∧ (h.duplicates ≤ 0 ∨ Hit.Leads asked h)) ∧
    ((deduped.filter fun h ↦ decide (0 < h.duplicates)).map Hit.source).Nodup ∧
    ((∀ h ∈ plain, ∀ g ∈ asked, g.source = h.source → g ∈ plain) →
      ∀ x, x ∈ deduped.map Hit.source ↔ x ∈ plain.map Hit.source) := by
  intro asked plain deduped
  obtain ⟨p, hplain, hdeduped⟩ := hs.wf.exists_filter_of_dedupe hf hlimit
  have hplain : plain = asked.filter p := hplain
  have hdeduped : deduped = (Hit.deduplicated [] asked).filter p := hdeduped
  have hasked : plain.Sublist asked := hplain ▸ List.filter_sublist
  have hsub : deduped.Sublist plain := by
    rw [hplain, hdeduped]
    exact (Hit.sublist_deduplicated [] asked).filter p
  have hmem (h : Hit T) : h ∈ deduped ↔ h ∈ plain ∧ (h.duplicates ≤ 0 ∨ Hit.Leads asked h) := by
    rw [hplain, hdeduped, List.mem_filter, List.mem_filter, Hit.mem_deduplicated_iff,
      and_right_comm]
    simp
  refine ⟨hasked, hsub, hmem, ?_, ?_⟩
  · have hfiltered : (deduped.filter fun h ↦ decide (0 < h.duplicates)).Sublist
        ((Hit.deduplicated [] asked).filter fun h ↦ decide (0 < h.duplicates)) := by
      rw [hdeduped]
      exact List.filter_sublist.filter _
    exact (Hit.nodup_deduplicated [] asked).sublist (hfiltered.map Hit.source)
  · intro halike x
    refine ⟨fun hx ↦ (hsub.map Hit.source).subset hx, ?_⟩
    intro hx
    obtain ⟨h, hm, rfl⟩ := List.mem_map.mp hx
    obtain ⟨g, hleads, hsource⟩ := Hit.exists_leads (hasked.subset hm)
    rw [← hsource]
    exact List.mem_map_of_mem ((hmem g).mpr ⟨halike h hm g hleads.mem hsource, .inr hleads⟩)

-- An entry of two keys, and one of the second key only.
private def sharedRows : Store Scripted.Entry :=
  (fresh {} {}).after
    [(Delivery.ofBytes [.ofBytes [0x64] [1, 2], .ofBytes [0x65] [2]]).call]

/-- Without filters behind deduplication, both entries are yielded, each by its first row. -/
theorem deduplication_asked_before_no_filters :
    let deduped := (sharedRows.query .everything { filters := [.dedupe []] }).value
    deduped.map (fun h ↦ (h.row.row.id.key, h.source)) =
        [([1], ([0x61], [0x64])), ([2], ([0x61], [0x65]))] ∧
      ∀ x, x ∈ deduped.map Hit.source ↔
        x ∈ (sharedRows.query .everything {}).value.map Hit.source := by
  intro deduped
  have hf : Query.Stateless .everything (({} : QueryOptions).withFilters ([] ++ [])) :=
    ⟨nofun, nofun⟩
  obtain ⟨-, -, -, -, hsources⟩ := deduplication_asked_before_filters
    (s := sharedRows) (o := {}) ⟨{}, {}, _, rfl⟩ hf rfl
  exact ⟨by decide +kernel, hsources fun _ _ _ hg _ ↦ hg⟩

/-- A query for the second key yields both entries. With deduplication it yields only the one that
has no other key: the row of the first key has passed for the other entry, before the query refuses
it. -/
theorem deduplication_loses_entry :
    (sharedRows.query (.ofKey [2]) {}).value.map Hit.source =
        [([0x61], [0x64]), ([0x61], [0x65])] ∧
      (sharedRows.query (.ofKey [2]) { filters := [.dedupe []] }).value.map Hit.source =
        [([0x61], [0x65])] := by
  decide +kernel

end Store

end RowVault
