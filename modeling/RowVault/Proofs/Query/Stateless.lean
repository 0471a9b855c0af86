import RowVault.Proofs.Query.Selection

/-!
# Filters that remember nothing

A filter is stateless if its answer about a row does not depend on the rows that it has been shown
before. A chain of stateless filters answers by a single condition on rows, and what it leaves of
the rows of an index are those that meet the condition, index by index and whatever comes before.
-/

namespace RowVault

variable {T : Type}

namespace Filter

/-- Whether a filter accepts a row. -/
def accepts (f : Filter) (row : DecodedRow) : Bool := (ask row f).value.1

/-- The filter after it has been shown rows, one after the other. -/
def afterEach (f : Filter) (shown : List DecodedRow) : Filter :=
  shown.foldl (fun f row ↦ (ask row f).value.2) f

/-- The filter answers by a condition, whatever it has been shown. -/
def Answers (f : Filter) (p : DecodedRow → Bool) : Prop :=
  ∀ shown row, (f.afterEach shown).accepts row = p row

/-- The answers of the filter do not depend on what it has been shown. -/
def Stateless (f : Filter) : Prop := f.Answers f.accepts

section

variable {f : Filter} {p q : DecodedRow → Bool} {filters rest : List Filter} {row : DecodedRow}

/-- A filter that answers by a condition still does so when it has been shown a row. -/
theorem Answers.ask (h : f.Answers p) (row : DecodedRow) : (ask row f).value.2.Answers p :=
  fun shown ↦ h (row :: shown)

/-- A filter that stays as it is is stateless. -/
theorem stateless_of_fixed (h : ∀ row, (ask row f).value.2 = f) : f.Stateless := by
  intro shown row
  have hafter : f.afterEach shown = f := by
    induction shown with
    | nil => rfl
    | cons r rest ih =>
      change ((ask r f).value.2).afterEach rest = f
      rw [h r, ih]
  rw [hafter]

/-- A filter of adapters is stateless. -/
theorem stateless_adapters (ids : List Bytes) : (adapters ids).Stateless :=
  stateless_of_fixed fun _ ↦ by rw [Filter.ask]; rfl

/-- A filter of entries is stateless. -/
theorem stateless_entries (ids : List Bytes) : (entries ids).Stateless :=
  stateless_of_fixed fun _ ↦ by rw [Filter.ask]; rfl

/-- A filter of the host is stateless if its decision looks at the row at hand only. -/
theorem stateless_host {decides : List DecodedRow → DecodedRow → Bool}
    (h : ∀ earlier row, decides earlier row = decides [] row) (earlier : List DecodedRow) :
    (host decides earlier).Stateless := by
  have haccepts : ∀ earlier row, (host decides earlier).accepts row = decides [] row := by
    intro earlier row
    rw [accepts, Filter.ask]
    exact h earlier row
  intro shown row
  rw [haccepts]
  induction shown generalizing earlier with
  | nil => exact haccepts earlier row
  | cons r rest ih =>
    have hnext : (Filter.ask r (host decides earlier)).value.2 = host decides (r :: earlier) := by
      rw [Filter.ask]
      rfl
    change (((Filter.ask r (host decides earlier)).value.2).afterEach rest).accepts row = _
    rw [hnext]
    exact ih (r :: earlier)

/-! ## Chains -/

/-- A chain that is a filter itself is asked as a chain. -/
theorem value_ask_every (row : DecodedRow) (filters : List Filter) :
    (Filter.ask row (every filters)).value =
      ((askEvery row filters).value.1, every (askEvery row filters).value.2) := by
  rw [Filter.ask]
  rfl

/-- A chain of filters that answers by a condition answers by it at once, and goes on to do so. -/
theorem Answers.askEvery (h : (every filters).Answers p) (row : DecodedRow) :
    ∃ filters', (askEvery row filters).value = (p row, filters') ∧ (every filters').Answers p := by
  have hnow : (Filter.ask row (every filters)).value.1 = p row := h [] row
  have hnext := h.ask row
  rw [value_ask_every] at hnow hnext
  exact ⟨_, by rw [← hnow], hnext⟩

/-- A chain answers by all conditions of its filters. -/
theorem Answers.cons (hf : f.Answers p) (hrest : (every rest).Answers q) :
    (every (f :: rest)).Answers fun row ↦ p row && q row := by
  intro shown row
  induction shown generalizing f rest with
  | nil =>
    obtain ⟨rest', hasked, -⟩ := hrest.askEvery row
    have hp : (Filter.ask row f).value.1 = p row := hf [] row
    rw [afterEach, List.foldl_nil, accepts, value_ask_every, askEvery_cons, hp, hasked]
    dsimp only
    cases p row <;> rfl
  | cons r shown ih =>
    obtain ⟨rest', hasked, hrest'⟩ := hrest.askEvery r
    have hstep : (every (f :: rest)).afterEach (r :: shown) =
        (every (Filter.askEvery r (f :: rest)).value.2).afterEach shown := by
      rw [afterEach, List.foldl_cons, value_ask_every, ← afterEach]
    rw [hstep, askEvery_cons, hasked]
    -- The filters behind the first one are shown the row only if that one accepts it.
    cases (Filter.ask r f).value.1 with
    | false => exact ih (hf.ask r) hrest
    | true => exact ih (hf.ask r) hrest'

/-- A chain without filters accepts every row. -/
theorem answers_nil : (every []).Answers fun _ ↦ true := by
  have hfixed : (every []).Stateless := by
    apply stateless_of_fixed
    intro row
    rw [value_ask_every, Filter.askEvery]
    rfl
  intro shown row
  rw [hfixed shown row, accepts, value_ask_every, Filter.askEvery]
  rfl

/-- A chain of stateless filters accepts the rows that all of them accept. -/
theorem answers_of_stateless (h : ∀ f ∈ filters, f.Stateless) :
    (every filters).Answers fun row ↦ filters.all (·.accepts row) := by
  induction filters with
  | nil => exact answers_nil
  | cons f rest ih =>
    rw [List.forall_mem_cons] at h
    exact Answers.cons h.1 (ih h.2)

end

end Filter

/-! ## Queries with stateless filters -/

/-- Sifting by chains that answer by conditions keeps the visible rows that meet both. -/
theorem sift_eq_filter (model : IndexModel) (labels : Labels) {client own : List Filter}
    {p q : DecodedRow → Bool} (hc : (Filter.every client).Answers p)
    (ho : (Filter.every own).Answers q) (rows : List (StoredRow T)) :
    (sift model labels client own rows).1 =
        rows.filter (fun r ↦ r.isVisible labels && (p (r.decoded model) && q (r.decoded model))) ∧
      (Filter.every (sift model labels client own rows).2).Answers p := by
  induction rows generalizing client own with
  | nil => exact ⟨rfl, hc⟩
  | cons r rest ih =>
    obtain ⟨client', hclient, hc'⟩ := hc.askEvery (r.decoded model)
    obtain ⟨own', hown, ho'⟩ := ho.askEvery (r.decoded model)
    cases hv : r.isVisible labels with
    | false =>
      rw [sift_cons_hidden hv, List.filter_cons_of_neg (by simp [hv])]
      exact ih hc ho
    | true =>
      cases hp : p (r.decoded model) with
      | false =>
        rw [hp] at hclient
        rw [sift_cons_refused hv hclient, List.filter_cons_of_neg (by simp [hp])]
        exact ih hc' ho
      | true =>
        rw [hp] at hclient
        cases hq : q (r.decoded model) with
        | false =>
          rw [hq] at hown
          rw [sift_cons_passed hv hclient hown, List.filter_cons_of_neg (by simp [hq])]
          exact ih hc' ho'
        | true =>
          rw [hq] at hown
          rw [sift_cons_kept hv hclient hown, List.filter_cons_of_pos (by simp [hv, hp, hq])]
          exact ⟨congrArg (r :: ·) (ih hc' ho').1, (ih hc' ho').2⟩

/-- Whether the filters of a call and of the query accept a row of an index. -/
def Query.passes (q : Query) (o : QueryOptions) (index : Index) (r : StoredRow T) : Bool :=
  o.clientFilters.all (·.accepts (r.decoded index.model)) &&
    (q.filters index.model).all (·.accepts (r.decoded index.model))

/-- The filters of a call and of a query are stateless. -/
structure Query.Stateless (q : Query) (o : QueryOptions) : Prop where
  client : ∀ f ∈ o.filters, f.Stateless
  own : ∀ model, ∀ f ∈ q.filters model, f.Stateless

/-- The scope of a call does not make its filters remember anything. -/
theorem Query.Stateless.clientFilters {q : Query} {o : QueryOptions} (h : q.Stateless o) :
    ∀ f ∈ o.clientFilters, f.Stateless := by
  intro f hf
  rw [QueryOptions.clientFilters] at hf
  split at hf
  · exact h.client f hf
  · rcases List.mem_cons.mp hf with rfl | hf
    · exact Filter.stateless_adapters o.adapters
    · exact h.client f hf

namespace Store

/-- A query with stateless filters lists, index by index, the visible rows that its scan meets and
that all filters accept. -/
theorem listing_eq_flatMap (s : Store T) {q : Query} {o : QueryOptions} (h : q.Stateless o) :
    s.listing q o = ((s.targeted o.index).filter q.supports).flatMap fun i ↦
      ((s.rowsFor q i).filter fun r ↦ r.isVisible o.labels && q.passes o i r).map (⟨i.id, ·⟩) := by
  have heach : ∀ (client : List Filter) (p : DecodedRow → Bool) (indices : List Index),
      (Filter.every client).Answers p →
        siftEach o.labels client (indices.map (IndexScan.start s q)) =
          (indices.filter q.supports).flatMap fun i ↦
            ((s.rowsFor q i).filter fun r ↦ r.isVisible o.labels && (p (r.decoded i.model) &&
              (q.filters i.model).all (·.accepts (r.decoded i.model)))).map (⟨i.id, ·⟩) := by
    intro client p indices hc
    induction indices generalizing client with
    | nil => rfl
    | cons i rest ih =>
      rw [List.map_cons, siftEach, IndexScan.start]
      cases hq : q.supports i with
      | false =>
        rw [List.filter_cons_of_neg (by simp [hq])]
        exact ih client hc
      | true =>
        obtain ⟨hrows, hafter⟩ := sift_eq_filter i.model o.labels hc
          (Filter.answers_of_stateless (h.own i.model)) (s.rowsFor q i)
        rw [List.filter_cons_of_pos hq, List.flatMap_cons, ← hrows, ← ih _ hafter]
        rfl
  exact heach _ _ _ (Filter.answers_of_stateless h.clientFilters)

end Store

end RowVault
