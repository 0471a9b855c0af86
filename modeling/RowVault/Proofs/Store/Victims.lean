import RowVault.Proofs.OrderedMap
import RowVault.Proofs.Store.RowSets
import RowVault.Store.Delete

/-!
# Victims of a deletion

The hits of a query name filings in indices. Each filing is listed once, under the adapter of its
rows. Removing different victims one after the other removes all their rows, and takes each of them
back once.
-/

namespace RowVault

variable {T : Type}

/-- The rows of an index among the rows of all indices. -/
def rowsAt (rows : Std.ExtTreeMap Bytes (RowSet T)) (index : Bytes) : RowSet T :=
  rows.getD index ∅

/-- Only the rows of one index are put in. -/
theorem rowsAt_insert (rows : Std.ExtTreeMap Bytes (RowSet T)) (i j : Bytes) (x : RowSet T) :
    rowsAt (rows.insert i x) j = if i = j then x else rowsAt rows j := by
  simp [rowsAt, Std.ExtTreeMap.getD_insert]

/-! ## Victims -/

namespace Victim

variable {v w : Victim T} {rows after : Std.ExtTreeMap Bytes (RowSet T)}

/-- Whether a row of an index belongs to a victim. -/
def owns (v : Victim T) (index : Bytes) (r : StoredRow T) : Bool :=
  v.index == index && v.filing.number == r.filing.number

/-- The victim has a row, and lists all its rows. -/
structure Stands (rows : Std.ExtTreeMap Bytes (RowSet T)) (v : Victim T) : Prop where
  lists : (rowsAt rows v.index).Lists v.filing
  stored : ∃ (place : RowKey) (r : StoredRow T), (rowsAt rows v.index)[place]? = some r ∧
    r.filing.number = v.filing.number

/-- The same filing in the same index owns the same rows. -/
theorem owns_eq_of_same (h : v.same w = true) (index : Bytes) (r : StoredRow T) :
    v.owns index r = w.owns index r := by
  simp only [same, Bool.and_eq_true, beq_iff_eq] at h
  rw [owns, owns, h.1, h.2]

/-- It does not matter which of two victims is compared with the other one. -/
theorem same_comm (v w : Victim T) : v.same w = w.same v := by
  rw [same, same, BEq.comm, BEq.comm (a := v.filing.number)]

/-- A victim still stands where its rows are kept. -/
theorem Stands.of_keeps (h : w.Stands rows) {keep : Bytes → StoredRow T → Bool}
    (hafter : ∀ index, rowsAt after index = (rowsAt rows index).only (keep index))
    (hkeep : ∀ r : StoredRow T, r.filing.number = w.filing.number → keep w.index r = true) :
    w.Stands after := by
  constructor
  · rw [hafter]
    exact h.lists.only _
  · obtain ⟨place, r, hr, hn⟩ := h.stored
    refine ⟨place, r, ?_, hn⟩
    rw [hafter, RowSet.getElem?_only, hr, Option.filter_some, hkeep r hn]
    rfl

/-- A victim outlives the removal of another one. -/
theorem Stands.of_same_eq_false (h : w.Stands rows) (hd : v.same w = false)
    (hafter : ∀ index, rowsAt after index = (rowsAt rows index).only fun r ↦ !v.owns index r) :
    w.Stands after := by
  apply h.of_keeps hafter
  intro r hn
  have hkeep : v.owns w.index r = false := by
    rw [owns, hn]
    exact hd
  rw [hkeep]
  rfl

/-- A victim outlives the removal of other ones. -/
theorem Stands.of_forall_same_eq_false {victims : List (Victim T)} (h : w.Stands rows)
    (hd : ∀ v ∈ victims, v.same w = false)
    (hafter : ∀ index, rowsAt after index =
      (rowsAt rows index).only fun r ↦ !victims.any (·.owns index r)) : w.Stands after := by
  apply h.of_keeps hafter
  intro r hn
  have hkeep : victims.any (·.owns w.index r) = false := by
    rw [List.any_eq_false]
    intro v hv
    rw [owns, hn]
    exact Bool.eq_false_iff.mp (hd v hv)
  rw [hkeep]
  rfl

end Victim

namespace Deletion

/-- A victim that has rows is removed with all of them. -/
theorem value_remove (d : Deletion T) {v : Victim T} (h : v.Stands d.rows) :
    ∃ rows, (d.remove v).value = ⟨rows, d.tally.deleted v.filing.info, d.entries + 1⟩ ∧
      ∀ index, rowsAt rows index = (rowsAt d.rows index).only fun r ↦ !v.owns index r := by
  have hpos := (RowSet.removeFiling_pos_iff h.lists).mpr h.stored
  cases hv : d.rows[v.index]? with
  | none =>
    obtain ⟨place, r, hr, -⟩ := h.stored
    rw [rowsAt, Std.ExtTreeMap.getD_eq_getD_getElem?, hv] at hr
    simp at hr
  | some rows =>
    have hat : rowsAt d.rows v.index = rows := by
      rw [rowsAt, Std.ExtTreeMap.getD_eq_getD_getElem?, hv, Option.getD_some]
    rw [hat] at hpos
    refine ⟨d.rows.insert v.index (rows.removeFiling v.filing).1, ?_, ?_⟩
    · simp only [remove, hv, hpos, if_true]
      rfl
    · intro index
      rw [rowsAt_insert]
      by_cases hi : v.index = index
      · subst hi
        rw [if_pos rfl, ← hat, RowSet.removeFiling_eq h.lists]
        congr 1
        funext r
        rw [Bool.eq_iff_iff]
        simp only [Victim.owns, decide_eq_true_eq, beq_self_eq_true, Bool.true_and,
          Bool.not_eq_true', beq_eq_false_iff_ne]
        exact ⟨Ne.symm, Ne.symm⟩
      · rw [if_neg hi, RowSet.only_eq_self]
        intro place r hr
        simp [Victim.owns, hi]

/-- Different victims that have rows are all removed, and each is taken back and counted once. -/
theorem value_removeEach (d : Deletion T) (victims : List (Victim T))
    (hs : ∀ v ∈ victims, v.Stands d.rows) (hd : victims.Pairwise fun v w ↦ v.same w = false) :
    ∃ rows, (d.removeEach victims).value =
        ⟨rows, victims.foldl (fun t v ↦ t.deleted v.filing.info) d.tally,
          d.entries + victims.length⟩ ∧
      ∀ index, rowsAt rows index =
        (rowsAt d.rows index).only fun r ↦ !victims.any (·.owns index r) := by
  induction victims generalizing d with
  | nil =>
    refine ⟨d.rows, rfl, ?_⟩
    intro index
    rw [RowSet.only_eq_self]
    intro place r hr
    rfl
  | cons v rest ih =>
    obtain ⟨hne, hrest⟩ := List.pairwise_cons.mp hd
    obtain ⟨rows, hv, hrows⟩ := d.value_remove (hs v (by simp))
    have hstands : ∀ w ∈ rest, w.Stands rows := fun w hw ↦
      (hs w (by simp [hw])).of_same_eq_false (hne w hw) hrows
    obtain ⟨after, hafter, hat⟩ :=
      ih ⟨rows, d.tally.deleted v.filing.info, d.entries + 1⟩ hstands hrest
    refine ⟨after, ?_, ?_⟩
    · rw [removeEach, Traced.value_bind, hv, hafter, List.foldl_cons, List.length_cons,
        Nat.add_assoc, Nat.add_comm 1]
    · intro index
      rw [hat, hrows, RowSet.only_only]
      congr 1
      funext r
      rw [List.any_cons, Bool.not_or]

end Deletion

/-! ## The victims of a query -/

/-- The filing of a hit, which is removed if the query deletes. -/
def Hit.victim (h : Hit T) : Victim T := ⟨h.index, h.row.filing⟩

/-- Hits have been noted: their filings are listed once each, by the adapters of their rows. -/
structure Doomed.Notes (hits : List (Hit T)) (noted : List (Victim T) × Doomed T) : Prop where
  distinct : noted.1.Pairwise fun v w ↦ v.same w = false
  perm : (noted.2.toList.flatMap (·.2)).Perm noted.1
  source : ∀ {adapter victims}, noted.2[adapter]? = some victims → ∀ v ∈ victims,
    ∃ h ∈ hits, h.victim = v ∧ h.row.row.id.adapter = adapter
  covers : ∀ h ∈ hits, ∃ v ∈ noted.1, v.same h.victim = true

namespace Doomed

/-- Nothing has been noted at first. -/
theorem notes_nil : Notes (T := T) [] ([], ∅) where
  distinct := .nil
  perm := by simp
  source h := by simp at h
  covers h hm := by cases hm

private theorem perm_insert (doomed : Doomed T) (adapter : Bytes) (v : Victim T) :
    ((doomed.insert adapter (doomed.getD adapter [] ++ [v])).toList.flatMap (·.2)).Perm
      (v :: doomed.toList.flatMap (·.2)) := by
  have hnew := (OrderedMap.perm_toList_insert doomed adapter
    (doomed.getD adapter [] ++ [v])).flatMap_right (·.2)
  apply hnew.trans
  rw [List.flatMap_cons, Std.ExtTreeMap.getD_eq_getD_getElem?]
  cases ha : doomed[adapter]? with
  | none =>
    rw [OrderedMap.erase_of_getElem? ha]
    exact .refl _
  | some victims =>
    have hold := (OrderedMap.perm_toList_of_getElem? ha).flatMap_right (·.2)
    rw [List.flatMap_cons] at hold
    simp only [Option.getD_some, List.append_assoc, List.singleton_append]
    exact List.perm_middle.trans (hold.symm.cons v)

section

variable {hits : List (Hit T)} {noted : List (Victim T) × Doomed T} {h : Hit T}

private theorem Notes.add_known (hn : Notes hits noted) (hk : noted.1.any h.victim.same = true) :
    Notes (hits ++ [h]) noted := by
  obtain ⟨v, hv, hs⟩ := List.any_eq_true.mp hk
  refine ⟨hn.distinct, hn.perm, ?_, ?_⟩
  · intro adapter victims ha w hw
    obtain ⟨g, hg, h⟩ := hn.source ha w hw
    exact ⟨g, by simp [hg], h⟩
  · intro g hg
    rcases List.mem_append.mp hg with hg | hg
    · exact hn.covers g hg
    · rw [List.mem_singleton.mp hg]
      exact ⟨v, hv, by rw [Victim.same_comm, hs]⟩

private theorem Notes.add_new (hn : Notes hits noted) (hk : ¬ noted.1.any h.victim.same = true) :
    Notes (hits ++ [h]) (h.victim :: noted.1, noted.2.insert h.row.row.id.adapter
      (noted.2.getD h.row.row.id.adapter [] ++ [h.victim])) := by
  refine ⟨?_, ?_, ?_, ?_⟩
  · refine List.pairwise_cons.mpr ⟨?_, hn.distinct⟩
    intro w hw
    cases hs : h.victim.same w with
    | false => rfl
    | true => exact absurd (List.any_eq_true.mpr ⟨w, hw, hs⟩) hk
  · exact (perm_insert _ _ _).trans (hn.perm.cons _)
  · intro adapter victims ha w hw
    rw [Std.ExtTreeMap.getElem?_insert] at ha
    by_cases hadapter : h.row.row.id.adapter = adapter
    · rw [if_pos (by simp [hadapter])] at ha
      cases ha
      rcases List.mem_append.mp hw with hw | hw
      · rw [Std.ExtTreeMap.getD_eq_getD_getElem?] at hw
        cases hold : noted.2[h.row.row.id.adapter]? with
        | none => simp [hold] at hw
        | some victims =>
          rw [hold] at hw
          obtain ⟨g, hg, hv, ha⟩ := hn.source hold w hw
          exact ⟨g, by simp [hg], hv, ha.trans hadapter⟩
      · exact ⟨h, by simp, (List.mem_singleton.mp hw).symm, hadapter⟩
    · rw [if_neg (by simp [hadapter])] at ha
      obtain ⟨g, hg, h⟩ := hn.source ha w hw
      exact ⟨g, by simp [hg], h⟩
  · intro g hg
    rcases List.mem_append.mp hg with hg | hg
    · obtain ⟨v, hv, hs⟩ := hn.covers g hg
      exact ⟨v, List.mem_cons_of_mem _ hv, hs⟩
    · rw [List.mem_singleton.mp hg]
      exact ⟨h.victim, by simp, by simp [Victim.same]⟩

/-- One more hit is noted, unless its filing is known. -/
theorem Notes.add (hn : Notes hits noted) (h : Hit T) : Notes (hits ++ [h]) (note noted h) := by
  by_cases hk : noted.1.any h.victim.same = true
  · have he : note noted h = noted := by
      rw [Doomed.note]
      exact if_pos hk
    rw [he]
    exact hn.add_known hk
  · have he : note noted h = (h.victim :: noted.1, noted.2.insert h.row.row.id.adapter
        (noted.2.getD h.row.row.id.adapter [] ++ [h.victim])) := by
      rw [Doomed.note]
      exact if_neg hk
    rw [he]
    exact hn.add_new hk

end

/-- What has been noted of hits, one after the other. -/
def noted (hits : List (Hit T)) : List (Victim T) × Doomed T := hits.foldl note ([], ∅)

/-- All hits are noted. -/
theorem notes_noted (hits : List (Hit T)) : Notes hits (noted hits) := by
  have hall : ∀ (rest done : List (Hit T)) (state : List (Victim T) × Doomed T),
      Notes done state → Notes (done ++ rest) (rest.foldl note state) := by
    intro rest
    induction rest with
    | nil =>
      intro done state h
      rwa [List.append_nil]
    | cons h rest ih =>
      intro done state hd
      have := ih (done ++ [h]) (note state h) (hd.add h)
      rwa [List.append_assoc, List.singleton_append] at this
  exact hall hits [] _ notes_nil

/-- The victims of all adapters. -/
def victims (groups : List (Bytes × List (Victim T))) : List (Victim T) := groups.flatMap (·.2)

/-- No filing is listed twice among the victims. -/
theorem distinct_ofHits (hits : List (Hit T)) :
    (victims (ofHits hits)).Pairwise fun v w ↦ v.same w = false :=
  (notes_noted hits).perm.symm.pairwise (notes_noted hits).distinct fun {v w} h ↦ by
    rwa [Victim.same_comm]

/-- There are as many victims as filings have been noted. -/
theorem length_victims_ofHits (hits : List (Hit T)) :
    (victims (ofHits hits)).length = (noted hits).1.length :=
  (notes_noted hits).perm.length_eq

/-- A victim is the filing of a hit from its adapter. -/
theorem of_mem_ofHits {hits : List (Hit T)} {group : Bytes × List (Victim T)}
    (hg : group ∈ ofHits hits) {v : Victim T} (hv : v ∈ group.2) :
    ∃ h ∈ hits, h.victim = v ∧ h.row.row.id.adapter = group.1 := by
  obtain ⟨adapter, victims⟩ := group
  exact (notes_noted hits).source (Std.ExtTreeMap.mem_toList_iff_getElem?_eq_some.mp hg) v hv

/-- Where keys tell filings apart, the keys of the filings that are noted are those of the hits,
each once. -/
theorem keys_noted {K : Type} (κ : Victim T → K) {hits : List (Hit T)}
    (hκ : ∀ h ∈ hits, ∀ g ∈ hits, κ h.victim = κ g.victim ↔ h.victim.same g.victim = true) :
    ((noted hits).1.map κ).Nodup ∧
      ∀ k, k ∈ (noted hits).1.map κ ↔ k ∈ hits.map fun h ↦ κ h.victim := by
  have hn := notes_noted hits
  have hsource : ∀ v ∈ (noted hits).1, ∃ h ∈ hits, h.victim = v := by
    intro v hv
    obtain ⟨group, hg, hv⟩ := List.mem_flatMap.mp (hn.perm.mem_iff.mpr hv)
    obtain ⟨h, hh, he, -⟩ := of_mem_ofHits hg hv
    exact ⟨h, hh, he⟩
  constructor
  · apply List.pairwise_map.mpr
    apply hn.distinct.imp_of_mem
    intro v w hv hw hd he
    obtain ⟨h, hh, rfl⟩ := hsource v hv
    obtain ⟨g, hg, rfl⟩ := hsource w hw
    rw [(hκ h hh g hg).mp he] at hd
    cases hd
  · intro k
    constructor
    · intro hk
      obtain ⟨v, hv, rfl⟩ := List.mem_map.mp hk
      obtain ⟨h, hh, rfl⟩ := hsource v hv
      exact List.mem_map_of_mem hh
    · intro hk
      obtain ⟨h, hh, rfl⟩ := List.mem_map.mp hk
      obtain ⟨v, hv, hs⟩ := hn.covers h hh
      obtain ⟨g, hg, rfl⟩ := hsource v hv
      rw [← (hκ g hg h hh).mpr hs]
      exact List.mem_map_of_mem hv

/-- The victims own the rows that the filings of the hits own. -/
theorem any_owns_ofHits (hits : List (Hit T)) (index : Bytes) (r : StoredRow T) :
    (victims (ofHits hits)).any (·.owns index r) = hits.any (·.victim.owns index r) := by
  rw [Bool.eq_iff_iff, List.any_eq_true, List.any_eq_true]
  constructor
  · rintro ⟨v, hv, ho⟩
    obtain ⟨group, hg, hv⟩ := List.mem_flatMap.mp hv
    obtain ⟨h, hh, rfl, -⟩ := of_mem_ofHits hg hv
    exact ⟨h, hh, ho⟩
  · rintro ⟨h, hh, ho⟩
    obtain ⟨v, hv, hs⟩ := (notes_noted hits).covers h hh
    exact ⟨v, (notes_noted hits).perm.mem_iff.mpr hv, by rw [Victim.owns_eq_of_same hs, ho]⟩

end Doomed

end RowVault
