import Std.Data.DTreeMap.Internal.WF.Lemmas
import Std.Data.ExtTreeMap

/-!
# Entries of ordered maps

The list of a map's entries, up to order, after one entry has been put in or looked up, the order of
the values, and lookups where entries that are there stand.
-/

namespace RowVault.OrderedMap

variable {K V : Type} [Ord K] [Std.TransOrd K] [Std.LawfulEqOrd K]

/-- No entry is listed twice. -/
theorem nodup_toList (m : Std.ExtTreeMap K V) : m.toList.Nodup := by
  apply m.distinct_keys_toList.imp
  intro a b h e
  exact h (by rw [e]; exact Std.ReflOrd.compare_self)

/-- The entries after an insertion are the new one and those of other keys. -/
theorem perm_toList_insert (m : Std.ExtTreeMap K V) (k : K) (v : V) :
    (m.insert k v).toList.Perm ((k, v) :: (m.erase k).toList) := by
  rw [List.perm_ext_iff_of_nodup (nodup_toList _)]
  · rintro ⟨a, b⟩
    rw [List.mem_cons, Std.ExtTreeMap.mem_toList_iff_getElem?_eq_some,
      Std.ExtTreeMap.mem_toList_iff_getElem?_eq_some, Std.ExtTreeMap.getElem?_insert,
      Std.ExtTreeMap.getElem?_erase]
    by_cases h : k = a
    · simp [h, eq_comm]
    · simp [h, Ne.symm h]
  · rw [List.nodup_cons]
    refine ⟨?_, nodup_toList _⟩
    simp [Std.ExtTreeMap.mem_toList_iff_getElem?_eq_some]

/-- The only entry of a map into which one has been put. -/
theorem toList_insert_empty (k : K) (v : V) :
    ((∅ : Std.ExtTreeMap K V).insert k v).toList = [(k, v)] := by
  have hperm := perm_toList_insert (∅ : Std.ExtTreeMap K V) k v
  rw [Std.ExtTreeMap.erase_empty, Std.ExtTreeMap.toList_eq_nil_iff.mpr rfl] at hperm
  exact List.perm_singleton.mp hperm

/-- The entries are that of a key and those of other keys. -/
theorem perm_toList_of_getElem? {m : Std.ExtTreeMap K V} {k : K} {v : V} (h : m[k]? = some v) :
    m.toList.Perm ((k, v) :: (m.erase k).toList) := by
  have he : m.insert k v = m := by
    apply Std.ExtTreeMap.ext_getElem?
    intro a
    rw [Std.ExtTreeMap.getElem?_insert]
    by_cases hk : k = a
    · simp [← hk, h]
    · simp [hk]
  have hp := perm_toList_insert m k v
  rwa [he] at hp

/-- An entry that is taken out and put in again is where it was. -/
theorem insert_erase_of_getElem? {m : Std.ExtTreeMap K V} {k : K} {v : V} (h : m[k]? = some v) :
    (m.erase k).insert k v = m := by
  apply Std.ExtTreeMap.ext_getElem?
  intro a
  rw [Std.ExtTreeMap.getElem?_insert, Std.ExtTreeMap.getElem?_erase]
  by_cases hk : k = a
  · simp [← hk, h]
  · simp [hk]

/-- Without an entry of a key, the entries are those of other keys. -/
theorem erase_of_getElem? {m : Std.ExtTreeMap K V} {k : K} (h : m[k]? = none) : m.erase k = m := by
  apply Std.ExtTreeMap.ext_getElem?
  intro a
  rw [Std.ExtTreeMap.getElem?_erase]
  by_cases hk : k = a
  · simp [← hk, h]
  · simp [hk]

/-- An entry that is there stands; otherwise the new one is put in. -/
theorem getElem?_insertIfNew [DecidableEq K] (m : Std.ExtTreeMap K V) (k a : K) (v : V) :
    (m.insertIfNew k v)[a]? = m[a]?.or (if k = a then some v else none) := by
  rw [Std.ExtTreeMap.getElem?_insertIfNew]
  simp only [Std.LawfulEqOrd.compare_eq_iff_eq]
  by_cases hk : k = a
  · subst hk
    by_cases hm : k ∈ m
    · rw [if_neg fun h ↦ h.2 hm, Std.ExtTreeMap.getElem?_eq_some_getElem hm, Option.some_or]
    · rw [if_pos ⟨rfl, hm⟩, Std.ExtTreeMap.getElem?_eq_none hm, if_pos rfl, Option.none_or]
  · rw [if_neg fun h ↦ hk h.1, if_neg hk, Option.or_none]

omit [Std.LawfulEqOrd K] in
/-- The values are those of the entries, in their order. -/
theorem values_eq (m : Std.ExtTreeMap K V) : m.values = m.toList.map (·.2) := by
  obtain ⟨m⟩ := m
  induction m using Std.ExtDTreeMap.inductionOn with
  | _ m =>
    show Std.DTreeMap.Internal.Impl.values m.inner =
      (Std.DTreeMap.Internal.Impl.Const.toList m.inner).map (·.2)
    rw [Std.DTreeMap.Internal.Impl.values_eq_map_snd,
      Std.DTreeMap.Internal.Impl.Const.toList_eq_toListModel_map, List.map_map]
    rfl

/-- Values that tell their own key are listed by ascending keys. -/
theorem pairwise_values {m : Std.ExtTreeMap K V} {key : V → K}
    (h : ∀ (k : K) (v : V), m[k]? = some v → key v = k) :
    (m.toList.map (·.2)).Pairwise fun v w ↦ compare (key v) (key w) = .lt := by
  have hkeys := Std.ExtTreeMap.ordered_keys (t := m)
  rw [← Std.ExtTreeMap.map_fst_toList_eq_keys, List.pairwise_map] at hkeys
  rw [List.pairwise_map]
  refine hkeys.imp_of_mem ?_
  rintro ⟨k, v⟩ ⟨l, w⟩ hv hw hlt
  rw [Std.ExtTreeMap.mem_toList_iff_getElem?_eq_some] at hv hw
  rwa [h k v hv, h l w hw]

end RowVault.OrderedMap
