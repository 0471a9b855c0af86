import RowVault.Proofs.Row.Identity
import RowVault.Proofs.Store.Invariant
import RowVault.Proofs.Store.RowWindows

/-!
# The order of rows

The bytes of a row id begin with the insertion key, but nothing tells where it ends. So places order
rows on the key first: of two keys of which neither is a prefix of the other one, the bytes and the
identities compare as the keys do, and places compare as the keys do in any case. In a row set, the
rows of one key stand together, and a key, a data id and an adapter together have one row at most.
-/

namespace RowVault

/-! ## Two rows -/

/-- Where neither of two byte strings is a prefix of the other one, what follows them does not
matter. -/
theorem Bytes.compare_append {k l : Bytes} (hkl : ¬ k <+: l) (hlk : ¬ l <+: k) (x y : Bytes) :
    compare (k ++ x) (l ++ y) = compare k l := by
  induction k generalizing l with
  | nil => exact absurd (List.nil_prefix) hkl
  | cons b k ih =>
    cases l with
    | nil => exact absurd (List.nil_prefix) hlk
    | cons c l =>
      rw [List.cons_append, List.cons_append, List.compare_cons_cons, List.compare_cons_cons]
      by_cases hbc : b = c
      · subst hbc
        rw [List.cons_prefix_cons, and_iff_right rfl] at hkl hlk
        rw [ih hkl hlk]
      · -- The first bytes decide.
        have hne : compare b c ≠ .eq := fun h ↦ hbc (Std.LawfulEqOrd.eq_of_compare h)
        cases h : compare b c with
        | lt => rfl
        | eq => exact absurd h hne
        | gt => rfl

namespace RowId

variable {r s : RowId}

/-- An identity is the key and what follows it. -/
theorem exists_identity_eq (r : RowId) : ∃ rest, r.identity = r.key ++ rest := by
  simp only [identity, List.append_assoc]
  exact ⟨_, rfl⟩

/-- Identities compare as the keys do, unless one key is a prefix of the other one. -/
theorem compare_identity (hrs : ¬ r.key <+: s.key) (hsr : ¬ s.key <+: r.key) :
    compare r.identity s.identity = compare r.key s.key := by
  obtain ⟨x, hx⟩ := r.exists_identity_eq
  obtain ⟨y, hy⟩ := s.exists_identity_eq
  rw [hx, hy, Bytes.compare_append hrs hsr]

/-- Row ids compare as the keys do, unless one key is a prefix of the other one. -/
theorem compare_bytes (hrs : ¬ r.key <+: s.key) (hsr : ¬ s.key <+: r.key) :
    compare r.bytes s.bytes = compare r.key s.key := by
  obtain ⟨x, hx⟩ := r.exists_identity_eq
  obtain ⟨y, hy⟩ := s.exists_identity_eq
  rw [bytes, bytes, hx, hy, List.append_assoc, List.append_assoc, Bytes.compare_append hrs hsr]

end RowId

/-- Places compare as the keys do, unless these are equal. -/
theorem RowKey.compare_of_key_ne {p q : RowKey} (h : p.key ≠ q.key) :
    compare p q = compare p.key q.key := by
  rw [compare_def]
  cases hc : compare p.key q.key with
  | lt => rfl
  | eq => exact absurd (Std.LawfulEqOrd.eq_of_compare hc) h
  | gt => rfl

/-! ## Row sets -/

namespace RowSet

variable {T : Type} {rows : RowSet T}

/-- A row set that comes from nothing by putting in rows with their encodings and taking out the
rows of places. -/
inductive Built : RowSet T → Prop where
  | empty : Built ∅
  | insert {rows : RowSet T} (h : Built rows) {r : StoredRow T}
    (hr : r.row.id.encode = .ok r.row.raw) : Built (rows.insert r.place r)
  | erase {rows : RowSet T} (h : Built rows) (place : RowKey) : Built (rows.erase place)

private theorem getElem?_of_getElem?_erase {place other : RowKey} {r : StoredRow T}
    (h : (rows.erase place)[other]? = some r) : rows[other]? = some r := by
  rw [Std.ExtTreeMap.getElem?_erase] at h
  split at h
  · cases h
  · exact h

/-- Taking out the row of a place leaves the others at theirs. -/
theorem Placed.erase (h : rows.Placed) (place : RowKey) : Placed (rows.erase place) :=
  fun other q hq ↦ h other q (getElem?_of_getElem?_erase hq)

/-- Every row is put in at its place. -/
theorem Built.placed (h : rows.Built) : rows.Placed := by
  induction h with
  | empty => exact placed_empty
  | insert _ _ ih => exact ih.insert _
  | erase _ place ih => exact ih.erase place

/-- Every row carries the encoding of its row id. -/
theorem Built.encode_eq (h : rows.Built) {place : RowKey} {r : StoredRow T}
    (hr : rows[place]? = some r) : r.row.id.encode = .ok r.row.raw := by
  induction h with
  | empty => simp at hr
  | insert _ hnew ih =>
    rw [Std.ExtTreeMap.getElem?_insert] at hr
    split at hr
    · cases hr
      exact hnew
    · exact ih hr
  | erase _ _ ih => exact ih (getElem?_of_getElem?_erase hr)

/-- Rows with their encodings, each at its own place, can be put in one after the other. -/
theorem Placed.built (h : rows.Placed)
    (henc : ∀ {place : RowKey} {r}, rows[place]? = some r → r.row.id.encode = .ok r.row.raw) :
    rows.Built := by
  induction hn : rows.size generalizing rows with
  | zero =>
    rw [Std.ExtTreeMap.eq_empty_iff_size_eq_zero.mpr hn]
    exact .empty
  | succ n ih =>
    have hne : rows ≠ ∅ := by
      rintro rfl
      simp at hn
    obtain ⟨place, hmem⟩ : ∃ place, place ∈ rows := by
      simpa using mt Std.ExtTreeMap.eq_empty_iff_forall_not_mem.mpr hne
    have hr := Std.ExtTreeMap.getElem?_eq_some_getElem hmem
    have hsize : (rows.erase place).size = n := by
      rw [Std.ExtTreeMap.size_erase, if_pos (Std.ExtTreeMap.mem_iff_contains.mp hmem), hn,
        Nat.add_sub_cancel]
    have herase : Built (rows.erase place) :=
      ih (h.erase place) (fun hq ↦ henc (getElem?_of_getElem?_erase hq)) hsize
    have hinsert := herase.insert (henc hr)
    rwa [h place _ hr, OrderedMap.insert_erase_of_getElem? hr] at hinsert

/-- The rows of one key stand together, behind those of lesser keys and before those of greater
ones. -/
theorem Placed.exists_all_eq (h : rows.Placed) (key : Bytes) :
    ∃ before after, rows.all = before ++ rows.all.filter (fun r ↦ r.row.id.key == key) ++ after ∧
      (∀ r ∈ before, r.row.id.key < key) ∧ ∀ r ∈ after, key < r.row.id.key := by
  have hkeys : rows.all.Pairwise fun r q ↦ r.row.id.key ≤ q.row.id.key := by
    refine h.precedes.imp fun hrq ↦ ?_
    rcases hrq with hlt | ⟨heq, -⟩
    · exact Std.le_of_lt hlt
    · exact Std.le_of_eq heq
  have hupTo : rows.all.filter (fun r ↦ decide (r.row.id.key < key)) ++
      rows.all.filter (fun r ↦ r.row.id.key == key) =
        rows.all.filter fun r ↦ decide (r.row.id.key ≤ key) := by
    rw [filter_append_filter hkeys]
    · exact List.filter_congr fun r _ ↦ by grind
    · grind
    · grind
  have hall : rows.all.filter (fun r ↦ decide (r.row.id.key ≤ key)) ++
      rows.all.filter (fun r ↦ decide (key < r.row.id.key)) = rows.all := by
    rw [filter_append_filter hkeys]
    · exact List.filter_eq_self.mpr fun r _ ↦ by grind
    · grind
    · grind
  refine ⟨rows.all.filter fun r ↦ decide (r.row.id.key < key),
    rows.all.filter fun r ↦ decide (key < r.row.id.key), ?_, ?_, ?_⟩
  · rw [hupTo, hall]
  · simp
  · simp

/-- A key, a data id and an adapter together have one row at most. -/
theorem Built.nodup_all (h : rows.Built) :
    (rows.all.map fun r ↦ (r.row.id.key, r.row.id.data, r.row.id.adapter)).Nodup := by
  refine List.pairwise_map.mpr (h.placed.ascends.imp_of_mem ?_)
  intro r q hr hq hlt heq
  obtain ⟨_, hr⟩ := RowSet.mem_all_iff.mp hr
  obtain ⟨_, hq⟩ := RowSet.mem_all_iff.mp hq
  have hplace : r.place = q.place := by
    refine (RowKey.ofRow_inj (h.encode_eq hr) (h.encode_eq hq)).mpr ?_
    simpa using heq
  rw [hplace, Std.ReflOrd.compare_self] at hlt
  cases hlt

/-- Places and identities tell rows apart up to the number of duplicates. Places compare as the
insertion keys do where these differ, also if one is a prefix of the other one; otherwise, so do the
encoded row ids and the identities. In a row set, as every index of a store has one, the rows of a
key stand together and a key, a data id and an adapter have one row at most. -/
theorem places_identify_rows :
    (∀ (r s : RowId) (a b : Bytes), r.encode = .ok a → s.encode = .ok b →
      (RowKey.ofRow r a = RowKey.ofRow s b ↔ RowId.identityOf a = RowId.identityOf b) ∧
      (RowId.identityOf a = RowId.identityOf b ↔
        r.key = s.key ∧ r.data = s.data ∧ r.adapter = s.adapter) ∧
      (r.key ≠ s.key → compare (RowKey.ofRow r a) (RowKey.ofRow s b) = compare r.key s.key) ∧
      (¬ r.key <+: s.key → ¬ s.key <+: r.key →
        compare a b = compare r.key s.key ∧
          compare (RowId.identityOf a) (RowId.identityOf b) = compare r.key s.key)) ∧
    (∀ rows : RowSet T, rows.Built →
      (∀ key, ∃ before after,
        rows.all = before ++ rows.all.filter (fun r ↦ r.row.id.key == key) ++ after ∧
          (∀ r ∈ before, r.row.id.key < key) ∧ ∀ r ∈ after, key < r.row.id.key) ∧
      (rows.all.map fun r ↦ (r.row.id.key, r.row.id.data, r.row.id.adapter)).Nodup) ∧
    ∀ s : Store T, s.Reachable → ∀ index, (s.rowsOf index).Built := by
  refine ⟨?pairs, ?sets, ?stores⟩
  case pairs =>
    intro r s a b hr hs
    have hidentity : RowId.identityOf a = RowId.identityOf b ↔
        r.key = s.key ∧ r.data = s.data ∧ r.adapter = s.adapter := by
      rw [← RowId.identity_inj hr hs, ← RowId.identityOf_bytes r, ← RowId.identityOf_bytes s,
        (RowId.encode_eq_ok_iff.mp hr).2.2, (RowId.encode_eq_ok_iff.mp hs).2.2]
    refine ⟨(RowKey.ofRow_inj hr hs).trans hidentity.symm, hidentity,
      fun hne ↦ RowKey.compare_of_key_ne hne, fun hrs hsr ↦ ?_⟩
    obtain ⟨-, -, rfl⟩ := RowId.encode_eq_ok_iff.mp hr
    obtain ⟨-, -, rfl⟩ := RowId.encode_eq_ok_iff.mp hs
    rw [RowId.identityOf_bytes, RowId.identityOf_bytes]
    exact ⟨RowId.compare_bytes hrs hsr, RowId.compare_identity hrs hsr⟩
  case sets =>
    intro rows hrows
    exact ⟨hrows.placed.exists_all_eq, hrows.nodup_all⟩
  case stores =>
    intro s hs index
    have hwf := hs.wf.rows index
    exact hwf.placed.built hwf.encode_eq

private def alone (key : Bytes) (duplicates : Int32) : StoredRow Unit :=
  let row : RowId := ⟨key, [0x64], [0x61], duplicates⟩
  ⟨⟨row, row.bytes⟩, ⟨0, ⟨[⟨row, row.bytes⟩], []⟩, ()⟩⟩

private theorem encode_alone (key : Bytes) (duplicates : Int32) :
    (alone key duplicates).row.id.encode = .ok (alone key duplicates).row.raw := by
  have hlength : 1 < RowId.segmentBound := by decide
  exact RowId.encode_eq_ok_iff.mpr ⟨hlength, hlength, rfl⟩

/-- A row takes the place of one that differs in the number of duplicates, and it comes before the
row of a longer key, although its bytes do not. -/
theorem places_identify_rows_prefix :
    let short := alone [0x01] 0
    let again := alone [0x01] 3
    let long := alone [0x01, 0x00] 0
    let other := alone [0x02] 0
    let rows : RowSet Unit := ((Std.ExtTreeMap.insert ∅ long.place long).insert short.place
      short).insert again.place again
    short.place = again.place ∧ compare short.place long.place = .lt ∧
      compare short.row.raw long.row.raw = .gt ∧ compare long.row.raw other.row.raw = .lt ∧
      rows.Built ∧
      (rows.all.map fun r ↦ (r.row.id.key, r.row.id.data, r.row.id.adapter)).Nodup := by
  intro short again long other rows
  obtain ⟨hpairs, hsets, -⟩ := places_identify_rows (T := Unit)
  have hshort : short.row.id.encode = .ok short.row.raw := encode_alone _ _
  have hagain : again.row.id.encode = .ok again.row.raw := encode_alone _ _
  have hlong : long.row.id.encode = .ok long.row.raw := encode_alone _ _
  have hbuilt : rows.Built := ((Built.empty.insert hlong).insert hshort).insert hagain
  obtain ⟨hplace, hidentity, -, -⟩ := hpairs _ _ _ _ hshort hagain
  obtain ⟨-, -, hplaces, -⟩ := hpairs _ _ _ _ hshort hlong
  obtain ⟨-, -, -, hbytes⟩ := hpairs _ _ _ _ hlong (encode_alone [0x02] 0)
  exact ⟨hplace.mpr (hidentity.mpr ⟨rfl, rfl, rfl⟩), hplaces (by decide), by decide +kernel,
    (hbytes (by decide) (by decide)).1, hbuilt, (hsets _ hbuilt).2⟩

end RowSet

end RowVault
