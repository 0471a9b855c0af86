import RowVault.Proofs.Row.Decoding
import RowVault.Row.Key

/-!
# Identities of rows

The lengths at the end of an identity tell where its segments end, so rows that have an encoding
share an identity exactly if they agree in key, data id and adapter. Their places are equal in the
same cases.
-/

namespace RowVault

private theorem toBE_four_inj {m n : Nat} (hm : m < RowId.segmentBound)
    (hn : n < RowId.segmentBound) (h : Bytes.toBE 4 m = Bytes.toBE 4 n) : m = n := by
  have he := congrArg Bytes.ofBE h
  rw [Bytes.ofBE_toBE, Bytes.ofBE_toBE, ← RowId.segmentBound] at he
  rwa [Nat.mod_eq_of_lt hm, Nat.mod_eq_of_lt hn] at he

namespace RowId

variable {r s : RowId} {a b : Bytes}

/-- An identity is known by its key, data id and adapter. -/
theorem identity_inj (hr : r.encode = .ok a) (hs : s.encode = .ok b) :
    r.identity = s.identity ↔ r.key = s.key ∧ r.data = s.data ∧ r.adapter = s.adapter := by
  obtain ⟨hrd, hra, -⟩ := encode_eq_ok_iff.mp hr
  obtain ⟨hsd, hsa, -⟩ := encode_eq_ok_iff.mp hs
  constructor
  · intro h
    unfold identity at h
    obtain ⟨h, hadapter⟩ := List.append_inj' h (by simp)
    obtain ⟨h, hdata⟩ := List.append_inj' h (by simp)
    have ha := toBE_four_inj hra hsa hadapter
    have hd := toBE_four_inj hrd hsd hdata
    obtain ⟨h, ha⟩ := List.append_inj' h ha
    obtain ⟨hk, hd⟩ := List.append_inj' h hd
    exact ⟨hk, hd, ha⟩
  · rintro ⟨hk, hd, ha⟩
    unfold identity
    rw [hk, hd, ha]

end RowId

namespace RowKey

variable {r s : RowId} {a b : Bytes}

/-- Rows have one place exactly if they agree in key, data id and adapter. -/
theorem ofRow_inj (hr : r.encode = .ok a) (hs : s.encode = .ok b) :
    ofRow r a = ofRow s b ↔ r.key = s.key ∧ r.data = s.data ∧ r.adapter = s.adapter := by
  have ha := (RowId.encode_eq_ok_iff.mp hr).2.2
  have hb := (RowId.encode_eq_ok_iff.mp hs).2.2
  rw [ofRow, ofRow, RowKey.mk.injEq, ← ha, ← hb, RowId.identityOf_bytes, RowId.identityOf_bytes,
    RowId.identity_inj hr hs]
  exact ⟨fun h ↦ h.2, fun h ↦ ⟨h.1, h⟩⟩

/-- The place of a row is read off its encoding. -/
theorem decode?_of_encode (hr : r.encode = .ok a) : decode? a = some (ofRow r a) := by
  rw [decode?, RowId.decode_of_encode hr]

end RowKey

end RowVault
