import RowVault.Row.Id

/-!
# Decoding row ids

The trailer of an encoded row id tells how long its segments are. A byte string that has a trailer
is read as the row id whose encoding it is, if the segments fit in front of the trailer; so decoding
gives back the row id that was encoded, and encoding gives back the bytes that were decoded.
-/

namespace RowVault.RowId

variable {r : RowId} {raw first second third : Bytes}

/-! ## Byte strings with a trailer -/

/-- A byte string of a body and the three numbers of a trailer is decoded by these numbers. -/
theorem decode_append (body : Bytes) (hfirst : first.length = 4) (hsecond : second.length = 4)
    (hthird : third.length = duplicatesSize) :
    decode (body ++ (first ++ (second ++ third))) =
      if Bytes.ofBE first + Bytes.ofBE second > body.length then
        .error (.segmentOverflow (Bytes.ofBE first) (Bytes.ofBE second) body.length)
      else
        let rest := body.drop (body.length - (Bytes.ofBE first + Bytes.ofBE second))
        .ok {
          key := body.take (body.length - (Bytes.ofBE first + Bytes.ofBE second))
          data := rest.take (Bytes.ofBE first)
          adapter := rest.drop (Bytes.ofBE first)
          duplicates := (UInt32.ofNat (Bytes.ofBE third)).toInt32 } := by
  have hlength : (body ++ (first ++ (second ++ third))).length = body.length + trailerSize := by
    simp [hfirst, hsecond, hthird, duplicatesSize, trailerSize]
  have height : (first ++ (second ++ third)).drop 8 = third := by
    rw [← List.append_assoc]
    exact List.drop_left' (by simp [hfirst, hsecond])
  unfold decode
  rw [if_neg (by rw [hlength]; omega), hlength, Nat.add_sub_cancel]
  simp only [List.take_left, List.drop_left, List.take_left' hfirst, List.drop_left' hfirst,
    List.take_left' hsecond, height]

/-- A byte string that is long enough has a body and the three numbers of a trailer. -/
theorem exists_trailer (h : trailerSize ≤ raw.length) :
    ∃ body first second third, raw = body ++ (first ++ (second ++ third)) ∧
      first.length = 4 ∧ second.length = 4 ∧ third.length = duplicatesSize := by
  let trailer := raw.drop (raw.length - trailerSize)
  have htrailer : trailer.length = trailerSize := by
    rw [List.length_drop]
    omega
  refine ⟨raw.take (raw.length - trailerSize), trailer.take 4, (trailer.drop 4).take 4,
    (trailer.drop 4).drop 4, ?_, ?_, ?_, ?_⟩
  · rw [List.take_append_drop, List.take_append_drop, List.take_append_drop]
  · rw [List.length_take, htrailer]
    rfl
  · rw [List.length_take, List.length_drop, htrailer]
    rfl
  · rw [List.length_drop, List.length_drop, htrailer]
    rfl

/-! ## Encodings -/

private theorem bytes_eq (r : RowId) :
    r.bytes = (r.key ++ (r.data ++ r.adapter)) ++ (Bytes.toBE 4 r.data.length ++
      (Bytes.toBE 4 r.adapter.length ++
        Bytes.toBE duplicatesSize r.duplicates.toUInt32.toNat)) := by
  simp [bytes, identity]

private theorem ofBE_toBE_four {n : Nat} (h : n < segmentBound) :
    Bytes.ofBE (Bytes.toBE 4 n) = n := by
  rw [Bytes.ofBE_toBE]
  exact Nat.mod_eq_of_lt h

private theorem duplicates_read (r : RowId) :
    (UInt32.ofNat (Bytes.ofBE (Bytes.toBE duplicatesSize r.duplicates.toUInt32.toNat))).toInt32 =
      r.duplicates := by
  have hlt : r.duplicates.toUInt32.toNat < segmentBound := r.duplicates.toUInt32.toNat_lt
  rw [duplicatesSize, ofBE_toBE_four hlt, UInt32.ofNat_toNat]
  rfl

/-- Decoding an encoded row id gives it back. -/
theorem decode_of_encode (h : r.encode = .ok raw) : decode raw = .ok r := by
  obtain ⟨hd, ha, rfl⟩ := encode_eq_ok_iff.mp h
  have hlength : (r.key ++ (r.data ++ r.adapter)).length =
      r.key.length + (r.data.length + r.adapter.length) := by
    simp
  rw [bytes_eq, decode_append _ (Bytes.length_toBE 4 _) (Bytes.length_toBE 4 _)
    (Bytes.length_toBE _ _), ofBE_toBE_four hd, ofBE_toBE_four ha, duplicates_read, hlength,
    if_neg (by omega), Nat.add_sub_cancel]
  simp only [List.take_left, List.drop_left]

private theorem toBE_four_ofBE (h : first.length = 4) :
    Bytes.toBE 4 (Bytes.ofBE first) = first := by
  rw [← h, Bytes.toBE_ofBE]

private theorem duplicates_written (h : third.length = duplicatesSize) :
    Bytes.toBE duplicatesSize
      (UInt32.ofNat (Bytes.ofBE third)).toInt32.toUInt32.toNat = third := by
  have hlt := Bytes.ofBE_lt third
  rw [h] at hlt
  have hn : (UInt32.ofNat (Bytes.ofBE third)).toInt32.toUInt32.toNat = Bytes.ofBE third := by
    rw [UInt32.toUInt32_toInt32, UInt32.toNat_ofNat']
    exact Nat.mod_eq_of_lt hlt
  rw [hn]
  exact toBE_four_ofBE h

/-- A byte string that is decoded is the encoding of what it is decoded to. -/
theorem encode_of_decode (h : decode raw = .ok r) : r.encode = .ok raw := by
  by_cases hlong : trailerSize ≤ raw.length
  · obtain ⟨body, first, second, third, rfl, hfirst, hsecond, hthird⟩ := exists_trailer hlong
    rw [decode_append body hfirst hsecond hthird] at h
    split at h
    · cases h
    · next hfit =>
      cases h
      have hdata := Bytes.ofBE_lt first
      have hadapter := Bytes.ofBE_lt second
      rw [hfirst] at hdata
      rw [hsecond] at hadapter
      -- The segments are as long as the trailer says, since they fit into the body.
      have hd : ((body.drop (body.length - (Bytes.ofBE first + Bytes.ofBE second))).take
          (Bytes.ofBE first)).length = Bytes.ofBE first := by
        rw [List.length_take, List.length_drop]
        omega
      have ha : ((body.drop (body.length - (Bytes.ofBE first + Bytes.ofBE second))).drop
          (Bytes.ofBE first)).length = Bytes.ofBE second := by
        rw [List.length_drop, List.length_drop]
        omega
      refine encode_eq_ok_iff.mpr ⟨?_, ?_, ?_⟩
      · rw [hd]
        exact hdata
      · rw [ha]
        exact hadapter
      · rw [bytes_eq]
        dsimp only
        rw [hd, ha, toBE_four_ofBE hfirst, toBE_four_ofBE hsecond, duplicates_written hthird,
          List.take_append_drop, List.take_append_drop]
  · rw [decode, if_pos (Nat.lt_of_not_le hlong)] at h
    cases h

end RowVault.RowId
