import Mathlib.Algebra.Ring.Nat
import RowVault.Proofs.Row.Decoding

/-!
# The codec of row ids

Row ids whose segments are short enough and byte strings whose trailer fits correspond one to one:
decoding undoes encoding, and encoding undoes decoding. A byte string is refused for one of two
reasons, which can be read off its length and its trailer. On a machine with words of 32 bits or
more, decoding reads no byte that is not there, and no number leaves its word.
-/

namespace RowVault

/-! ## Checked reads -/

namespace Bytes

variable {bytes more : Bytes} {start stop : Nat}

/-- The bytes from one position up to, but not including, another one, if there are such
positions. -/
def slice? (bytes : Bytes) (start stop : Nat) : Option Bytes :=
  if start ≤ stop ∧ stop ≤ bytes.length then some ((bytes.drop start).take (stop - start)) else none

/-- A slice whose positions lie within the byte string is read. -/
theorem slice?_of_le (h : start ≤ stop) (h' : stop ≤ bytes.length) :
    bytes.slice? start stop = some ((bytes.drop start).take (stop - start)) :=
  if_pos ⟨h, h'⟩

/-- A slice of a first part is read there. -/
theorem slice?_append_left (h : start ≤ stop) (h' : stop ≤ bytes.length) :
    (bytes ++ more).slice? start stop = bytes.slice? start stop := by
  have hlength : stop ≤ (bytes ++ more).length := by
    rw [List.length_append]
    exact Nat.le_add_right_of_le h'
  rw [slice?_of_le h hlength, slice?_of_le h h', List.drop_append_of_le_length (by omega),
    List.take_append_of_le_length (by rw [List.length_drop]; omega)]

/-- The slice behind a first part is the second one. -/
theorem slice?_append_right (hstart : bytes.length = start) (hstop : start + more.length = stop) :
    (bytes ++ more).slice? start stop = some more := by
  have hlength : (bytes ++ more).length = stop := by
    rw [List.length_append, hstart, hstop]
  rw [slice?_of_le (by omega) (Nat.le_of_eq hlength.symm), List.drop_left' hstart,
    List.take_of_length_le (by omega)]

end Bytes

/-- A number, if a word of so many bits can hold it. -/
def word? (width n : Nat) : Option Nat := if n < 2 ^ width then some n else none

/-- A difference, if it does not fall below zero. -/
def difference? (m n : Nat) : Option Nat := if n ≤ m then some (m - n) else none

namespace RowId

variable {r : RowId} {raw : Bytes} {e : RowIdError} {width available data adapter : Nat}

/-- The length of two segments together, if words of so many bits can hold it and a body has so many
bytes. -/
def segmentsWithin (width available data adapter : Nat) : Option Nat := do
  let total ← word? width ((← word? width data) + (← word? width adapter))
  if total ≤ available then some total else none

/-- The row id of a body with two segments of known lengths at its end. -/
def splitWithin (width : Nat) (raw : Bytes) (available data segments : Nat) (duplicates : Int32) :
    Option RowId := do
  let keyEnd ← difference? available segments
  let dataEnd ← word? width (keyEnd + data)
  some {
    key := ← raw.slice? 0 keyEnd
    data := ← raw.slice? keyEnd dataEnd
    adapter := ← raw.slice? dataEnd available
    duplicates }

/-- Decode on a machine with words of so many bits, where every read is checked to lie within the
bytes and every number to fit into a word; there is no result where a check fails. Only the length
of the segments may fail to fit, since it is refused in this case. -/
def decodeWithin (width : Nat) (raw : Bytes) : Option (Except RowIdError RowId) :=
  match difference? raw.length trailerSize with
  | none => some (.error (.tooShort raw.length trailerSize))
  | some available => do
    let trailer ← raw.slice? available raw.length
    let data := Bytes.ofBE (← trailer.slice? 0 4)
    let adapter := Bytes.ofBE (← trailer.slice? 4 8)
    let duplicates := Bytes.ofBE (← trailer.slice? 8 12)
    match segmentsWithin width available data adapter with
    | none => some (.error (.segmentOverflow data adapter available))
    | some segments =>
      (splitWithin width raw available data segments (UInt32.ofNat duplicates).toInt32).map .ok

/-- Two written lengths fit into a body exactly if their sum does, as a number. -/
theorem segmentsWithin_eq (havailable : available < 2 ^ width) (hdata : data < 2 ^ width)
    (hadapter : adapter < 2 ^ width) :
    segmentsWithin width available data adapter =
      if data + adapter ≤ available then some (data + adapter) else none := by
  simp only [segmentsWithin, word?, if_pos hdata, if_pos hadapter, Option.bind_eq_bind,
    Option.bind_some]
  by_cases hfit : data + adapter ≤ available
  · have hword : data + adapter < 2 ^ width := Nat.lt_of_le_of_lt hfit havailable
    simp [hword]
  · by_cases hword : data + adapter < 2 ^ width
    · simp [hword]
    · simp [hword, hfit]

/-- A body is split into a key and two segments that fit into it. -/
theorem splitWithin_append (body trailer : Bytes) (duplicates : Int32)
    (hbody : body.length < 2 ^ width) (hfit : data + adapter ≤ body.length) :
    splitWithin width (body ++ trailer) body.length data (data + adapter) duplicates =
      let rest := body.drop (body.length - (data + adapter))
      some ⟨body.take (body.length - (data + adapter)), rest.take data, rest.drop data,
        duplicates⟩ := by
  have hend : body.length - (data + adapter) + data = body.length - adapter := by
    omega
  have hword : body.length - adapter < 2 ^ width := by
    omega
  have hkey : (body ++ trailer).slice? 0 (body.length - (data + adapter)) =
      some (body.take (body.length - (data + adapter))) := by
    rw [Bytes.slice?_append_left (Nat.zero_le _) (Nat.sub_le _ _),
      Bytes.slice?_of_le (Nat.zero_le _) (Nat.sub_le _ _)]
    rfl
  have hdata : (body ++ trailer).slice? (body.length - (data + adapter)) (body.length - adapter) =
      some ((body.drop (body.length - (data + adapter))).take data) := by
    rw [← hend, Bytes.slice?_append_left (Nat.le_add_right _ _) (by omega),
      Bytes.slice?_of_le (Nat.le_add_right _ _) (by omega), Nat.add_sub_cancel_left]
  have hadapter : (body ++ trailer).slice? (body.length - adapter) body.length =
      some ((body.drop (body.length - (data + adapter))).drop data) := by
    rw [Bytes.slice?_append_left (Nat.sub_le _ _) (Nat.le_refl _),
      Bytes.slice?_of_le (Nat.sub_le _ _) (Nat.le_refl _), List.drop_drop, hend,
      List.take_of_length_le (Nat.le_of_eq List.length_drop)]
  simp only [splitWithin, difference?, if_pos hfit, Option.bind_eq_bind, Option.bind_some, hend,
    word?, if_pos hword, hkey, hdata, hadapter]

/-- No read of decoding is out of bounds, and no number leaves its word. -/
theorem decodeWithin_eq (hwidth : 32 ≤ width) (hraw : raw.length < 2 ^ width) :
    decodeWithin width raw = some (decode raw) := by
  by_cases hlong : trailerSize ≤ raw.length
  · obtain ⟨body, first, second, third, rfl, hfirst, hsecond, hthird⟩ := exists_trailer hlong
    have htrailer : (first ++ (second ++ third)).length = trailerSize := by
      simp [hfirst, hsecond, hthird, duplicatesSize, trailerSize]
    have hread : (body ++ (first ++ (second ++ third))).slice? body.length
        (body.length + trailerSize) = some (first ++ (second ++ third)) :=
      Bytes.slice?_append_right rfl (congrArg (body.length + ·) htrailer)
    have hdata : (first ++ (second ++ third)).slice? 0 4 = some first := by
      rw [Bytes.slice?_append_left (Nat.zero_le 4) (Nat.le_of_eq hfirst.symm)]
      have hempty : ([] : Bytes).length = 0 := rfl
      exact Bytes.slice?_append_right hempty (by rw [Nat.zero_add, hfirst])
    have hadapter : (first ++ (second ++ third)).slice? 4 8 = some second := by
      rw [← List.append_assoc, Bytes.slice?_append_left (by decide) (by simp [hfirst, hsecond])]
      exact Bytes.slice?_append_right hfirst (by rw [hsecond])
    have hduplicates : (first ++ (second ++ third)).slice? 8 12 = some third := by
      rw [← List.append_assoc]
      exact Bytes.slice?_append_right (by simp [hfirst, hsecond]) (by rw [hthird]; rfl)
    have hword : ∀ digits : Bytes, digits.length = 4 → Bytes.ofBE digits < 2 ^ width := by
      intro digits hdigits
      have hlt := Bytes.ofBE_lt digits
      have hpow : 2 ^ 32 ≤ 2 ^ width := Nat.pow_le_pow_right Nat.two_pos hwidth
      rw [hdigits] at hlt
      exact Nat.lt_of_lt_of_le hlt hpow
    rw [List.length_append, htrailer] at hraw
    rw [decodeWithin, decode_append body hfirst hsecond hthird, List.length_append, htrailer,
      difference?, if_pos (Nat.le_add_left _ _), Nat.add_sub_cancel]
    simp only [hread, hdata, hadapter, hduplicates, Option.bind_eq_bind, Option.bind_some]
    rw [segmentsWithin_eq (by omega) (hword first hfirst) (hword second hsecond)]
    by_cases hfit : Bytes.ofBE first + Bytes.ofBE second ≤ body.length
    · rw [if_pos hfit, if_neg (Nat.not_lt.mpr hfit)]
      dsimp only
      rw [splitWithin_append body _ _ (by omega) hfit]
      rfl
    · rw [if_neg hfit, if_pos (Nat.lt_of_not_le hfit)]
  · rw [decodeWithin, difference?, if_neg hlong, decode, if_pos (Nat.lt_of_not_le hlong)]

/-! ## Where decoding fails -/

/-- The number that four digits at a position spell. -/
def writtenLength (raw : Bytes) (position : Nat) : Nat := Bytes.ofBE ((raw.drop position).take 4)

/-- Decoding fails where the trailer is missing, or where the segments are longer than the body. -/
theorem decode_eq_error_iff :
    decode raw = .error e ↔
      if raw.length < trailerSize then e = .tooShort raw.length trailerSize
      else
        let data := writtenLength raw (raw.length - 12)
        let adapter := writtenLength raw (raw.length - 8)
        let available := raw.length - trailerSize
        available < data + adapter ∧ e = .segmentOverflow data adapter available := by
  by_cases hshort : raw.length < trailerSize
  · rw [decode, if_pos hshort, if_pos hshort, Except.error.injEq]
    exact eq_comm
  · obtain ⟨body, first, second, third, rfl, hfirst, hsecond, hthird⟩ :=
      exists_trailer (Nat.not_lt.mp hshort)
    have hdata : writtenLength (body ++ (first ++ (second ++ third))) body.length =
        Bytes.ofBE first := by
      rw [writtenLength, List.drop_left, List.take_left' hfirst]
    have hadapter : writtenLength (body ++ (first ++ (second ++ third))) (body.length + 4) =
        Bytes.ofBE second := by
      rw [writtenLength, ← List.append_assoc, List.drop_left' (by simp [hfirst]),
        List.take_left' hsecond]
    have hlength : (body ++ (first ++ (second ++ third))).length = body.length + 12 := by
      simp [hfirst, hsecond, hthird, duplicatesSize]
    have hsecondStart : body.length + 12 - 8 = body.length + 4 := by
      omega
    rw [decode_append body hfirst hsecond hthird, if_neg hshort, hlength, trailerSize,
      Nat.add_sub_cancel, hsecondStart]
    dsimp only
    rw [hdata, hadapter]
    by_cases hfit : body.length < Bytes.ofBE first + Bytes.ofBE second
    · rw [if_pos hfit, Except.error.injEq, eq_comm]
      exact (and_iff_right hfit).symm
    · rw [if_neg hfit]
      constructor
      · intro h
        cases h
      · intro h
        exact absurd h.1 hfit

/-! ## The correspondence -/

private theorem encodable_of_le (hdata : r.data.length ≤ 0xFFFFFFFF)
    (hadapter : r.adapter.length ≤ 0xFFFFFFFF) : r.encode = .ok r.bytes :=
  encode_eq_ok_iff.mpr ⟨Nat.lt_succ_of_le hdata, Nat.lt_succ_of_le hadapter, rfl⟩

/-- Decoding succeeds where there is a trailer whose segments fit into the body. -/
theorem exists_decode_iff :
    (∃ r, decode raw = .ok r) ↔
      12 ≤ raw.length ∧
        writtenLength raw (raw.length - 12) + writtenLength raw (raw.length - 8) ≤
          raw.length - 12 := by
  have herror : (∃ r, decode raw = .ok r) ↔ ∀ e, decode raw ≠ .error e := by
    cases decode raw with
    | ok r => exact ⟨fun _ _ h ↦ (nomatch h), fun _ ↦ ⟨r, rfl⟩⟩
    | error e => exact ⟨fun ⟨_, h⟩ ↦ (nomatch h), fun h ↦ absurd rfl (h e)⟩
  rw [herror]
  simp only [ne_eq, decode_eq_error_iff, trailerSize]
  by_cases hshort : raw.length < 12
  · simp [hshort, Nat.not_le.mpr hshort]
  · simp only [hshort, if_false, not_and]
    constructor
    · intro h
      exact ⟨Nat.not_lt.mp hshort, Nat.not_lt.mp fun hfit ↦ h _ hfit rfl⟩
    · intro h e hfit
      exact absurd h.2 (Nat.not_le.mpr hfit)

/-- Row ids with segments of writable lengths are the byte strings that are long enough for a
trailer and for the segments it speaks of. Each row id is encoded, and read back; each such byte
string is decoded, and written back. Any other byte string is refused for want of a trailer, or of
a body. Words of 32 bits suffice to decode without leaving the bytes or a word. -/
theorem codec_bijective :
    (∀ r : RowId, r.data.length ≤ 0xFFFFFFFF → r.adapter.length ≤ 0xFFFFFFFF →
      ∃ raw, r.encode = .ok raw ∧ decode raw = .ok r) ∧
    ∀ raw : Bytes,
      let data := writtenLength raw (raw.length - 12)
      let adapter := writtenLength raw (raw.length - 8)
      ((∃ r, decode raw = .ok r) ↔ 12 ≤ raw.length ∧ data + adapter ≤ raw.length - 12) ∧
      (∀ r, decode raw = .ok r → r.encode = .ok raw) ∧
      (∀ e, decode raw = .error e ↔
        if raw.length < 12 then e = .tooShort raw.length 12
        else raw.length - 12 < data + adapter ∧
          e = .segmentOverflow data adapter (raw.length - 12)) ∧
      ∀ width, 32 ≤ width → raw.length < 2 ^ width →
        decodeWithin width raw = some (decode raw) := by
  refine ⟨?_, ?_⟩
  · intro r hdata hadapter
    have hencode := encodable_of_le hdata hadapter
    exact ⟨r.bytes, hencode, decode_of_encode hencode⟩
  · intro raw
    exact ⟨exists_decode_iff, fun _ ↦ encode_of_decode, fun _ ↦ decode_eq_error_iff,
      fun _ ↦ decodeWithin_eq⟩

/-- A row id whose three parts are empty is encoded as its trailer and read back, and so is the
trailer; a trailer that speaks of two segments of the largest length is refused, on a machine with
words of 32 bits as well. -/
theorem codec_bijective_trailers :
    (∃ raw, (⟨[], [], [], -1⟩ : RowId).encode = .ok raw ∧ decode raw = .ok ⟨[], [], [], -1⟩) ∧
    decode (List.replicate 12 255) = .error (.segmentOverflow 0xFFFFFFFF 0xFFFFFFFF 0) ∧
    decodeWithin 32 (List.replicate 12 255) =
      some (.error (.segmentOverflow 0xFFFFFFFF 0xFFFFFFFF 0)) := by
  have hrefused : decode (List.replicate 12 255) =
      .error (.segmentOverflow 0xFFFFFFFF 0xFFFFFFFF 0) :=
    ((codec_bijective.2 (List.replicate 12 255)).2.2.1 _).mpr (by decide)
  refine ⟨codec_bijective.1 ⟨[], [], [], -1⟩ (by decide) (by decide), hrefused, ?_⟩
  have hwords := (codec_bijective.2 (List.replicate 12 255)).2.2.2 32 (Nat.le_refl 32) (by decide)
  rw [hwords, hrefused]

end RowId

end RowVault
