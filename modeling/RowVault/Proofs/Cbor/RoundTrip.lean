import RowVault.Model.Codec
import RowVault.Proofs.Binary64.Narrowing
import RowVault.Proofs.Cbor.Heads

/-!
# Field values that are read back

A field value is read back from the bytes that it was written to, with every number in it bit for
bit, unless it is a NaN: of a NaN only is kept that it is one. That holds for values of any size;
the codec of fields refuses the bytes of those that take too many.
-/

namespace RowVault

/-- A number without the payload of a NaN. -/
def Binary64.plain (x : Binary64) : Binary64 := if x.isNaN then nan else x

/-- A NaN remains a NaN, and no other number becomes one. -/
@[simp] theorem Binary64.isNaN_plain (x : Binary64) : x.plain.isNaN = x.isNaN := by
  rw [plain]
  split
  · next h => exact h.symm ▸ (by decide)
  · rfl

/-- A field value whose numbers are without the payload of NaNs. -/
def Value.plain : Value → Value
  | .float x => .float x.plain
  | .range r => .range ⟨r.min.plain, r.max.plain⟩
  | v => v

namespace Cbor

/-! ## Numbers -/

private theorem readHead_simple {k : Nat} (hk : k < 4) {first : UInt8}
    (hfirst : first.toNat = 248 + k) (n : Nat) (rest : Bytes) :
    readHead (first :: (Bytes.toBE (1 <<< k) n ++ rest)) =
      (readSimple (24 + k) (some (n % Bytes.span (1 <<< k)))).map (·, rest) := by
  have hmajor : (248 + k) / 32 = 7 := by omega
  have hlow : (248 + k) % 32 = 24 + k := by omega
  rw [readHead, hfirst, hmajor, hlow, readArgument_toBE hk]
  rfl

/-- A number in half precision is read back. -/
theorem readHead_binary16 (pattern : Nat) (rest : Bytes) :
    readHead (0xF9 :: Bytes.toBE 2 pattern ++ rest) =
      some (.float (NarrowFormat.binary16.widen pattern), rest) := by
  have h : readHead (0xF9 :: Bytes.toBE 2 pattern ++ rest) = _ :=
    readHead_simple (k := 1) (by decide) rfl pattern rest
  rw [h, ← NarrowFormat.widen_mod_span]
  rfl

/-- A number in single precision is read back. -/
theorem readHead_binary32 (pattern : Nat) (rest : Bytes) :
    readHead (0xFA :: Bytes.toBE 4 pattern ++ rest) =
      some (.float (NarrowFormat.binary32.widen pattern), rest) := by
  have h : readHead (0xFA :: Bytes.toBE 4 pattern ++ rest) = _ :=
    readHead_simple (k := 2) (by decide) rfl pattern rest
  rw [h, ← NarrowFormat.widen_mod_span]
  rfl

/-- A number in double precision is read back. -/
theorem readHead_binary64 (x : Binary64) (rest : Bytes) :
    readHead (0xFB :: Bytes.toBE 8 x.bits.toNat ++ rest) = some (.float x, rest) := by
  have h : readHead (0xFB :: Bytes.toBE 8 x.bits.toNat ++ rest) = _ :=
    readHead_simple (k := 3) (by decide) rfl x.bits.toNat rest
  have hbits : x.bits.toNat % Bytes.span (1 <<< 3) = x.bits.toNat :=
    Nat.mod_eq_of_lt x.bits.toNat_lt
  rw [h, hbits, readSimple, UInt64.ofNat_toNat]
  rfl

/-- A number is read back, and a NaN as a NaN. -/
theorem readHead_writeFloat (x : Binary64) (rest : Bytes) :
    readHead (writeFloat x ++ rest) = some (.float x.plain, rest) := by
  rw [writeFloat, Binary64.plain]
  split
  · exact readHead_binary16 0x7E00 rest
  · split
    · next hhalf =>
      rw [readHead_binary16, NarrowFormat.widen_of_narrow? hhalf]
    · next hsingle =>
      rw [readHead_binary32, NarrowFormat.widen_of_narrow? hsingle]
    · exact readHead_binary64 x rest

private theorem of_readSimple_float {x : Binary64} {low : Nat} {argument : Option Nat}
    (h : readSimple low argument = some (.float x)) :
    ∃ n, argument = some n ∧ (low = 24 + 1 ∧ NarrowFormat.binary16.widen n = x ∨
      low = 24 + 2 ∧ NarrowFormat.binary32.widen n = x ∨ low = 24 + 3) := by
  unfold readSimple at h
  split at h
  case h_5 n => exact ⟨n, rfl, .inl ⟨rfl, Head.float.inj (Option.some.inj h)⟩⟩
  case h_6 n => exact ⟨n, rfl, .inr (.inl ⟨rfl, Head.float.inj (Option.some.inj h)⟩)⟩
  case h_7 n => exact ⟨n, rfl, .inr (.inr rfl)⟩
  all_goals cases h

/-- The item of a number is as long as its format asks for, and the format has the number. -/
theorem of_readHead_float {x : Binary64} {bytes : Bytes}
    (h : readHead bytes = some (.float x, [])) :
    bytes.length = 3 ∧ (∃ half, NarrowFormat.binary16.widen half = x) ∨
      bytes.length = 5 ∧ (∃ single, NarrowFormat.binary32.widen single = x) ∨
        bytes.length = 9 := by
  cases bytes with
  | nil => cases h
  | cons first rest =>
    rw [readHead] at h
    generalize first.toNat % 32 = low at h
    dsimp only at h
    split at h
    · cases h
    · next argument rest' hargument =>
      obtain ⟨head, hhead, heq⟩ := Option.map_eq_some_iff.mp h
      cases heq
      split at hhead
      -- Of the major types only the last one has numbers.
      case h_8 =>
        obtain ⟨n, rfl, ⟨rfl, hx⟩ | ⟨rfl, hx⟩ | rfl⟩ := of_readSimple_float hhead
        · exact .inl ⟨congrArg (· + 1) (of_readArgument (by decide) hargument).1, n, hx⟩
        · exact .inr (.inl ⟨congrArg (· + 1) (of_readArgument (by decide) hargument).1, n, hx⟩)
        · exact .inr (.inr (congrArg (· + 1) (of_readArgument (by decide) hargument).1))
      all_goals cases hhead

/-- A number takes the narrowest format that has it: no item of the same number is shorter. -/
theorem length_writeFloat_le {x : Binary64} {bytes : Bytes}
    (h : readHead bytes = some (.float x, [])) : (writeFloat x).length ≤ bytes.length := by
  have hhalf := NarrowFormat.narrow?_eq_none_iff NarrowFormat.fits_binary16 (x := x)
  have hsingle := NarrowFormat.narrow?_eq_none_iff NarrowFormat.fits_binary32 (x := x)
  have hlength := of_readHead_float h
  rw [writeFloat]
  split
  · simp only [List.length_cons, List.length_nil]
    omega
  · split
    · simp only [List.length_cons, Bytes.length_toBE]
      omega
    · next hnone _ =>
      simp only [List.length_cons, Bytes.length_toBE]
      rcases hlength with ⟨-, half, hx⟩ | hlength
      · exact absurd hx (hhalf.mp hnone half)
      · omega
    · next hnone hnone' =>
      simp only [List.length_cons, Bytes.length_toBE]
      rcases hlength with ⟨-, half, hx⟩ | ⟨-, single, hx⟩ | hlength
      · exact absurd hx (hhalf.mp hnone half)
      · exact absurd hx (hsingle.mp hnone' single)
      · omega

/-- The smallest number of half precision takes three bytes. -/
example : writeFloat ⟨0x3E70000000000000⟩ = [0xF9, 0x00, 0x01] := by decide

/-- A number is read back as a number. -/
theorem readFloat_writeFloat (x : Binary64) (depth : Nat) (rest : Bytes) :
    readFloat (depth + 1) (writeFloat x ++ rest) = some (x.plain, rest) := by
  rw [readFloat, readUntagged_of_readHead (readHead_writeFloat x rest) (fun _ ↦ Head.noConfusion)]

/-- A natural number is read back, if it is below the bound. -/
theorem readBelow_writeHead {n bound : Nat} (hn : n < Bytes.span 8) (hbound : n < bound)
    (depth : Nat) (rest : Bytes) :
    readBelow bound (depth + 1) (writeHead 0 n ++ rest) = some (n, rest) := by
  rw [readBelow, readUntagged_writeHead 0 hn rfl (by decide)]
  exact if_pos hbound

/-- An integer is read back. -/
theorem readInt_writeInt (n : Int64) (depth : Nat) (rest : Bytes) :
    readInt (depth + 1) (writeInt n.toInt ++ rest) = some (n, rest) := by
  have hlower := n.le_toInt
  have hupper := n.toInt_lt
  rw [writeInt]
  split
  · next h =>
    have hn : n.toInt.toNat < 1 <<< 63 := by omega
    have hback : Int64.ofNat n.toInt.toNat = n := by
      rw [← Int64.ofInt_eq_ofNat, Int.toNat_of_nonneg h, Int64.ofInt_toInt]
    rw [readInt, readUntagged_writeHead 0 (Nat.lt_trans hn (by decide)) rfl (by decide)]
    dsimp only
    rw [if_pos hn, hback]
  · next h =>
    have hn : (-1 - n.toInt).toNat < 1 <<< 63 := by omega
    have hback : -1 - ((-1 - n.toInt).toNat : Int) = n.toInt := by omega
    rw [readInt, readUntagged_writeHead 1 (Nat.lt_trans hn (by decide)) rfl (by decide)]
    dsimp only
    rw [if_pos hn, hback, Int64.ofInt_toInt]

/-! ## Collections -/

/-- Elements that are read back one by one are read back as a collection. -/
theorem readEach_flatMap {σ α : Type} {step : σ → Bytes → Option (σ × Bytes)} {write : α → Bytes}
    {add : σ → α → σ} (hstep : ∀ s x rest, step s (write x ++ rest) = some (add s x, rest))
    (xs : List α) {budget : Nat} (hbudget : xs.length < budget) (s : σ) (rest : Bytes) :
    readEach step budget (some xs.length) s (xs.flatMap write ++ rest) =
      some (xs.foldl add s, rest) := by
  induction xs generalizing budget s with
  | nil =>
    cases budget with
    | zero => exact absurd hbudget (Nat.not_lt_zero _)
    | succ budget => rfl
  | cons x xs ih =>
    cases budget with
    | zero => exact absurd hbudget (Nat.not_lt_zero _)
    | succ budget =>
      rw [List.length_cons, List.flatMap_cons, List.append_assoc, readEach, hstep]
      exact ih (Nat.lt_of_succ_lt_succ hbudget) (add s x)

/-- A head takes at least one byte. -/
theorem length_writeHead_pos (major n : Nat) : 0 < (writeHead major n).length := by
  unfold writeHead
  repeat' split
  all_goals exact Nat.succ_pos _

/-- The bytes of a blob take no fewer bytes. -/
theorem length_le_length_elements (bytes : Bytes) :
    bytes.length ≤ (bytes.flatMap fun b ↦ writeHead 0 b.toNat).length := by
  induction bytes with
  | nil => exact Nat.le_refl 0
  | cons b bytes ih =>
    have hpos := length_writeHead_pos 0 b.toNat
    rw [List.length_cons, List.flatMap_cons, List.length_append]
    omega

/-- A blob is read back. -/
theorem readBlob_writeContent {bytes : Bytes} (hn : bytes.length < Bytes.span 8) (depth : Nat)
    (rest : Bytes) :
    readBlob (depth + 2) (writeContent (.blob bytes) ++ rest) = some (bytes, rest) := by
  have hstep : ∀ (before : Bytes) (b : UInt8) (rest : Bytes),
      (readBelow 256 (depth + 1) (writeHead 0 b.toNat ++ rest)).map
        (fun element ↦ (UInt8.ofNat element.1 :: before, element.2)) =
          some (b :: before, rest) := by
    intro before b rest
    have hb : b.toNat < Bytes.span 8 := Nat.lt_trans b.toNat_lt (by decide)
    rw [readBelow_writeHead hb b.toNat_lt, Option.map_some, UInt8.ofNat_toNat]
  have hlength := length_le_length_elements bytes
  rw [writeContent, List.append_assoc, readBlob, readUntagged_writeHead 4 hn rfl (by decide)]
  have henter : enter? (depth + 2) = some (depth + 1) := if_neg (by omega)
  simp only [henter]
  rw [readEach_flatMap hstep bytes (by rw [List.length_append]; omega)]
  simp

/-- The lower end of a range is read back, if it was not read before. -/
theorem readEnd_min {ends : Ends} (h : ends.min = none) (x : Binary64) (depth : Nat)
    (rest : Bytes) :
    readEnd (depth + 1) ends (writeText "min" ++ (writeFloat x ++ rest)) =
      some ({ ends with min := some x.plain }, rest) := by
  have hname : (Bytes.ofText "min").length < Bytes.span 8 := by decide
  have hposition : (Name.label (Bytes.ofText "min")).position? ["min", "max"] = some 0 := by decide
  rw [readEnd, readName_writeText hname]
  simp only [hposition, h]
  rw [if_neg (by decide), readFloat_writeFloat]
  rfl

/-- The upper end of a range is read back, if it was not read before. -/
theorem readEnd_max {ends : Ends} (h : ends.max = none) (x : Binary64) (depth : Nat)
    (rest : Bytes) :
    readEnd (depth + 1) ends (writeText "max" ++ (writeFloat x ++ rest)) =
      some ({ ends with max := some x.plain }, rest) := by
  have hname : (Bytes.ofText "max").length < Bytes.span 8 := by decide
  have hposition : (Name.label (Bytes.ofText "max")).position? ["min", "max"] = some 1 := by decide
  rw [readEnd, readName_writeText hname]
  simp only [hposition, h]
  rw [if_neg (by decide), readFloat_writeFloat]
  rfl

/-- A range is read back. -/
theorem readRange_writeContent (r : NumericRange) (depth : Nat) (rest : Bytes) :
    readRange (depth + 2) (writeContent (.range r) ++ rest) =
      some (⟨r.min.plain, r.max.plain⟩, rest) := by
  have henter : enter? (depth + 2) = some (depth + 1) := if_neg (by omega)
  have hbudget : ∀ more : Bytes,
      ∃ budget, (writeText "min" ++ more).length + 1 = budget + 1 + 1 + 1 := by
    intro more
    have hlength : (writeText "min").length = 4 := by decide
    refine ⟨more.length + 2, ?_⟩
    rw [List.length_append, hlength]
    omega
  rw [writeContent]
  simp only [List.append_assoc]
  rw [readRange, readUntagged_writeHead 5 (by decide) rfl (by decide)]
  simp only [henter]
  obtain ⟨budget, hbudget⟩ := hbudget (writeFloat r.min ++ (writeText "max" ++
    (writeFloat r.max ++ rest)))
  rw [hbudget, readEach, readEnd_min rfl]
  dsimp only
  rw [readEach, readEnd_max rfl]
  rfl

/-! ## Values -/

/-- The label of a kind is its name. -/
theorem kind?_label (kind : ValueKind) :
    (Name.label (Bytes.ofText kind.label)).kind? = some kind := by
  cases kind <;> decide

/-- Labels are short. -/
theorem length_label_lt (kind : ValueKind) :
    (Bytes.ofText kind.label).length < Bytes.span 8 := by
  cases kind <;> decide

/-- The content of a value is read back. -/
theorem readContent_writeContent {v : Value} (hv : v.isNull = false)
    (hsize : (writeContent v).length < Bytes.span 8) (depth : Nat) (rest : Bytes) :
    readContent (kindOf v) (depth + 2) (writeContent v ++ rest) = some (v.plain, rest) := by
  cases v with
  | null => cases hv
  | bool b => cases b <;> rfl
  | int n => rw [writeContent, kindOf, readContent, readInt_writeInt]; rfl
  | uint n =>
    rw [writeContent, kindOf, readContent,
      readBelow_writeHead (Nat.lt_of_lt_of_le n.toNat_lt (by decide)) n.toNat_lt]
    simp [Value.plain]
  | float x => rw [writeContent, kindOf, readContent, readFloat_writeFloat]; rfl
  | text s =>
    have hs : (Bytes.ofText s).length < Bytes.span 8 := by
      rw [writeContent, writeText, List.length_append] at hsize
      omega
    rw [writeContent, kindOf, readContent, readText_writeText hs]
    rfl
  | blob bytes =>
    have hn : bytes.length < Bytes.span 8 := by
      have hlength := length_le_length_elements bytes
      rw [writeContent, List.length_append] at hsize
      omega
    rw [kindOf, readContent, readBlob_writeContent hn]
    rfl
  | range r =>
    rw [kindOf, readContent, readRange_writeContent]
    rfl

/-- A value is read back, if its item is not too long for a head to say its length. -/
theorem readValue_writeValue {v : Value} (hsize : (writeValue v).length < Bytes.span 8) :
    readValue (writeValue v) = some v.plain := by
  cases hv : v.isNull with
  | true =>
    cases v with
    | null => rfl
    | _ => cases hv
  | false =>
    rw [writeValue, if_neg (by simp [hv])] at hsize ⊢
    have hcontent : (writeContent v).length < Bytes.span 8 := by
      rw [List.length_append] at hsize
      omega
    have hread := readContent_writeContent hv hcontent 125 []
    rw [List.append_nil] at hread
    have hleading : readLeading (writeHead 5 1 ++ writeText (kindOf v).label ++ writeContent v) =
        some (v.plain, []) := by
      change readNamed 127 (writeText (kindOf v).label ++ writeContent v) = _
      rw [readNamed, readName_writeText (length_label_lt (kindOf v))]
      simp only [Option.bind_eq_bind, Option.bind_some, kind?_label, hread]
    rw [readValue, hleading]

end Cbor

/-- Every value can be written. If its bytes are no more than the largest field has, the value is
read back from them, with all numbers bit for bit, except that a NaN is read back as the NaN that
stands for all; and if they are more, they are refused as too large. -/
theorem ValueCodec.read_write (c : ValueCodec) (field : Bytes) (v : Value) :
    ∃ bytes, c.writer.write v = .ok bytes ∧
      c.reader.read field bytes =
        if bytes.length ≤ maxFieldSize then .ok v.plain
        else .error (.tooLarge field bytes.length) := by
  refine ⟨Cbor.writeValue v, rfl, ?_⟩
  by_cases h : (Cbor.writeValue v).length ≤ maxFieldSize
  · have hread := Cbor.readValue_writeValue (Nat.lt_of_le_of_lt h (by decide))
    rw [if_pos h]
    simp only [reader, hread]
    rw [if_neg (Nat.not_lt.mpr h)]
  · rw [if_neg h]
    exact if_pos (Nat.lt_of_not_le h)

/-- A negative zero stays what it is, and a NaN loses its sign and payload. -/
example :
    let r : NumericRange := ⟨⟨0x8000000000000000⟩, ⟨0xFFF0000000000001⟩⟩
    Cbor.readValue (Cbor.writeValue (.range r)) = some (.range ⟨r.min, .nan⟩) := by
  decide +kernel

end RowVault
