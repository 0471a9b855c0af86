import RowVault.Cbor.Reader

/-!
# Heads and texts that are read back

A head is read back whatever follows it, in whichever width it was written; and so is a text behind
its head. These are the steps in which whole values are read back.
-/

namespace RowVault

/-- A text is known by its bytes. -/
theorem Bytes.toText?_ofText (text : String) : toText? (ofText text) = some text := by
  rw [toText?, ofText, String.fromUTF8?, Array.toArray_toList]
  exact dif_pos text.isValidUTF8

namespace Cbor

/-! ## Heads -/

/-- The head that a major type and an argument make. -/
def Head.ofMajor? : (major : Nat) → (argument : Nat) → Option Head
  | 0, n => some (.unsigned n)
  | 1, n => some (.negative n)
  | 2, n => some (.bytes (some n))
  | 3, n => some (.text (some n))
  | 4, n => some (.array (some n))
  | 5, n => some (.map (some n))
  | 6, n => some (.tag n)
  | _, _ => none

variable {n : Nat} {head : Head}

/-- As many bytes as were put in front are taken. -/
theorem take?_append (bytes rest : Bytes) :
    take? bytes.length (bytes ++ rest) = some (bytes, rest) := by
  rw [take?, List.take_left, List.drop_left, if_pos rfl]

/-- An argument in `1 <<< k` digits is read back as far as the digits can hold it. -/
theorem readArgument_toBE {k : Nat} (hk : k < 4) (n : Nat) (rest : Bytes) :
    readArgument (24 + k) (Bytes.toBE (1 <<< k) n ++ rest) =
      some (some (n % Bytes.span (1 <<< k)), rest) := by
  have htake := take?_append (Bytes.toBE (1 <<< k) n) rest
  rw [Bytes.length_toBE] at htake
  rw [readArgument, if_neg (by omega), if_pos (by omega), Nat.add_sub_cancel_left, htake,
    Option.map_some]
  dsimp only
  rw [Bytes.ofBE_toBE]

/-- The first byte of a head tells its major type, and behind that its argument is read back. -/
theorem exists_writeHead {major : Nat} (hmajor : major < 8) (hn : n < Bytes.span 8) :
    ∃ first digits, writeHead major n = first :: digits ∧ first.toNat / 32 = major ∧
      ∀ rest, readArgument (first.toNat % 32) (digits ++ rest) = some (some n, rest) := by
  have hfirst : ∀ low < 32, (UInt8.ofNat (major * 32 + low)).toNat = major * 32 + low := by
    intro low hlow
    rw [UInt8.toNat_ofNat', Nat.mod_eq_of_lt (by omega)]
  have hwide : ∀ k < 4, n < Bytes.span (1 <<< k) →
      ∃ first digits, UInt8.ofNat (major * 32 + (24 + k)) :: Bytes.toBE (1 <<< k) n =
          first :: digits ∧ first.toNat / 32 = major ∧
        ∀ rest, readArgument (first.toNat % 32) (digits ++ rest) = some (some n, rest) := by
    intro k hk hn
    refine ⟨_, _, rfl, ?_, fun rest ↦ ?_⟩
    · rw [hfirst _ (by omega)]
      omega
    · have hlow : (major * 32 + (24 + k)) % 32 = 24 + k := by omega
      rw [hfirst _ (by omega), hlow, readArgument_toBE hk, Nat.mod_eq_of_lt hn]
  unfold writeHead
  split
  · next h =>
    refine ⟨_, _, rfl, ?_, fun rest ↦ ?_⟩
    · rw [hfirst _ (by omega)]
      omega
    · have hlow : (major * 32 + n) % 32 = n := by omega
      rw [hfirst _ (by omega), hlow, readArgument, if_pos h]
      rfl
  · split
    · exact hwide 0 (by decide) ‹_›
    · split
      · exact hwide 1 (by decide) ‹_›
      · split
        · exact hwide 2 (by decide) ‹_›
        · exact hwide 3 (by decide) hn

/-- A head is read back, whatever follows it. -/
theorem readHead_writeHead (major : Nat) (hn : n < Bytes.span 8)
    (h : Head.ofMajor? major n = some head) (rest : Bytes) :
    readHead (writeHead major n ++ rest) = some (head, rest) := by
  have hmajor : major < 8 := by
    unfold Head.ofMajor? at h
    split at h
    all_goals first | decide | cases h
  obtain ⟨first, digits, hwrite, hfirst, hargument⟩ := exists_writeHead hmajor hn
  rw [hwrite, List.cons_append, readHead]
  simp only [hargument, hfirst]
  unfold Head.ofMajor? at h
  split at h <;> simp_all

/-- An argument in `1 <<< k` digits takes as many bytes, and is a number that they can hold. -/
theorem of_readArgument {k : Nat} (hk : k < 4) {bytes : Bytes}
    (h : readArgument (24 + k) bytes = some (some n, [])) :
    bytes.length = 1 <<< k ∧ n < Bytes.span (1 <<< k) := by
  rw [readArgument, if_neg (by omega), if_pos (by omega), Nat.add_sub_cancel_left] at h
  obtain ⟨⟨digits, rest⟩, htake, hrest⟩ := Option.map_eq_some_iff.mp h
  rw [take?] at htake
  split at htake
  · next hlength =>
    cases hrest
    rw [Option.some.injEq, Prod.mk.injEq] at htake
    obtain ⟨rfl, hdrop⟩ := htake
    have hle := List.drop_eq_nil_iff.mp hdrop
    have hlt := Bytes.ofBE_lt (bytes.take (1 <<< k))
    rw [hlength] at hlt
    refine ⟨?_, hlt⟩
    rw [List.length_take] at hlength
    omega
  · cases htake

private theorem length_writeHead_of_lt {k : Nat} (hk : k < 4) (hn : n < Bytes.span (1 <<< k))
    (major : Nat) : (writeHead major n).length ≤ 1 <<< k + 1 := by
  have hspan : Bytes.span (1 <<< 0) = 256 ∧ Bytes.span (1 <<< 1) = 65536 ∧
      Bytes.span (1 <<< 2) = 4294967296 := by decide
  obtain ⟨h0, h1, h2⟩ := hspan
  obtain rfl | rfl | rfl | rfl : k = 0 ∨ k = 1 ∨ k = 2 ∨ k = 3 := by omega
  all_goals
    unfold writeHead
    repeat' split
    all_goals simp
    all_goals omega

/-- A head takes the fewest bytes that hold its argument: none of the same argument is shorter. -/
theorem length_writeHead_le {first : UInt8} {rest : Bytes}
    (h : readArgument (first.toNat % 32) rest = some (some n, [])) (major : Nat) :
    (writeHead major n).length ≤ (first :: rest).length := by
  generalize first.toNat % 32 = low at h
  by_cases hlow : low < 24
  · rw [readArgument, if_pos hlow] at h
    cases h
    rw [writeHead, if_pos hlow]
    exact Nat.le_refl 1
  · by_cases hwide : low < 28
    · obtain ⟨k, rfl⟩ : ∃ k, low = 24 + k := ⟨low - 24, by omega⟩
      obtain ⟨hlength, hn⟩ := of_readArgument (by omega) h
      rw [List.length_cons, hlength]
      exact length_writeHead_of_lt (by omega) hn major
    · rw [readArgument, if_neg hlow, if_neg hwide] at h
      split at h <;> cases h

/-- A head that is no tag is the head of its item. -/
theorem readUntagged_of_readHead {bytes rest : Bytes} (h : readHead bytes = some (head, rest))
    (htag : ∀ n, head ≠ .tag n) (depth : Nat) :
    readUntagged (depth + 1) bytes = some (head, depth + 1, rest) := by
  rw [readUntagged, h]
  cases head with
  | tag n => exact absurd rfl (htag n)
  | _ => rfl

/-- A head of a major type other than that of tags is the head of its item. -/
theorem readUntagged_writeHead (major : Nat) (hn : n < Bytes.span 8)
    (h : Head.ofMajor? major n = some head) (hmajor : major ≠ 6) (depth : Nat) (rest : Bytes) :
    readUntagged (depth + 1) (writeHead major n ++ rest) = some (head, depth + 1, rest) := by
  refine readUntagged_of_readHead (readHead_writeHead major hn h rest) ?_ depth
  rintro m rfl
  unfold Head.ofMajor? at h
  split at h <;> simp_all

/-! ## Texts -/

/-- A text is read up to its head. -/
theorem readUntagged_writeText {text : String} (hn : (Bytes.ofText text).length < Bytes.span 8)
    (depth : Nat) (rest : Bytes) :
    readUntagged (depth + 1) (writeText text ++ rest) =
      some (.text (some (Bytes.ofText text).length), depth + 1, Bytes.ofText text ++ rest) := by
  rw [writeText, List.append_assoc]
  exact readUntagged_writeHead 3 hn rfl (by decide) depth _

/-- A text is read back. -/
theorem readText_writeText {text : String} (hn : (Bytes.ofText text).length < Bytes.span 8)
    (depth : Nat) (rest : Bytes) :
    readText (depth + 1) (writeText text ++ rest) = some (text, rest) := by
  rw [readText, readUntagged_writeText hn]
  simp only [readString, take?_append, Option.bind_some, Bytes.toText?_ofText, Option.map_some]

/-- A name that is written as a text is read back as its bytes. -/
theorem readName_writeText {text : String} (hn : (Bytes.ofText text).length < Bytes.span 8)
    (depth : Nat) (rest : Bytes) :
    readName (depth + 1) (writeText text ++ rest) = some (.label (Bytes.ofText text), rest) := by
  rw [readName, readUntagged_writeText hn]
  simp only [readString, take?_append, Option.bind_some, Bytes.toText?_ofText, Option.map_some]

end Cbor

end RowVault
