import RowVault.Proofs.Key.Windows

/-!
# Upper bounds of beginnings

The keys that begin with a byte string lie between the string itself and its upper bound, and every
key between the two begins with it. The bound is the least byte string above these keys; there is
none just if no byte of the string can be counted up.
-/

namespace RowVault.Bytes

/-- A byte string is above all keys that begin with another one. -/
def Bounds (start upper : Bytes) : Prop := ∀ key, start <+: key → key < upper

private theorem not_lt_max_iff (b : UInt8) : ¬ b < 255 ↔ b = 0xFF := by
  simp only [UInt8.lt_iff_toNat_lt, ← UInt8.toNat_inj]
  have := b.toNat_lt
  have : UInt8.toNat 255 = 255 := rfl
  omega

/-- There is no bound just above the largest byte, repeated any number of times or none. -/
theorem nextPrefix_eq_none_iff (start : Bytes) :
    start.nextPrefix = none ↔ ∃ n, start = List.replicate n 0xFF := by
  induction start with
  | nil => exact ⟨fun _ ↦ ⟨0, rfl⟩, fun _ ↦ rfl⟩
  | cons b rest ih =>
    have hcons : (∃ n, b :: rest = List.replicate n 0xFF) ↔
        b = 0xFF ∧ ∃ n, rest = List.replicate n 0xFF := by
      constructor
      · rintro ⟨n, hn⟩
        cases n with
        | zero => cases hn
        | succ n =>
          obtain ⟨hb, hrest⟩ := List.cons.inj hn
          exact ⟨hb, n, hrest⟩
      · rintro ⟨rfl, n, rfl⟩
        exact ⟨n + 1, rfl⟩
    rw [hcons, ← ih, ← not_lt_max_iff, nextPrefix]
    cases nextPrefix rest <;> simp

section

variable {start upper v : Bytes}

/-- The upper bound is above all keys that begin with the string. -/
theorem bounds_of_nextPrefix (h : start.nextPrefix = some upper) : start.Bounds upper :=
  fun key hkey ↦ (below_nextPrefix_iff start key).mpr (.inr hkey) upper h

/-- What is above all keys that begin with a string is not below any bound of them: such a key would
be up to the string, or begin with it. -/
theorem Bounds.exists_le (h : start.Bounds v) : ∃ upper ∈ start.nextPrefix, upper ≤ v := by
  apply Classical.byContradiction
  intro hnone
  have hbelow : ∀ u ∈ start.nextPrefix, v < u :=
    fun u hu ↦ Std.not_le.mp fun hle ↦ hnone ⟨u, hu, hle⟩
  rcases (below_nextPrefix_iff start v).mp hbelow with hle | hprefix
  · exact Std.lt_irrefl (Std.lt_of_lt_of_le (h start (List.prefix_refl start)) hle)
  · exact Std.lt_irrefl (h v hprefix)

end

/-- A key begins with a string just if it is neither before the string nor behind the upper bound;
there is no upper bound just if the string is empty or of the largest byte only; and a byte string
is the upper bound just if it is the least one above all keys that begin with the string. -/
theorem nextPrefix_exact (start : Bytes) :
    (∀ key, start <+: key ↔ start ≤ key ∧ ∀ upper ∈ start.nextPrefix, key < upper) ∧
      (start.nextPrefix = none ↔ ∃ n, start = List.replicate n 0xFF) ∧
      ∀ upper, start.nextPrefix = some upper ↔
        start.Bounds upper ∧ ∀ v, start.Bounds v → upper ≤ v := by
  refine ⟨?_, start.nextPrefix_eq_none_iff, ?_⟩
  · intro key
    rw [← Window.holds_beginningWith, Window.holds_iff]
    rfl
  · intro upper
    constructor
    · intro h
      refine ⟨bounds_of_nextPrefix h, fun v hv ↦ ?_⟩
      obtain ⟨u, hu, hle⟩ := hv.exists_le
      cases h.symm.trans hu
      exact hle
    · rintro ⟨hbounds, hleast⟩
      obtain ⟨u, hu, hle⟩ := hbounds.exists_le
      rw [hu, Std.le_antisymm hle (hleast u (bounds_of_nextPrefix hu))]

/-- Bytes that cannot be counted up are dropped. -/
example : nextPrefix [0x01, 0xFF, 0xFF] = some [0x02] := by decide

end RowVault.Bytes
