import RowVault.Binary64

/-!
# Numbers in narrower formats

A bit pattern in a narrower format is a sign, an exponent and a fraction, side by side. Widening
reads the three parts off; truncating puts the same parts together again, whether the pattern is an
infinity, a NaN, normal, subnormal or zero. So a narrower format has a pattern for a number just if
`narrow?` gives one.
-/

namespace RowVault

/-! ## The parts of a number -/

namespace Binary64

section

variable {exponent fraction : Nat}

private theorem toNat_bits_ofParts (negative : Bool) (he : exponent < 2048)
    (hf : fraction < 1 <<< 52) :
    (ofParts negative exponent fraction).bits.toNat =
      negative.toNat * 1 <<< 63 + exponent * 1 <<< 52 + fraction := by
  rw [ofParts, UInt64.toNat_ofNat', Nat.mod_eq_of_lt, Nat.shiftLeft_eq]
  · cases negative <;> simp <;> omega
  · rw [Nat.shiftLeft_eq]
    split <;> omega

/-- The sign is read off. -/
theorem negative_ofParts (negative : Bool) (he : exponent < 2048) (hf : fraction < 1 <<< 52) :
    (ofParts negative exponent fraction).negative = negative := by
  rw [Binary64.negative, toNat_bits_ofParts negative he hf]
  cases negative <;> simp <;> omega

/-- The exponent is read off. -/
theorem exponent_ofParts (negative : Bool) (he : exponent < 2048) (hf : fraction < 1 <<< 52) :
    (ofParts negative exponent fraction).exponent = exponent := by
  rw [Binary64.exponent, magnitude, toNat_bits_ofParts negative he hf, Nat.shiftRight_eq_div_pow]
  cases negative <;> simp <;> omega

/-- The fraction is read off. -/
theorem fraction_ofParts (negative : Bool) (he : exponent < 2048) (hf : fraction < 1 <<< 52) :
    (ofParts negative exponent fraction).fraction = fraction := by
  rw [Binary64.fraction, toNat_bits_ofParts negative he hf]
  cases negative <;> simp <;> omega

end

end Binary64

/-! ## Patterns of a narrower format -/

namespace NarrowFormat

/-- How many bit patterns a format has. -/
def span (f : NarrowFormat) : Nat := 1 <<< f.fractionBits * ((f.maxExponent + 1) * 2)

/-- The format has no longer fractions than `Binary64`, and no smaller number. -/
structure Fits (f : NarrowFormat) : Prop where
  fraction : f.fractionBits ≤ 52
  smallest : f.fractionBits + f.bias ≤ 1023

/-- Half precision fits. -/
theorem fits_binary16 : binary16.Fits := ⟨by decide, by decide⟩

/-- Single precision fits. -/
theorem fits_binary32 : binary32.Fits := ⟨by decide, by decide⟩

variable {f : NarrowFormat}

/-- Only the bits of a pattern matter. -/
theorem widen_mod_span (f : NarrowFormat) (pattern : Nat) :
    f.widen (pattern % f.span) = f.widen pattern := by
  have hfraction : pattern % f.span % 1 <<< f.fractionBits = pattern % 1 <<< f.fractionBits :=
    Nat.mod_mul_right_mod ..
  have hupper : (pattern % f.span) >>> f.fractionBits =
      pattern >>> f.fractionBits % ((f.maxExponent + 1) * 2) := by
    rw [Nat.shiftRight_eq_div_pow, Nat.shiftRight_eq_div_pow, span, Nat.one_shiftLeft]
    exact Nat.mod_mul_right_div_self ..
  rw [widen, widen, hfraction, hupper, Nat.mod_mul_right_mod, Nat.mod_mul_right_div_self,
    Nat.mod_mod]

/-- The pattern of a number is put together from its parts. -/
theorem truncate_ofParts (f : NarrowFormat) (negative : Bool) {exponent fraction : Nat}
    (he : exponent < 2048) (hf : fraction < 1 <<< 52) :
    f.truncate (.ofParts negative exponent fraction) =
      negative.toNat * ((f.maxExponent + 1) * 1 <<< f.fractionBits) +
        (if exponent = 2047 then
          f.maxExponent <<< f.fractionBits + fraction >>> (52 - f.fractionBits)
        else if 1023 < exponent + f.bias then
          if exponent + f.bias - 1023 < f.maxExponent then
            (exponent + f.bias - 1023) <<< f.fractionBits + fraction >>> (52 - f.fractionBits)
          else 0
        else (1 <<< 52 + fraction) >>> (52 - f.fractionBits + (1024 - exponent - f.bias))) := by
  rw [truncate, Binary64.negative_ofParts negative he hf, Binary64.exponent_ofParts negative he hf,
    Binary64.fraction_ofParts negative he hf]
  cases negative <;> simp [Nat.shiftLeft_eq]

private theorem shiftLeft_spread {fraction bits : Nat} (hbits : bits ≤ 52)
    (hfraction : fraction < 1 <<< bits) :
    fraction <<< (52 - bits) < 1 <<< 52 ∧ fraction <<< (52 - bits) >>> (52 - bits) = fraction := by
  refine ⟨?_, Nat.shiftLeft_shiftRight ..⟩
  have hsplit : 1 <<< 52 = 1 <<< bits * 2 ^ (52 - bits) := by
    rw [Nat.one_shiftLeft, Nat.one_shiftLeft, ← Nat.pow_add, Nat.add_sub_cancel' hbits]
  rw [Nat.shiftLeft_eq, hsplit]
  exact Nat.mul_lt_mul_of_pos_right hfraction (Nat.two_pow_pos _)

private theorem mod_span_eq (f : NarrowFormat) (pattern : Nat) :
    pattern % f.span =
      pattern >>> f.fractionBits / (f.maxExponent + 1) % 2 *
          ((f.maxExponent + 1) * 1 <<< f.fractionBits) +
        ((pattern >>> f.fractionBits % (f.maxExponent + 1)) <<< f.fractionBits +
          pattern % 1 <<< f.fractionBits) := by
  rw [span, Nat.mod_mul, Nat.mod_mul, Nat.shiftRight_eq_div_pow, Nat.one_shiftLeft,
    Nat.shiftLeft_eq]
  generalize 2 ^ f.fractionBits = size
  grind

-- The fraction of a subnormal pattern is normalised without loss: shifted up by as much as its
-- leading bit takes, and shifted back by as much.
private theorem shiftRight_normalised {fraction bits bias : Nat} (h0 : fraction ≠ 0)
    (hlog : fraction.log2 < bits) (hbits : bits ≤ 52) (hsmallest : bits + bias ≤ 1023) :
    (fraction - 1 <<< fraction.log2) <<< (52 - fraction.log2) < 1 <<< 52 ∧
      (1 <<< 52 + (fraction - 1 <<< fraction.log2) <<< (52 - fraction.log2)) >>>
        (52 - bits + (1024 - (fraction.log2 + 1024 - bias - bits) - bias)) = fraction := by
  have hle : 1 <<< fraction.log2 ≤ fraction := Nat.one_shiftLeft _ ▸ Nat.log2_self_le h0
  refine ⟨(shiftLeft_spread (by omega) ?_).1, ?_⟩
  · have hlt : fraction < 2 ^ (fraction.log2 + 1) := Nat.lt_log2_self
    rw [Nat.one_shiftLeft] at hle ⊢
    rw [Nat.pow_succ] at hlt
    omega
  · have hshift : 52 - bits + (1024 - (fraction.log2 + 1024 - bias - bits) - bias) =
        52 - fraction.log2 := by
      omega
    have htop : 1 <<< 52 = 1 <<< fraction.log2 * 2 ^ (52 - fraction.log2) := by
      rw [Nat.one_shiftLeft, Nat.one_shiftLeft, ← Nat.pow_add, Nat.add_sub_cancel' (by omega)]
    rw [hshift, htop, Nat.shiftLeft_eq (fraction - _), ← Nat.add_mul, Nat.add_sub_cancel' hle,
      Nat.shiftRight_eq_div_pow, Nat.mul_div_cancel _ (Nat.two_pow_pos _)]

/-- Truncating takes back the pattern that was widened. -/
theorem truncate_widen (h : f.Fits) (pattern : Nat) :
    f.truncate (f.widen pattern) = pattern % f.span := by
  obtain ⟨hbits, hsmallest⟩ := h
  have hfraction : pattern % 1 <<< f.fractionBits < 1 <<< f.fractionBits :=
    Nat.mod_lt _ (Nat.one_shiftLeft _ ▸ Nat.two_pow_pos _)
  have hexponent : pattern >>> f.fractionBits % (f.maxExponent + 1) < f.maxExponent + 1 :=
    Nat.mod_lt _ (Nat.succ_pos _)
  have hsign := Nat.mod_two_eq_zero_or_one (pattern >>> f.fractionBits / (f.maxExponent + 1))
  have hmax : f.maxExponent = 2 * f.bias + 1 := rfl
  rw [mod_span_eq, widen]
  generalize pattern % 1 <<< f.fractionBits = fraction at *
  generalize pattern >>> f.fractionBits % (f.maxExponent + 1) = exponent at *
  generalize pattern >>> f.fractionBits / (f.maxExponent + 1) % 2 = sign at *
  have hnegative : (sign == 1).toNat = sign := by
    rcases hsign with rfl | rfl <;> rfl
  obtain ⟨hspread, hback⟩ := shiftLeft_spread hbits hfraction
  dsimp only
  split
  · next he =>
    -- An infinity or a NaN.
    rw [truncate_ofParts f _ (by decide) hspread, if_pos rfl, hback, hnegative, he]
  · next he =>
    split
    · next he0 =>
      subst he0
      split
      · next hf0 =>
        -- A zero: the leading bit, which it does not have, is shifted out.
        rw [truncate_ofParts f _ (by decide) (by decide), if_neg (by decide), if_neg (by omega),
          hnegative, hf0, Nat.shiftRight_eq_zero]
        · simp
        · change 2 ^ 52 < 2 ^ _
          exact Nat.pow_lt_pow_right Nat.one_lt_two (by omega)
      · next hf0 =>
        -- A subnormal pattern.
        have hlog : fraction.log2 < f.fractionBits := by
          rw [Nat.log2_lt hf0, ← Nat.one_shiftLeft]
          exact hfraction
        obtain ⟨hnormalised, hback⟩ := shiftRight_normalised hf0 hlog hbits hsmallest
        rw [truncate_ofParts f _ (by omega) hnormalised, if_neg (by omega), if_neg (by omega),
          hback, hnegative, Nat.zero_shiftLeft, Nat.zero_add]
    · next he0 =>
      -- A normal pattern.
      have hrebased : exponent + 1023 - f.bias + f.bias - 1023 = exponent := by omega
      rw [truncate_ofParts f _ (by omega) hspread, if_neg (by omega), if_pos (by omega), hrebased,
        if_pos (by omega), hback, hnegative]

/-- A number has a pattern in a narrower format just if one is found. -/
theorem narrow?_eq_none_iff (h : f.Fits) {x : Binary64} :
    f.narrow? x = none ↔ ∀ pattern, f.widen pattern ≠ x := by
  constructor
  · rintro hnone pattern rfl
    rw [narrow?, truncate_widen h, f.widen_mod_span, if_pos rfl] at hnone
    cases hnone
  · intro hall
    rw [narrow?, if_neg (hall _)]

end NarrowFormat

end RowVault
