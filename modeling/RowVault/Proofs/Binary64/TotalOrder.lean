import RowVault.Binary64

/-!
# The total order of numbers

In the total order every bit pattern has a place of its own. The patterns without the sign bit
ascend by magnitude, from positive zero through the numbers and infinity to the NaNs; those with it
come before, mirrored, from negative zero downwards. The keys of bit patterns are in this order.
-/

namespace RowVault.Binary64

variable {x y : Binary64}

/-- The place of a bit pattern in the total order. Positive zero has place zero, and negative zero
the place before it. -/
def totalPlace (x : Binary64) : Int :=
  if x.negative then -1 - (x.magnitude : Int) else x.magnitude

/-- A bit pattern is no later than another one in the total order. -/
def TotalLE (x y : Binary64) : Prop := x.totalPlace ≤ y.totalPlace

/-- Places are compared as integers. -/
instance (x y : Binary64) : Decidable (x.TotalLE y) :=
  inferInstanceAs (Decidable (x.totalPlace ≤ y.totalPlace))

/-- Keys count the places from the earliest one. -/
theorem toNat_orderKey_eq (x : Binary64) :
    (x.orderKey.toNat : Int) = x.totalPlace + 0x8000000000000000 := by
  have hx := x.bits.toNat_lt
  rw [toNat_orderKey]
  unfold totalPlace negative magnitude
  simp only [decide_eq_true_eq, Nat.one_shiftLeft]
  by_cases h : x.bits.toNat < 2 ^ 63
  · rw [if_pos h, if_neg (by omega)]
    omega
  · rw [if_neg h, if_pos (by omega)]
    omega

/-- Keys are in the total order of their bit patterns. -/
theorem orderKey_le_iff : x.orderKey ≤ y.orderKey ↔ x.TotalLE y := by
  have hx := x.toNat_orderKey_eq
  have hy := y.toNat_orderKey_eq
  rw [UInt64.le_iff_toNat_le, TotalLE]
  omega

/-- A bit pattern is no later than itself. -/
theorem TotalLE.refl (x : Binary64) : x.TotalLE x := Int.le_refl _

/-- No two bit patterns share a place. -/
theorem TotalLE.antisymm (h : x.TotalLE y) (h' : y.TotalLE x) : x = y :=
  orderKey_inj.mp (UInt64.le_antisymm (orderKey_le_iff.mpr h) (orderKey_le_iff.mpr h'))

end RowVault.Binary64
