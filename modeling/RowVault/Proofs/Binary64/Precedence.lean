import Mathlib.Algebra.Order.Field.Power
import Mathlib.Algebra.Order.Field.Rat
import RowVault.Proofs.Binary64.TotalOrder

/-!
# What the total order means

A bit pattern stands for a number, an infinity or a NaN. In the total order the classes of bit
patterns follow one another, from the negative NaNs to the positive ones; finite numbers are in the
order of their values, negative zero comes before positive zero, and the payload tells NaNs of one
sign apart. The order is stated here by what bit patterns stand for, and shown to be the one of
their places, and so the one of their keys.
-/

namespace RowVault

/-- The classes of bit patterns, from the earliest to the latest in the total order. -/
inductive NumberClass where
  | negativeNaN
  | negativeInfinity
  | negativeNumber
  | negativeZero
  | positiveZero
  | positiveNumber
  | positiveInfinity
  | positiveNaN
  deriving DecidableEq, Repr

namespace NumberClass

variable {c d : NumberClass}

/-- How many classes come before. -/
def rank (c : NumberClass) : Nat := c.ctorIdx

/-- The earliest place of a class. -/
def first : NumberClass → Int
  | negativeNaN => -0x8000000000000000
  | negativeInfinity => -0x7FF0000000000001
  | negativeNumber => -0x7FF0000000000000
  | negativeZero => -1
  | positiveZero => 0
  | positiveNumber => 1
  | positiveInfinity => 0x7FF0000000000000
  | positiveNaN => 0x7FF0000000000001

/-- The latest place of a class. -/
def last : NumberClass → Int
  | negativeNaN => -0x7FF0000000000002
  | negativeInfinity => -0x7FF0000000000001
  | negativeNumber => -2
  | negativeZero => -1
  | positiveZero => 0
  | positiveNumber => 0x7FEFFFFFFFFFFFFF
  | positiveInfinity => 0x7FF0000000000000
  | positiveNaN => 0x7FFFFFFFFFFFFFFF

/-- Classes do not overlap. -/
theorem last_lt_first (h : c.rank < d.rank) : c.last < d.first := by
  revert h
  cases c <;> cases d <;> decide

/-- A class is known by how many come before. -/
theorem rank_inj : c.rank = d.rank ↔ c = d := by
  cases c <;> cases d <;> decide

end NumberClass

namespace Binary64

variable {x y : Binary64}

/-! ## Values -/

/-- A finite number is neither an infinity nor a NaN. -/
def isFinite (x : Binary64) : Bool := x.exponent != 2047

/-- The value of a finite number. -/
def value (x : Binary64) : ℚ :=
  (if x.negative then -(x.scaled.1 : ℚ) else x.scaled.1) * 2 ^ x.scaled.2

/-- A finite number's magnitude as a multiple of the least positive number. -/
def units (magnitude : Nat) : Nat :=
  if magnitude >>> 52 = 0 then magnitude % 1 <<< 52
  else (1 <<< 52 + magnitude % 1 <<< 52) * 2 ^ (magnitude >>> 52 - 1)

/-- The next magnitude is larger, also where the fraction is carried into the exponent. -/
theorem units_lt_units_succ (magnitude : Nat) : units magnitude < units (magnitude + 1) := by
  unfold units
  simp only [Nat.shiftRight_eq_div_pow, Nat.one_shiftLeft]
  by_cases hcarry : magnitude % 2 ^ 52 = 2 ^ 52 - 1
  · have hexponent : (magnitude + 1) / 2 ^ 52 = magnitude / 2 ^ 52 + 1 := by omega
    have hfraction : (magnitude + 1) % 2 ^ 52 = 0 := by omega
    rw [hexponent, hfraction, hcarry, if_neg (Nat.succ_ne_zero _), Nat.add_sub_cancel]
    have hpos := Nat.two_pow_pos (magnitude / 2 ^ 52)
    split
    · omega
    · next h =>
      have hdouble : 2 ^ (magnitude / 2 ^ 52) = 2 ^ (magnitude / 2 ^ 52 - 1) * 2 := by
        rw [← Nat.pow_succ]
        congr 1
        omega
      rw [hdouble] at hpos ⊢
      omega
  · have hexponent : (magnitude + 1) / 2 ^ 52 = magnitude / 2 ^ 52 := by omega
    have hfraction : (magnitude + 1) % 2 ^ 52 = magnitude % 2 ^ 52 + 1 := by omega
    rw [hexponent, hfraction]
    split
    · exact Nat.lt_succ_self _
    · exact Nat.mul_lt_mul_of_pos_right (by omega) (Nat.two_pow_pos _)

/-- Larger magnitudes stand for larger numbers. -/
theorem strictMono_units : StrictMono units := strictMono_nat_of_lt_succ units_lt_units_succ

/-- A value is a multiple of the least positive number, which is `2 ^ -1074`. -/
theorem value_eq (x : Binary64) :
    x.value = ((if x.negative then -(units x.magnitude : Int) else units x.magnitude : Int) : ℚ) *
      2 ^ (-1074 : Int) := by
  have hexponent : x.magnitude >>> 52 = x.exponent := rfl
  have hfraction : x.magnitude % 1 <<< 52 = x.fraction := Nat.mod_mod_of_dvd _ (by decide)
  have hscaled : (x.scaled.1 : ℚ) * 2 ^ x.scaled.2 = units x.magnitude * 2 ^ (-1074 : Int) := by
    rw [scaled, units, hexponent, hfraction]
    split
    · rfl
    · next h =>
      have hpower : (x.exponent : Int) - 1075 = ((x.exponent - 1 : Nat) : Int) + -1074 := by omega
      rw [hpower, zpow_add₀ two_ne_zero, zpow_natCast, ← mul_assoc, Nat.cast_mul, Nat.cast_pow,
        Nat.cast_ofNat]
  unfold value
  split
  · rw [neg_mul, hscaled, Int.cast_neg, Int.cast_natCast, neg_mul]
  · rw [hscaled, Int.cast_natCast]

/-- Finite numbers are in numeric order just if their values are. -/
theorem value_lt_iff : x.value < y.value ↔ x.place < y.place := by
  have hunits (a b : Nat) : units a < units b ↔ a < b := strictMono_units.lt_iff_lt
  have hxy := hunits x.magnitude y.magnitude
  have hyx := hunits y.magnitude x.magnitude
  -- Numbers of different sign compare with zero.
  have hx := hunits 0 x.magnitude
  have hy := hunits 0 y.magnitude
  have hzero : units 0 = 0 := rfl
  rw [value_eq, value_eq, mul_lt_mul_iff_left₀ (zpow_pos two_pos _), Int.cast_lt]
  unfold place
  split <;> split <;> omega

/-! ## Classes -/

/-- The class of a bit pattern. -/
def numberClass (x : Binary64) : NumberClass :=
  if x.isNaN then if x.negative then .negativeNaN else .positiveNaN
  else if x.isInfinite then if x.negative then .negativeInfinity else .positiveInfinity
  else if x.magnitude = 0 then if x.negative then .negativeZero else .positiveZero
  else if x.negative then .negativeNumber else .positiveNumber

/-- One bit pattern comes before another one in the total order: by class, finite numbers also by
value, and NaNs of one sign by payload. Among negative NaNs the larger payload comes first. The
leading bit of a payload makes a NaN quiet, so signalling NaNs are nearer to the infinities. -/
inductive Precedes (x y : Binary64) : Prop where
  | byClass (h : x.numberClass.rank < y.numberClass.rank)
  | byValue (hx : x.isFinite) (hy : y.isFinite) (h : x.value < y.value)
  | negativeNaNs (hx : x.numberClass = .negativeNaN) (hy : y.numberClass = .negativeNaN)
    (h : y.fraction < x.fraction)
  | positiveNaNs (hx : x.numberClass = .positiveNaN) (hy : y.numberClass = .positiveNaN)
    (h : x.fraction < y.fraction)

/-- A magnitude is an exponent and a fraction, side by side. -/
theorem magnitude_eq (x : Binary64) :
    x.magnitude = x.exponent * 0x10000000000000 + x.fraction ∧ x.exponent ≤ 2047 ∧
      x.fraction < 0x10000000000000 := by
  have hfraction : x.fraction = x.magnitude % 1 <<< 52 := (Nat.mod_mod_of_dvd _ (by decide)).symm
  have hmagnitude : x.magnitude < 1 <<< 63 := Nat.mod_lt _ (by decide)
  rw [Nat.one_shiftLeft] at hfraction hmagnitude
  rw [hfraction, exponent, Nat.shiftRight_eq_div_pow]
  omega

/-- The places of a class are together. -/
theorem totalPlace_mem (x : Binary64) :
    x.numberClass.first ≤ x.totalPlace ∧ x.totalPlace ≤ x.numberClass.last := by
  obtain ⟨hmagnitude, hexponent, hfraction⟩ := x.magnitude_eq
  unfold numberClass isNaN isInfinite totalPlace
  simp only [Bool.and_eq_true, beq_iff_eq, bne_iff_ne]
  cases x.negative with
  | false | true =>
    -- In each class, the parts confine the magnitude.
    simp only [Bool.false_eq_true, if_false, if_true]
    split_ifs <;> simp only [NumberClass.first, NumberClass.last] <;> omega

/-- Classes follow one another in the total order. -/
theorem totalPlace_lt_of_rank_lt (h : x.numberClass.rank < y.numberClass.rank) :
    x.totalPlace < y.totalPlace := by
  have hx := x.totalPlace_mem
  have hy := y.totalPlace_mem
  have hclasses := NumberClass.last_lt_first h
  omega

/-- The places in the total and in the numeric order, by sign and magnitude. -/
theorem totalPlace_cases (x : Binary64) :
    x.totalPlace = x.magnitude ∧ x.place = x.magnitude ∨
      x.totalPlace = -1 - (x.magnitude : Int) ∧ x.place = -(x.magnitude : Int) := by
  unfold totalPlace place
  cases x.negative with
  | false => exact .inl ⟨rfl, rfl⟩
  | true => exact .inr ⟨rfl, rfl⟩

/-- The total order refines the numeric one. -/
theorem totalPlace_lt_of_place_lt (h : x.place < y.place) : x.totalPlace < y.totalPlace := by
  have hx := x.totalPlace_cases
  have hy := y.totalPlace_cases
  omega

/-- The place of a bit pattern, by its class. A NaN is as far from the infinity of its sign as its
payload says. A number is where it is in the numeric order, but for the one place that negative zero
takes. -/
theorem totalPlace_eq (x : Binary64) :
    match x.numberClass with
    | .negativeNaN => x.totalPlace = NumberClass.negativeInfinity.first - x.fraction
    | .negativeNumber => x.isFinite ∧ x.totalPlace = x.place - 1
    | .positiveNumber => x.isFinite ∧ x.totalPlace = x.place
    | .positiveNaN => x.totalPlace = NumberClass.positiveInfinity.first + x.fraction
    | c => x.totalPlace = c.first := by
  have hmem := x.totalPlace_mem
  have hcases := x.totalPlace_cases
  have hmagnitude := x.magnitude_eq
  cases hc : x.numberClass with
  | negativeNaN | positiveNaN | negativeInfinity | negativeZero | positiveZero | positiveInfinity =>
    simp only [hc, NumberClass.first, NumberClass.last] at hmem ⊢
    omega
  | negativeNumber | positiveNumber =>
    simp only [hc, NumberClass.first, NumberClass.last] at hmem
    have hfinite : x.exponent ≠ 2047 := by omega
    exact ⟨bne_iff_ne.mpr hfinite, by omega⟩

/-- Within a class, an earlier place is a smaller value or a payload that comes first. -/
theorem precedes_of_numberClass_eq (hc : x.numberClass = y.numberClass)
    (h : x.totalPlace < y.totalPlace) : x.Precedes y := by
  have hx := x.totalPlace_eq
  have hy := y.totalPlace_eq
  rw [hc] at hx
  cases hd : y.numberClass with
  | negativeNaN =>
    simp only [hd] at hx hy
    exact .negativeNaNs (hc.trans hd) hd (by omega)
  | negativeInfinity | negativeZero | positiveZero | positiveInfinity =>
    -- Nothing else is in the class.
    simp only [hd] at hx hy
    omega
  | negativeNumber | positiveNumber =>
    simp only [hd] at hx hy
    exact .byValue hx.1 hy.1 (value_lt_iff.mpr (by omega))
  | positiveNaN =>
    simp only [hd] at hx hy
    exact .positiveNaNs (hc.trans hd) hd (by omega)

/-- Bit patterns are in the total order just if their places are. -/
theorem precedes_iff : x.Precedes y ↔ x.totalPlace < y.totalPlace := by
  constructor
  · intro h
    cases h with
    | byClass h => exact totalPlace_lt_of_rank_lt h
    | byValue _ _ h => exact totalPlace_lt_of_place_lt (value_lt_iff.mp h)
    | negativeNaNs hx hy h | positiveNaNs hx hy h =>
      have hxplace := x.totalPlace_eq
      have hyplace := y.totalPlace_eq
      simp only [hx] at hxplace
      simp only [hy] at hyplace
      omega
  · intro h
    -- The classes decide, unless they are the same.
    rcases Nat.lt_trichotomy x.numberClass.rank y.numberClass.rank with hlt | heq | hgt
    · exact .byClass hlt
    · exact precedes_of_numberClass_eq (NumberClass.rank_inj.mp heq) h
    · have hclass := totalPlace_lt_of_rank_lt hgt
      omega

/-- A bit pattern is no later than another one just if that one does not come first. -/
theorem totalLE_iff : x.TotalLE y ↔ ¬ y.Precedes x := by
  rw [precedes_iff]
  exact Int.not_lt.symm

/-- Keys are ordered as their bit patterns. -/
theorem orderKey_lt_iff : x.orderKey < y.orderKey ↔ x.Precedes y := by
  have hx := x.toNat_orderKey_eq
  have hy := y.toNat_orderKey_eq
  rw [precedes_iff, UInt64.lt_iff_toNat_lt]
  omega

/-- A bit pattern of each class, in the total order. -/
example :
    ([0xFFF8000000000000, 0xFFF0000000000000, 0xC025000000000000, 0x8000000000000000,
      0x0000000000000000, 0x0000000000000001, 0x7FF0000000000000, 0x7FF0000000000001].map
        fun bits ↦ (mk bits).numberClass) =
      [.negativeNaN, .negativeInfinity, .negativeNumber, .negativeZero,
        .positiveZero, .positiveNumber, .positiveInfinity, .positiveNaN] := by
  decide

end Binary64

end RowVault
