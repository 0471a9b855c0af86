/-!
# Binary64 numbers

A double-precision number is its 64 bits: sign, eleven bits of biased exponent, 52 bits of
fraction. Equality of `Binary64` is equality of bits, so zeros of different sign and NaNs of
different payload are kept apart. Two orders are defined on the bits: the numeric one, in which
the zeros are equal and a NaN is unordered, and the total one, which puts every bit pattern in
its place (negative NaNs first, positive NaNs last). Conversions from integers round to nearest,
ties to even.
-/

namespace RowVault

/-- A double-precision number, given by its bits. -/
structure Binary64 where
  bits : UInt64
  deriving DecidableEq, Repr

namespace Binary64

/-- The sign bit. -/
def negative (x : Binary64) : Bool := 1 <<< 63 ≤ x.bits.toNat

/-- The bits below the sign, as a number. -/
def magnitude (x : Binary64) : Nat := x.bits.toNat % 1 <<< 63

/-- The biased exponent. -/
def exponent (x : Binary64) : Nat := x.magnitude >>> 52

/-- The fraction below the leading bit. -/
def fraction (x : Binary64) : Nat := x.bits.toNat % 1 <<< 52

/-- The number with these three parts. -/
def ofParts (negative : Bool) (exponent fraction : Nat) : Binary64 :=
  ⟨UInt64.ofNat ((if negative then 1 <<< 63 else 0) + exponent <<< 52 + fraction)⟩

/-- Positive zero. -/
def zero : Binary64 := ⟨0⟩

/-- The NaN that stands for all in output. -/
def nan : Binary64 := ofParts false 2047 (1 <<< 51)

/-- A NaN has the largest exponent and a fraction. -/
def isNaN (x : Binary64) : Bool := x.exponent == 2047 && x.fraction != 0

/-- An infinity has the largest exponent and no fraction. -/
def isInfinite (x : Binary64) : Bool := x.exponent == 2047 && x.fraction == 0

/-! ## Numeric order -/

/-- The place of a number in numeric order; both zeros take place zero. -/
def place (x : Binary64) : Int := if x.negative then -(x.magnitude : Int) else x.magnitude

/-- Numeric equality: a NaN equals nothing, and the two zeros are equal. -/
def same (x y : Binary64) : Bool := !x.isNaN && !y.isNaN && x.place == y.place

/-- Numeric "at most": false if either side is a NaN. -/
def atMost (x y : Binary64) : Bool := !x.isNaN && !y.isNaN && decide (x.place ≤ y.place)

/-- Numeric "below": false if either side is a NaN. -/
def below (x y : Binary64) : Bool := !x.isNaN && !y.isNaN && decide (x.place < y.place)

/-! ## Total order -/

/-- The sign bit alone. -/
def signBit : UInt64 := 0x8000000000000000

/-- A key whose unsigned order is the total order of bit patterns: numbers without the sign bit get
it, and all bits are flipped in numbers with it. -/
def orderKey (x : Binary64) : UInt64 :=
  if x.bits < signBit then x.bits + signBit else ~~~ x.bits

/-- The number of a key. -/
def ofOrderKey (key : UInt64) : Binary64 :=
  if key < signBit then ⟨~~~ key⟩ else ⟨key - signBit⟩

private theorem toNat_signBit : signBit.toNat = 1 <<< 63 := rfl

/-- Numbers without the sign bit come behind those with it, whose order is turned round. -/
theorem toNat_orderKey (x : Binary64) :
    x.orderKey.toNat =
      if x.bits.toNat < 1 <<< 63 then x.bits.toNat + 1 <<< 63
      else 1 <<< 64 - 1 - x.bits.toNat := by
  have hx := x.bits.toNat_lt
  unfold orderKey
  simp only [UInt64.lt_iff_toNat_lt, toNat_signBit]
  split
  · rw [UInt64.toNat_add, toNat_signBit]
    omega
  · exact UInt64.toNat_not x.bits

/-- A number is known by its key. -/
theorem ofOrderKey_orderKey (x : Binary64) : ofOrderKey x.orderKey = x := by
  have hx := x.bits.toNat_lt
  have hk := x.toNat_orderKey
  have e : ∀ key : UInt64, key.toNat = x.bits.toNat → (⟨key⟩ : Binary64) = x :=
    fun key h ↦ congrArg mk (UInt64.toNat_inj.mp h)
  unfold ofOrderKey
  simp only [UInt64.lt_iff_toNat_lt, toNat_signBit]
  split
  · apply e
    rw [UInt64.toNat_not]
    simp only [UInt64.size]
    split at hk <;> omega
  · apply e
    rw [UInt64.toNat_sub, toNat_signBit]
    split at hk <;> omega

/-- A key is known by its number. -/
theorem orderKey_ofOrderKey (key : UInt64) : (ofOrderKey key).orderKey = key := by
  have hlt := key.toNat_lt
  apply UInt64.toNat_inj.mp
  rw [toNat_orderKey]
  unfold ofOrderKey
  simp only [UInt64.lt_iff_toNat_lt, toNat_signBit]
  by_cases h : key.toNat < 1 <<< 63
  · rw [if_pos h, UInt64.toNat_not]
    simp only [UInt64.size]
    split <;> omega
  · rw [if_neg h, UInt64.toNat_sub, toNat_signBit]
    split <;> omega

/-- Different numbers have different keys. -/
theorem orderKey_inj {x y : Binary64} : x.orderKey = y.orderKey ↔ x = y :=
  ⟨fun h ↦ by rw [← ofOrderKey_orderKey x, h, ofOrderKey_orderKey], congrArg orderKey⟩

/-! ## Conversions -/

/-- The nearest number to a natural number below `2 ^ 1024`, ties to even. -/
def ofNat (n : Nat) : Binary64 :=
  if n = 0 then zero
  else
    let top := Nat.log2 n
    let significand :=
      if top ≤ 52 then n <<< (52 - top)
      else
        let unit := 1 <<< (top - 52)
        let kept := n / unit
        let lost := n % unit
        if 2 * lost > unit ∨ (2 * lost = unit ∧ kept % 2 = 1) then kept + 1 else kept
    -- A significand rounded up to 2 ^ 53 carries into the exponent.
    ⟨UInt64.ofNat ((top + 1022) <<< 52 + significand)⟩

/-- The number of the other sign. -/
def neg (x : Binary64) : Binary64 := ⟨x.bits ^^^ 0x8000000000000000⟩

/-- The nearest number to an integer, ties to even; zero is positive. -/
def ofInt (n : Int) : Binary64 := if n < 0 then (ofNat n.natAbs).neg else ofNat n.natAbs

/-- The significand and the power of two of a finite number's magnitude. -/
def scaled (x : Binary64) : Nat × Int :=
  if x.exponent = 0 then (x.fraction, -1074)
  else (1 <<< 52 + x.fraction, (x.exponent : Int) - 1075)

/-- The largest integer not above a finite number. -/
def floor (x : Binary64) : Int :=
  let (m, e) := x.scaled
  let signed : Int := if x.negative then -(m : Int) else m
  if 0 ≤ e then signed * (1 <<< e.toNat : Nat) else signed.fdiv (1 <<< (-e).toNat : Nat)

/-- The smallest integer not below a finite number. -/
def ceil (x : Binary64) : Int := -x.neg.floor

/-- The same bits as a machine number. -/
def toFloat (x : Binary64) : Float := Float.ofBits x.bits

/-- The bits of a machine number. -/
def ofFloat (x : Float) : Binary64 := ⟨x.toBits⟩

/-- The mean of two numbers, in machine arithmetic. -/
def mean (x y : Binary64) : Binary64 := ofFloat ((x.toFloat + y.toFloat) / 2)

end Binary64

/-! ## Narrower formats -/

/-- A binary floating-point format narrower than `Binary64`: the width of its fraction and the bias
of its exponent, whose largest value is `2 * bias + 1`. -/
structure NarrowFormat where
  fractionBits : Nat
  bias : Nat
  deriving DecidableEq, Repr

namespace NarrowFormat

/-- Half precision: ten bits of fraction, five of exponent. -/
def binary16 : NarrowFormat := ⟨10, 15⟩

/-- Single precision: 23 bits of fraction, eight of exponent. -/
def binary32 : NarrowFormat := ⟨23, 127⟩

/-- The exponent of infinities and NaNs. -/
def maxExponent (f : NarrowFormat) : Nat := 2 * f.bias + 1

/-- The double-precision number of a bit pattern in a narrow format; every such number is exact.
A subnormal pattern is normalised, and a NaN keeps its payload in the high bits. -/
def widen (f : NarrowFormat) (pattern : Nat) : Binary64 :=
  let fraction := pattern % 1 <<< f.fractionBits
  let upper := pattern >>> f.fractionBits
  let exponent := upper % (f.maxExponent + 1)
  let negative := upper / (f.maxExponent + 1) % 2 == 1
  let spread := 52 - f.fractionBits
  if exponent = f.maxExponent then .ofParts negative 2047 (fraction <<< spread)
  else if exponent = 0 then
    if fraction = 0 then .ofParts negative 0 0
    else
      let top := Nat.log2 fraction
      .ofParts negative (top + 1024 - f.bias - f.fractionBits)
        ((fraction - 1 <<< top) <<< (52 - top))
  else .ofParts negative (exponent + 1023 - f.bias) (fraction <<< spread)

/-- The bit pattern in a narrow format nearest to a number from below in magnitude, where there
is one; numbers out of range give an arbitrary pattern. -/
def truncate (f : NarrowFormat) (x : Binary64) : Nat :=
  let sign := if x.negative then (f.maxExponent + 1) <<< f.fractionBits else 0
  let spread := 52 - f.fractionBits
  sign +
    (if x.exponent = 2047 then f.maxExponent <<< f.fractionBits + x.fraction >>> spread
    else if 1023 < x.exponent + f.bias then
      if x.exponent + f.bias - 1023 < f.maxExponent then
        (x.exponent + f.bias - 1023) <<< f.fractionBits + x.fraction >>> spread
      else 0
    else (1 <<< 52 + x.fraction) >>> (spread + (1024 - x.exponent - f.bias)))

/-- The bit pattern that a narrow format has for exactly this number, if it has one. -/
def narrow? (f : NarrowFormat) (x : Binary64) : Option Nat :=
  if f.widen (f.truncate x) = x then some (f.truncate x) else none

/-- Only patterns of the very number are given. -/
theorem widen_of_narrow? {f : NarrowFormat} {x : Binary64} {pattern : Nat}
    (h : f.narrow? x = some pattern) : f.widen pattern = x := by
  unfold narrow? at h
  split at h <;> simp_all

end NarrowFormat

end RowVault
