import Reckoner.Decimal

/-!
# Doubles as exact numbers

A double is a sign and a magnitude, the 63 bits below the sign bit. The magnitudes below `2047 ·
2^52` are the finite ones, in the order of their values, and each stands for a whole number of units
of `2^-1074`, the least positive double. `units` is that number: `m · 2^s` for the significand `m`
and `s` binades above the lowest. One more step of the same rule gives infinity `2^1024`, so the
points half way between neighbours need no special case.

`nearest` goes back: it takes an exact ratio to the nearest magnitude, of two equally near ones to
the even one, and to infinity from half way between the greatest double and `2^1024` on.
-/

namespace Reckoner.Binary64

/-! ### Sign and magnitude -/

/-- The weight of the sign bit, `2^63`. -/
def signBit : Nat := 0x8000000000000000

/-- The number of magnitudes in a binade, `2^52`. -/
def binade : Nat := 0x10000000000000

/-- The bits below the sign bit. -/
def magnitude (x : Float) : Nat := x.toBits.toNat % signBit

/-- The sign bit. -/
def isNegative (x : Float) : Bool := signBit ≤ x.toBits.toNat

/-- The double with the sign bit `negative` and the magnitude `b`. -/
def ofMagnitude (negative : Bool) (b : Nat) : Float :=
  Float.ofBits (UInt64.ofNat (if negative then signBit + b else b))

/-- The magnitude of infinity, which lies above those of all finite doubles. -/
def infinityMagnitude : Nat := 2047 * binade

/-- Positive zero. -/
def zero : Float := ofMagnitude false 0

/-- One. -/
def one : Float := ofMagnitude false (1023 * binade)

/-- Positive infinity. -/
def infinity : Float := ofMagnitude false infinityMagnitude

/-- Not a number. -/
def nan : Float := ofMagnitude false (infinityMagnitude + binade / 2)

/-- The magnitude of `x` with the sign of `y`. -/
def copySign (x y : Float) : Float := ofMagnitude (isNegative y) (magnitude x)

/-! ### Exact values -/

/-- The value of a finite magnitude in units of `2^-1074`. -/
def units (b : Nat) : Nat :=
  if b < 2 * binade then b else (binade + b % binade) <<< (b / binade - 1)

/-- Whether `x` is an odd whole number: in its significand the bit of weight one is set, and none
below it. From `2^53` on, the bit of weight one has left the significand. -/
def isOddInteger (x : Float) : Bool :=
  let exponent := magnitude x / binade
  let significand := binade + magnitude x % binade
  exponent ≤ 1075 && significand % (2 <<< (1075 - exponent)) == 1 <<< (1075 - exponent)

/-! ### Rounding -/

/-- The whole number nearest to `n / d`, the even one of two equally near. -/
def roundDiv (n d : Nat) : Nat :=
  let q := n / d
  let r := n % d
  if 2 * r < d then q else if d < 2 * r then q + 1 else q + q % 2

/-- The magnitude nearest to `n / d`. The quotient in units is scaled down by `2^s` so that 53 bits
stay before the point; a significand that is rounded up to 54 bits carries into the exponent. -/
def nearest (n d : Nat) : Nat :=
  let scaled := n <<< 1074
  let s := (scaled / d).log2 - 52
  min (s * binade + roundDiv scaled (d <<< s)) infinityMagnitude

/-- The double nearest to a decimal literal. -/
def ofDecimal (d : Decimal) : Float :=
  ofMagnitude false (nearest d.coefficient (Nat.pow 10 d.places))

/-- The magnitude nearest to `coefficient · 10^exponent`. From `10^309` on that is infinity and
below `10^-324` zero, whatever the digits are. -/
def nearestPower (coefficient : Nat) (exponent : Int) : Nat :=
  let width : Int := (Nat.toDigits 10 coefficient).length
  if coefficient = 0 ∨ width + exponent < -323 then 0
  else if 309 < width + exponent then infinityMagnitude
  else nearest (coefficient * Nat.pow 10 exponent.toNat) (Nat.pow 10 (-exponent).toNat)

/-- The double nearest to the whole number `n`. -/
def ofInt (n : Int) : Float := ofMagnitude (n < 0) (nearest n.natAbs 1)

/-- Zero is the value of no unit. -/
theorem units_zero : units 0 = 0 := rfl

end Reckoner.Binary64
