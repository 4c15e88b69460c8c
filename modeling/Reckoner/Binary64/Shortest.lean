import Reckoner.Binary64

/-!
# The shortest decimal of a double

The decimals that `nearest` takes back to a finite magnitude `b` are those between the points half
way to its two neighbours, the ends included exactly if `b` is even. Among them the shortest are
those on the coarsest grid of multiples of a power of ten that meets the interval. On each grid only
the multiples next to the value can lie in the interval; the nearest one is tried first, the even
one of two equally near.

Lengths are measured in halves of a unit, that is in `2^-1075`.
-/

namespace Reckoner.Binary64

/-- The decimal `coefficient · 10^exponent`. -/
structure Power where
  /-- The digits, read as one number. -/
  coefficient : Nat
  /-- The power of ten of the last digit. -/
  exponent : Int
deriving DecidableEq, Repr

/-- Whether the ratio `n / d`, in halves of a unit, is rounded to the magnitude `b > 0`. -/
def readsBack (b n d : Nat) : Bool :=
  let low := (units (b - 1) + units b) * d
  let high := (units b + units (b + 1)) * d
  if b % 2 = 0 then low ≤ n && n ≤ high else low < n && n < high

/-- The multiple of `10^k` that reads back as the magnitude `b`, if one does. -/
def onGrid? (b : Nat) (k : Int) : Option Power :=
  let step := Nat.pow 10 k.toNat <<< 1075
  let scale := Nat.pow 10 (-k).toNat
  let value := 2 * units b * scale
  [roundDiv value step, value / step, value / step + 1].findSome? fun c =>
    if readsBack b (c * step) scale then some ⟨c, k⟩ else none

/-- The search from the grid of `10^(n-324)` to finer ones. The grid of `10^-324` is finer than the
distance of any two doubles, so the search ends there at the latest. -/
def shortestFrom (b : Nat) : Nat → Power
  | 0 => (onGrid? b (-324)).getD ⟨0, 0⟩
  | n + 1 => (onGrid? b (n - 323)).getD (shortestFrom b n)

/-- The shortest decimal that reads back as the finite magnitude `b > 0`. -/
def shortest (b : Nat) : Power := shortestFrom b 633

end Reckoner.Binary64
