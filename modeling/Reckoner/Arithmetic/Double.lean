import Reckoner.Arithmetic
import Reckoner.Binary64

/-!
# The arithmetic of doubles

The operations of a machine refuse some operands: a division by zero, the root of a negative number,
a power that overflows or has a pole. The operations here return what IEEE 754 has in their place,
an infinity or not-a-number. They keep clear of the refused operands, save for `power`, which takes
the refusal and rebuilds the result from its reason.

The machine's operations are a parameter, `Machine m`, that answers in a monad `m`. In `Id` they
answer with a double; in a monad that can fail a refusal is seen, so it can be said that none
occurs.
-/

namespace Reckoner

open Binary64

/-- Why the power of two finite doubles is refused. -/
inductive PowerRefusal where
  /-- The result is too great for a double. -/
  | overflow
  /-- The result is undefined, or is a pole. -/
  | domain
deriving DecidableEq, Repr

/-- The operations that a machine has for doubles and that refuse some operands. -/
structure Machine (m : Type → Type) where
  divide : Float → Float → m Float
  sqrt : Float → m Float
  /-- The natural logarithm. -/
  log : Float → m Float
  sin : Float → m Float
  cos : Float → m Float
  /-- The first double to the power of the second. -/
  power : Float → Float → Except PowerRefusal Float

namespace Machine

variable {m : Type → Type} [Monad m] (M : Machine m)

/-- The quotient, with an infinity or not-a-number for a divisor that is zero. The sign of the
infinity follows both operands, a negative zero included. -/
def quotient (x y : Float) : m Float :=
  if y == zero then
    pure (if x == zero || x.isNaN then nan else copySign infinity x * copySign one y)
  else M.divide x y

/-- The power, with an infinity or not-a-number in place of a refusal. -/
def pow (x y : Float) : Float :=
  match M.power x y with
  | .ok r => r
  | .error .overflow => if x < zero && isOddInteger y then -infinity else infinity
  | .error .domain =>
    if x == zero then
      if isOddInteger y then copySign infinity x else infinity
    else nan

/-- The value of a function, not-a-number outside of its domain. -/
def apply (f : Func) (x : Float) : m Float :=
  match f with
  | .sin => if x.isFinite then M.sin x else pure nan
  | .cos => if x.isFinite then M.cos x else pure nan
  | .sqrt => if x < zero then pure nan else M.sqrt x
  | .log =>
    if x.isNaN || x < zero then pure nan else if x == zero then pure (-infinity) else M.log x
  | .abs => pure x.abs

/-- The values of the operators. -/
def operate : Operator → Float → Float → m Float
  | .plus, x, y => pure (x + y)
  | .minus, x, y => pure (x - y)
  | .times, x, y => pure (x * y)
  | .over, x, y => M.quotient x y

/-- The arithmetic of doubles on a machine. A refusal of an operand is one of the result. -/
def arithmetic : Arithmetic (m Float) where
  zero := pure zero
  literal d := pure (ofDecimal d)
  binary op x y := do M.operate op (← x) (← y)
  power x y := do return M.pow (← x) (← y)
  negate x := do return -(← x)
  call f x := do M.apply f (← x)

/-- The power of the machine at hand. It refuses finite operands whose power is infinite or
undefined. -/
def checkedPower (x y : Float) : Except PowerRefusal Float :=
  let r := x.pow y
  if x.isFinite && y.isFinite then
    if r.isNaN then .error .domain
    else if r.isInf then .error (if x == zero then .domain else .overflow)
    else .ok r
  else .ok r

/-- The machine at hand. -/
def here : Machine Id where
  divide x y := x / y
  sqrt := Float.sqrt
  log := Float.log
  sin := Float.sin
  cos := Float.cos
  power := checkedPower

end Machine

/-- The arithmetic of doubles. -/
def double : Arithmetic Float := Machine.here.arithmetic

end Reckoner
