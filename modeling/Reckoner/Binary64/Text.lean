import Reckoner.Binary64.Shortest

/-!
# The text of a double

A double is written with the digits of its shortest decimal. Positional notation always has a point
with a digit on either side; it is used for decimal exponents from -4 to 15. Outside of them one
digit stands before the point, and an exponent with a sign and at least two digits follows. Zero
keeps its sign, infinity has one if it is negative, and not-a-number never has one.
-/

namespace Reckoner.Binary64

/-- The least exponent, of the first digit, that is written in positional notation. -/
def leastPositional : Int := -4

/-- The least exponent, of the first digit, that is too great for positional notation. -/
def positionalEnd : Int := 16

/-- Positional notation of `0.d₁d₂… · 10^point`. -/
def positional (digits : List Char) (point : Int) : List Char :=
  if point ≤ 0 then
    '0' :: '.' :: (List.replicate (-point).toNat '0' ++ digits)
  else
    let whole := digits.take point.toNat
    let fraction := digits.drop point.toNat
    whole ++ List.replicate (point.toNat - whole.length) '0' ++ '.' ::
      (if fraction.isEmpty then ['0'] else fraction)

/-- The exponent with a sign and at least two digits. -/
def exponentText (e : Int) : List Char :=
  let digits := Nat.toDigits 10 e.natAbs
  (if e < 0 then '-' else '+') :: (List.replicate (2 - digits.length) '0' ++ digits)

/-- Scientific notation of `d₁.d₂… · 10^e`. -/
def scientific (digits : List Char) (e : Int) : List Char :=
  digits.take 1 ++ (if digits.length ≤ 1 then [] else '.' :: digits.drop 1) ++ 'e' :: exponentText e

/-- The digits of a decimal. A shortest one has no zero at its end. -/
def Power.digits (p : Power) : List Char := Nat.toDigits 10 p.coefficient

/-- The exponent of the first digit of a decimal. -/
def Power.leading (p : Power) : Int := p.exponent + p.digits.length - 1

/-- The text of a decimal in the notation that its exponent asks for. -/
def Power.text (p : Power) : List Char :=
  if leastPositional ≤ p.leading ∧ p.leading < positionalEnd then
    positional p.digits (p.leading + 1)
  else scientific p.digits p.leading

example : Power.text ⟨14, 0⟩ = ['1', '4', '.', '0'] := by decide
example : Power.text ⟨15, -5⟩ = ['0', '.', '0', '0', '0', '1', '5'] := by decide
example : Power.text ⟨15, -6⟩ = ['1', '.', '5', 'e', '-', '0', '5'] := by decide
example : Power.text ⟨1, 16⟩ = ['1', 'e', '+', '1', '6'] := by decide

/-- The text of the magnitude `b`, without a sign. -/
def magnitudeText (b : Nat) : List Char :=
  if b = 0 then "0.0".toList
  else if b < infinityMagnitude then (shortest b).text
  else if b = infinityMagnitude then "inf".toList
  else "nan".toList

/-- The text of a double. -/
def text (x : Float) : String :=
  let body := magnitudeText (magnitude x)
  String.ofList (if isNegative x && magnitude x ≤ infinityMagnitude then '-' :: body else body)

end Reckoner.Binary64
