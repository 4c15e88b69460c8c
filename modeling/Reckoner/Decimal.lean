/-!
# Decimal literals

A literal is a run of digits and points with at least one digit and at most one point. It has no
sign and no exponent; its value is the number its digits make up, divided by ten for each digit
after the point.
-/

namespace Reckoner

/-- The decimal number `coefficient / 10 ^ places`. -/
structure Decimal where
  /-- The number that the digits make up when the point is left out. -/
  coefficient : Nat
  /-- How many digits stand after the point. -/
  places : Nat
deriving DecidableEq, Repr

namespace Decimal

/-- The decimal that `run`, a run of digits and points, is the literal of. -/
def ofRun? (run : List Char) : Option Decimal :=
  let digits := run.filter Char.isDigit
  if digits.isEmpty || 1 < run.count '.' then none
  else some ⟨Nat.ofDigitChars 10 digits 0, (run.dropWhile (· ≠ '.')).tail.length⟩

/-- A run is refused exactly if it has no digit or has more than one point. -/
theorem ofRun?_eq_none_iff {run : List Char} :
    ofRun? run = none ↔ (∀ c ∈ run, c.isDigit = false) ∨ 2 ≤ run.count '.' := by
  simp only [ofRun?, Bool.or_eq_true, List.isEmpty_iff, List.filter_eq_nil_iff, decide_eq_true_eq]
  split <;> rename_i h <;> simp_all [Nat.succ_le_iff]

end Decimal

end Reckoner
