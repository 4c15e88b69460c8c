import Reckoner.Decimal

/-!
# Arithmetic

What an expression is made of, apart from its text: five named functions, four operators that group
to the left, powers, signs and literals. An `Arithmetic` gives each of them a meaning in one type of
values. The evaluator knows of values only what an `Arithmetic` says, so the same evaluator computes
with doubles, builds a tree, or computes nothing at all.
-/

namespace Reckoner

/-! ### Functions -/

/-- The functions of one argument that have a name. -/
inductive Func where
  | sin | cos | sqrt | log | abs
deriving DecidableEq, Repr

namespace Func

/-- All functions, in the order of their names. -/
def all : List Func := [.abs, .cos, .log, .sin, .sqrt]

/-- The name that an expression calls a function by. -/
def name : Func → String
  | .sin => "sin"
  | .cos => "cos"
  | .sqrt => "sqrt"
  | .log => "log"
  | .abs => "abs"

/-- The function of a given name. -/
def ofName? (name : String) : Option Func := all.find? (·.name == name)

theorem ofName?_name (f : Func) : ofName? f.name = some f := by cases f <;> decide

theorem ofName?_eq_some_iff {n : String} {f : Func} : ofName? n = some f ↔ n = f.name := by
  refine ⟨fun h => ?_, fun h => h ▸ ofName?_name f⟩
  have := List.find?_some h
  exact (beq_iff_eq.mp this).symm

end Func

/-! ### Operators -/

/-- The operators that group to the left. -/
inductive Operator where
  | plus | minus | times | over
deriving DecidableEq, Repr

/-- A meaning of literals, operators, powers, signs and functions in `α`. -/
structure Arithmetic (α : Type) where
  /-- The value of an operand that is left out. -/
  zero : α
  literal : Decimal → α
  /-- The operators that group to the left. -/
  binary : Operator → α → α → α
  /-- The first value to the power of the second. -/
  power : α → α → α
  negate : α → α
  call : Func → α → α

end Reckoner
