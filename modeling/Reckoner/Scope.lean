import Reckoner.Character

/-!
# Scopes

A scope says what a name that is no function stands for. The strict scope has no variables at all:
every name is unknown. A tolerant scope has a table of variables, and a name that is not in it
stands for zero.
-/

namespace Reckoner

/-- Variables with their values, in the order in which they were given. -/
abbrev Table (α : Type) := List (String × α)

namespace Table

/-- The value of a variable. -/
def get? (table : Table α) (name : String) : Option α := table.lookup name

/-- Gives the variable `name` the value `v`; a new variable goes to the end. -/
def set (name : String) (v : α) : Table α → Table α
  | [] => [(name, v)]
  | e :: table => if e.1 = name then (name, v) :: table else e :: set name v table

end Table

/-- What names stand for. -/
inductive Scope (α : Type) where
  | strict
  /-- The variables of the table; all other names stand for zero. -/
  | tolerant (table : Table α)
deriving DecidableEq, Repr

/-- How unknown names are treated. -/
inductive Mode where
  | strict | tolerant
deriving DecidableEq, Repr

/-- The word for a mode. -/
def Mode.word : Mode → String
  | .strict => "strict"
  | .tolerant => "tolerant"

/-- What a scope has for a name. -/
inductive Meaning (α : Type) where
  /-- A variable with this value. -/
  | value (v : α)
  /-- No variable, so it stands for zero. -/
  | missing
  | unknown
deriving DecidableEq, Repr

namespace Scope

/-- The mode of a scope. -/
def mode : Scope α → Mode
  | .strict => .strict
  | .tolerant _ => .tolerant

/-- The variables of a scope, if it has a table. -/
def table? : Scope α → Option (Table α)
  | .strict => none
  | .tolerant table => some table

/-- What `name` stands for. -/
def resolve (scope : Scope α) (name : String) : Meaning α :=
  match scope with
  | .strict => .unknown
  | .tolerant table =>
    match table.get? name with
    | some v => .value v
    | none => .missing

/-- The variables that no expression can refer to, because their names are not made of letters, in
the order of the table. -/
def unreachable (scope : Scope α) : List String :=
  (scope.table?.getD []).map Prod.fst |>.filter (!isName ·)

/-- Both scopes have the same names, with equal values. The order of the tables does not matter. -/
def agrees [BEq α] (s t : Scope α) : Bool :=
  match s.table?, t.table? with
  | none, none => true
  | some a, some b =>
    a.length == b.length && a.all fun e => (Table.get? b e.1).any fun v => e.2 == v
  | _, _ => false

/-- A tolerant scope has a meaning for every name. -/
theorem resolve_tolerant_ne_unknown (table : Table α) (name : String) :
    (tolerant table).resolve name ≠ .unknown := by
  simp only [resolve]
  split <;> simp

end Scope

end Reckoner
