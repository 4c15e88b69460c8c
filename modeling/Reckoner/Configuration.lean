import Reckoner.Log
import Reckoner.Scope
import Reckoner.Text.Number

/-!
# Configurations

A scope is made from what a caller submits: nothing, a table of raw values, or something that is no
table. A table is taken as a whole. If each of its values can be read as a double, the scope is
tolerant, with the same names in the same order, and a warning is logged for each name that no
expression can refer to. If not, each value that cannot be read is rejected, in the order of the
table, and nothing is logged.

How a raw value is read is a parameter of all of this; `RawValue.read` is the reading that is used.
-/

namespace Reckoner

open Binary64

/-! ### Rejections -/

/-- Why something that was submitted is rejected. -/
inductive Reason where
  /-- It is no number. -/
  | notNumber
  /-- It is a text that no number is written in. -/
  | unreadable
  /-- It is no table. -/
  | notTable
  /-- It cannot be changed. -/
  | frozen
deriving DecidableEq, Repr

namespace Reason

/-- The code of a reason. -/
def code : Reason → String
  | .notNumber => "float_type"
  | .unreadable => "float_parsing"
  | .notTable => "dict_type"
  | .frozen => "frozen_instance"

/-- A reason in words. -/
def message : Reason → String
  | .notNumber => "Input should be a valid number"
  | .unreadable => "Input should be a valid number, unable to parse string as a number"
  | .notTable => "Input should be a valid dictionary"
  | .frozen => "Instance is frozen"

end Reason

/-- The rejection of one variable, or of the whole table if no name is given. -/
structure Rejection where
  name : Option String
  reason : Reason
deriving DecidableEq, Repr

/-- Where the rejected value was found. -/
def Rejection.location (r : Rejection) : List String := "variables" :: r.name.toList

/-! ### Raw values -/

/-- A value as it is submitted. -/
inductive RawValue where
  | number (x : Float)
  | integer (n : Int)
  | truth (b : Bool)
  | text (s : String)
  | other
deriving DecidableEq

/-- A raw value as a double. A whole number that would be rounded to infinity is none. -/
def RawValue.read : RawValue → Except Reason Float
  | .number x => .ok x
  | .integer n => if (ofInt n).isFinite then .ok (ofInt n) else .error .notNumber
  | .truth b => .ok (if b then one else zero)
  | .text s =>
    match Text.number? s with
    | some x => .ok x
    | none => .error .unreadable
  | .other => .error .notNumber

/-- What is submitted as variables. -/
inductive Submission (ρ : Type) where
  | absent
  /-- A table of raw values, each under its own name. -/
  | table (entries : List (String × ρ))
  | malformed
deriving DecidableEq

/-! ### From submissions to scopes -/

variable {ρ : Type} (read : ρ → Except Reason Float)

/-- The table of the values that `entries` are read as, or a rejection for each that cannot be. -/
def readTable : List (String × ρ) → Except (List Rejection) (Table Float)
  | [] => .ok []
  | (name, raw) :: entries =>
    match read raw, readTable entries with
    | .ok v, .ok table => .ok ((name, v) :: table)
    | .ok _, .error rejections => .error rejections
    | .error reason, .ok _ => .error [⟨some name, reason⟩]
    | .error reason, .error rejections => .error (⟨some name, reason⟩ :: rejections)

namespace Scope

/-- The scope of a submission. Without a table it is strict. -/
def ofSubmission : Submission ρ → Except (List Rejection) (Scope Float)
  | .absent => .ok .strict
  | .malformed => .error [⟨none, .notTable⟩]
  | .table entries => (readTable read entries).map .tolerant

/-- The scope of a submission. Each variable that no expression can refer to is warned of. -/
def configure (submission : Submission ρ) : Logged (Except (List Rejection) (Scope Float)) :=
  match ofSubmission read submission with
  | .ok scope => ⟨scope.unreachable.map .unreachable, .ok scope⟩
  | .error rejections => ⟨[], .error rejections⟩

/-- The tolerant scope of a submission. Without a table it has no variables. -/
def configureTolerant (submission : Submission ρ) :
    Logged (Except (List Rejection) (Scope Float)) :=
  match submission with
  | .absent => configure read (.table [])
  | submission => configure read submission

/-- An attempt to change the variables of a scope, which is always rejected. -/
def assign (_scope : Scope Float) (_submission : Submission ρ) : Except (List Rejection) Unit :=
  .error [⟨none, .frozen⟩]

/-- The value that `name` stands for, if any. That it stands for zero is logged. -/
def look (scope : Scope Float) (name : String) : Logged (Option Float) :=
  match scope.resolve name with
  | .value v => ⟨[], some v⟩
  | .missing => ⟨[.defaulted name], some zero⟩
  | .unknown => ⟨[], none⟩

/-- A scope in words. -/
def describe (scope : Scope Float) : String :=
  let table :=
    match scope.table? with
    | none => "None"
    | some table =>
      "\x7b" ++ String.intercalate ", "
        (table.map fun e => Text.quote e.1 ++ ": " ++ text e.2) ++ "\x7d"
  "SolverConfig(variables=" ++ table ++ ")"

end Scope

end Reckoner
