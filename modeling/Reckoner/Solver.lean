import Reckoner.Arithmetic.Double
import Reckoner.Configuration
import Reckoner.Evaluation

/-!
# Solving expressions

A solver is the text of an expression with a scope for its names. Solving evaluates the text with
the arithmetic of doubles. The log then has a record for each name that stood for zero, in the order
of the text, and one of the value if there is one.

`solveText` does all of it for a text and submitted variables, and `trySolve` reports a failure of
the expression as part of its result.
-/

namespace Reckoner

/-- Why there is no value. -/
inductive Trouble where
  /-- Variables and a scope are both given. -/
  | conflict
  /-- The variables are rejected. -/
  | rejected (rejections : List Rejection)
  /-- The expression fails. -/
  | failed (failure : Failure)
deriving DecidableEq

/-- What is wrong when variables and a scope are both given. -/
def conflictMessage : String := "Pass either variables or config, not both"

/-- The records of the events of a run. -/
def Event.records (events : List Event) : List LogRecord :=
  events.filterMap fun
    | .defaulted name => some (.defaulted name)
    | _ => none

/-- An expression and what its names stand for. -/
structure Solver where
  expression : String
  scope : Scope Float
deriving DecidableEq

namespace Solver

/-- The solver of a text with submitted variables or with a scope. -/
def make (read : ρ → Except Reason Float) (expression : String) (submission : Submission ρ)
    (scope : Option (Scope Float)) : Logged (Except Trouble Solver) :=
  match scope, submission with
  | some scope, .absent => pure (.ok ⟨expression, scope⟩)
  | some _, _ => pure (.error .conflict)
  | none, .absent => pure (.ok ⟨expression, .strict⟩)
  | none, submission => do
    match ← Scope.configureTolerant read submission with
    | .ok scope => return .ok ⟨expression, scope⟩
    | .error rejections => return .error (.rejected rejections)

/-- The value of the expression. -/
def solve (s : Solver) : Logged (Except Failure Float) :=
  let run := Grammar.solve double s.scope s.expression
  match run.outcome with
  | .ok v => ⟨Event.records run.trace ++ [.solved s.expression v], .ok v⟩
  | .error fault => ⟨Event.records run.trace, .error (fault.within s.expression)⟩

/-- The value of a solver is that of its text; a fault is reported with the text. -/
theorem solve_value (s : Solver) :
    s.solve.value =
      (Grammar.solve double s.scope s.expression).outcome.mapError (·.within s.expression) := by
  unfold solve
  cases h : (Grammar.solve double s.scope s.expression).outcome <;> simp only [h] <;> rfl

theorem solve_value_eq_ok_iff {s : Solver} {v : Float} :
    s.solve.value = .ok v ↔ (Grammar.solve double s.scope s.expression).outcome = .ok v := by
  rw [solve_value]
  cases (Grammar.solve double s.scope s.expression).outcome with
  | error f => exact ⟨nofun, nofun⟩
  | ok w =>
    show Except.ok w = Except.ok v ↔ Except.ok w = Except.ok v
    simp only [Except.ok.injEq]

theorem solve_value_eq_error_iff {s : Solver} {e : Failure} :
    s.solve.value = .error e ↔
      ∃ f, (Grammar.solve double s.scope s.expression).outcome = .error f ∧
        e = f.within s.expression := by
  rw [solve_value]
  cases (Grammar.solve double s.scope s.expression).outcome with
  | error f =>
    show Except.error (f.within s.expression) = Except.error e ↔ _
    simp [eq_comm]
  | ok w => exact ⟨nofun, by rintro ⟨f, hf, -⟩; cases hf⟩

/-- A solver in words. -/
def describe (s : Solver) : String :=
  "ExpressionSolver(" ++ Text.quote s.expression ++ ", mode=" ++ s.scope.mode.word ++ ")"

end Solver

/-- The value of a text with submitted variables. -/
def solveText (read : ρ → Except Reason Float) (expression : String) (submission : Submission ρ) :
    Logged (Except Trouble Float) := do
  match ← Solver.make read expression submission none with
  | .ok solver =>
    match ← solver.solve with
    | .ok v => return .ok v
    | .error failure => return .error (.failed failure)
  | .error trouble => return .error trouble

/-- A value, or the kind, the message and the offset of a failure. -/
structure SolveOutcome where
  value : Option Float
  kind : Option String
  message : Option String
  offset : Option Int
deriving DecidableEq

namespace SolveOutcome

/-- There was no failure. -/
def ok (o : SolveOutcome) : Bool := o.kind.isNone

/-- The outcome with a value. -/
def ofValue (v : Float) : SolveOutcome := ⟨some v, none, none, none⟩

/-- The outcome with a failure. -/
def ofFailure (f : Failure) : SolveOutcome := ⟨none, f.cause.kind, some f.short, f.offset⟩

end SolveOutcome

/-- The outcome for a text with submitted variables. Only the variables can be rejected. -/
def trySolve (read : ρ → Except Reason Float) (expression : String) (submission : Submission ρ) :
    Logged (Except Trouble SolveOutcome) := do
  match ← solveText read expression submission with
  | .ok v => return .ok (.ofValue v)
  | .error (.failed failure) => return .ok (.ofFailure failure)
  | .error trouble => return .error trouble

/-- The value of the function with a given name. -/
def applyNamed (name : String) (x : Float) : Except Failure Float :=
  match Func.ofName? name with
  | some f => .ok (double.call f x)
  | none => .error ⟨.unknownFunction name, none, none⟩

end Reckoner
