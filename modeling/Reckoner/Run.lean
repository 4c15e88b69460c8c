import Reckoner.Cursor
import Reckoner.Failure

/-!
# Runs

A run of a rule starts at a cursor and ends with a value or a fault, at a cursor again, also if it
failed. It leaves a trace: where each rule was entered, where each call returned, and which names
were given zero because they are in no table.

`RunFrom c α` is a run whose final cursor is reached from `c`. The evaluator works with these: that
every step of a sequence goes on from a later place is what makes its recursion end.
-/

namespace Reckoner

/-- The rules of the grammar. -/
inductive Rule where
  | factor | term | expression
deriving DecidableEq, Repr

/-- What is noted in the course of a run. -/
inductive Event where
  | entered (rule : Rule) (pos : Nat)
  | returned (rule : Rule) (start : Nat) (stop : Nat)
  /-- A name stood for zero, because it is in no table. -/
  | defaulted (name : String)
deriving DecidableEq, Repr

/-- What became of a run. -/
structure Run (α : Type) where
  /-- The value, or the fault that the run stopped for. -/
  outcome : Except Fault α
  cursor : Cursor
  trace : List Event

namespace Run

/-- A run that returns `v` at once. -/
def done (v : α) (c : Cursor) : Run α := ⟨.ok v, c, []⟩

/-- A run that stops at `c`, for a cause that is about an offset. -/
def fail (cause : Cause) (offset : Nat) (c : Cursor) : Run α := ⟨.error ⟨cause, offset⟩, c, []⟩

/-- Goes on with `f` where `r` returned a value. -/
def andThen (r : Run α) (f : α → Cursor → Run β) : Run β :=
  match r.outcome with
  | .error e => ⟨.error e, r.cursor, r.trace⟩
  | .ok v =>
    let s := f v r.cursor
    ⟨s.outcome, s.cursor, r.trace ++ s.trace⟩

/-- Applies `f` to the value of `r`. -/
def map (f : α → β) (r : Run α) : Run β := ⟨r.outcome.map f, r.cursor, r.trace⟩

/-- Puts an event in front of the trace. -/
def note (e : Event) (r : Run α) : Run α := { r with trace := e :: r.trace }

/-- The run as a call of `rule` that was entered at the position `start`. -/
def asCall (rule : Rule) (start : Nat) (r : Run α) : Run α :=
  { r with trace := .entered rule start :: r.trace ++
      match r.outcome with
      | .ok _ => [.returned rule start r.cursor.pos]
      | .error _ => [] }

end Run

/-- A run that ends at a place reached from `c`. -/
abbrev RunFrom (c : Cursor) (α : Type) := { r : Run α // c.Reaches r.cursor }

namespace RunFrom

variable {c d : Cursor}

/-- A run that returns `v` at once. -/
def done (v : α) (c : Cursor) : RunFrom c α := ⟨.done v c, .refl c⟩

/-- A run that stops at `c`, for a cause that is about an offset. -/
def fail (cause : Cause) (offset : Nat) (c : Cursor) : RunFrom c α :=
  ⟨.fail cause offset c, .refl c⟩

/-- The run as one from an earlier place. -/
def since (h : c.Reaches d) (r : RunFrom d α) : RunFrom c α := ⟨r.1, h.trans r.2⟩

/-- Goes on with `f` where `r` returned a value, which is a place reached from `c`. -/
def andThen (r : RunFrom c α) (f : α → (d : Cursor) → c.Reaches d → RunFrom d β) : RunFrom c β :=
  match r.1.outcome with
  | .error e => ⟨⟨.error e, r.1.cursor, r.1.trace⟩, r.2⟩
  | .ok v =>
    let s := f v r.1.cursor r.2
    ⟨⟨s.1.outcome, s.1.cursor, r.1.trace ++ s.1.trace⟩, r.2.trans s.2⟩

/-- Applies `f` to the value of `r`. -/
def map (f : α → β) (r : RunFrom c α) : RunFrom c β := ⟨r.1.map f, r.2⟩

/-- Puts an event in front of the trace. -/
def note (e : Event) (r : RunFrom c α) : RunFrom c α := ⟨r.1.note e, r.2⟩

/-- The run as a call of `rule`. -/
def asCall (rule : Rule) (r : RunFrom c α) : RunFrom c α := ⟨r.1.asCall rule c.pos, r.2⟩

@[simp] theorem done_val (v : α) : (done v c).1 = .done v c := rfl

@[simp] theorem fail_val (cause : Cause) (offset : Nat) :
    (fail cause offset c : RunFrom c α).1 = .fail cause offset c := rfl

@[simp] theorem since_val (h : c.Reaches d) (r : RunFrom d α) : (r.since h).1 = r.1 := rfl

@[simp] theorem map_val (f : α → β) (r : RunFrom c α) : (r.map f).1 = r.1.map f := rfl

@[simp] theorem note_val (e : Event) (r : RunFrom c α) : (r.note e).1 = r.1.note e := rfl

@[simp] theorem asCall_val (rule : Rule) (r : RunFrom c α) :
    (r.asCall rule).1 = r.1.asCall rule c.pos := rfl

/-- A sequence of runs is one of what they are apart from the places that they reach. -/
theorem andThen_val (r : RunFrom c α) (f : α → (d : Cursor) → c.Reaches d → RunFrom d β)
    (g : α → Cursor → Run β) (h : ∀ v d hd, (f v d hd).1 = g v d) :
    (r.andThen f).1 = r.1.andThen g := by
  unfold andThen Run.andThen
  cases r.1.outcome with
  | error e => rfl
  | ok v => simp only [h]

end RunFrom

end Reckoner
