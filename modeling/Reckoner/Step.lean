import Reckoner.Evaluation

/-!
# Steps

The single steps that a text can be read in, from the tests of one character to whole rules. A step
is made at a cursor and leaves one, also when it fails; the next step goes on from there.
-/

namespace Reckoner

/-- A step of reading. -/
inductive Step where
  | atEnd
  | peek
  /-- Skips blanks, then takes what is next if it is `expected`. -/
  | consume (expected : String)
  | number
  /-- Reads a run of letters, which may be empty. -/
  | name
  | call (rule : Rule)
deriving DecidableEq, Repr

/-- What a step yields. -/
inductive Answer (α : Type) where
  | truth (b : Bool)
  | text (s : String)
  | value (v : α)
deriving DecidableEq, Repr

namespace Cursor

/-- Skips blanks, then takes the next character if it is the whole of `expected`. A text of another
length is never found. -/
def consumeText (expected : String) (c : Cursor) : Bool × Cursor :=
  match expected.toList with
  | [x] => c.consume x
  | _ => (false, c.skipBlanks)

theorem reaches_consumeText (expected : String) (c : Cursor) :
    c.Reaches (c.consumeText expected).2 := by
  unfold consumeText
  split
  · exact reaches_consume _ c
  · exact reaches_skipBlanks c

/-- A place in a text, in words. -/
def describe (c : Cursor) (text : String) : String :=
  "Cursor(" ++ Text.quote text ++ ", pos=" ++ toString c.pos ++ ")"

end Cursor

namespace Step

variable {α : Type} (A : Arithmetic α) (scope : Scope α)

/-- Makes a step at a cursor. -/
def perform (step : Step) (c : Cursor) : Run (Answer α) :=
  match step with
  | .atEnd => .done (.truth c.atEnd) c
  | .peek =>
    match c.peek? with
    | some x => .done (.text (String.singleton x)) c
    | none => .fail .unexpectedEnd c.pos c
  | .consume expected =>
    let (taken, d) := c.consumeText expected
    .done (.truth taken) d
  | .number => (Grammar.literal A c).map .value
  | .name => .done (.text (String.ofList (c.run isLetter))) (c.skip isLetter)
  | .call rule => (Grammar.evaluate A scope rule c).map .value

/-- Makes steps one after the other, from a cursor on. -/
def performAll : List Step → Cursor → List (Run (Answer α))
  | [], _ => []
  | step :: steps, c =>
    let run := step.perform A scope c
    run :: performAll steps run.cursor

end Step

end Reckoner
