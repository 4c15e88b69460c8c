import Reckoner.Text.Quoted

/-!
# Failures

An evaluation fails for a cause and at an offset: a `Fault`. A `Failure` is what is reported: the
cause, the offset if there is one, and the text if it is known. It is raised as an error that is
named after the cause. Its message says what is wrong in one line. If offset and text are both
there, a snippet of three lines follows, in which a caret stands under the offending character.
-/

namespace Reckoner

open Text (quote)

/-- What is wrong. -/
inductive Cause where
  /-- A run of digits and points is no literal. -/
  | numberFormat (literal : String)
  /-- A closing parenthesis is missing before the text `found`. -/
  | unexpectedCharacter (found : Option String)
  /-- The text ends where an operand or a closing parenthesis is missing. -/
  | unexpectedEnd
  /-- A name is neither a function nor a variable. -/
  | unknownSymbol (name : String)
  /-- Characters remain after an expression. -/
  | trailingInput
  /-- A function is asked for that there is not. -/
  | unknownFunction (name : String)
  /-- Anything else, in words. -/
  | other (message : String)
deriving DecidableEq, Repr

/-- The kind of a cause. -/
def Cause.kind : Cause → Option String
  | .numberFormat _ => some "number_format"
  | .unexpectedCharacter _ => some "unexpected_character"
  | .unexpectedEnd => some "unexpected_end_of_input"
  | .unknownSymbol _ => some "unknown_symbol"
  | .trailingInput => some "trailing_input"
  | .unknownFunction _ => some "unknown_function"
  | .other _ => none

namespace Cause

/-- The name of the error that is raised for a cause. -/
def name : Cause → String
  | .numberFormat _ => "NumberFormatError"
  | .unexpectedCharacter _ => "UnexpectedCharacterError"
  | .unexpectedEnd => "UnexpectedEndOfInputError"
  | .unknownSymbol _ => "UnknownSymbolError"
  | .trailingInput => "TrailingInputError"
  | .unknownFunction _ => "UnknownFunctionError"
  | .other _ => "ExpressionError"

/-- The wider errors that the error for a cause is one of, the widest first. -/
def wider : Cause → List String
  | .other _ => []
  | .unexpectedEnd => ["ExpressionError", "UnexpectedCharacterError"]
  | _ => ["ExpressionError"]

/-- All errors that the error for a cause is one of. -/
def classes (c : Cause) : List String := c.wider ++ [c.name]

/-- What is caught under the name of an error: those of its kind, and everything if it has none. The
end of a text is caught as an unexpected character too. -/
theorem name_mem_classes_iff {a b : Cause} :
    a.name ∈ b.classes ↔ a.kind = b.kind ∨ a.kind = none ∨
      ((∃ found, a = .unexpectedCharacter found) ∧ b = .unexpectedEnd) := by
  cases a <;> cases b <;> simp [name, wider, classes, kind]

end Cause

/-- Why and where an evaluation stops. -/
structure Fault where
  cause : Cause
  /-- How many characters lie before the place that it is about. -/
  offset : Nat
deriving DecidableEq, Repr

/-! ### Snippets -/

/-- A place in a text that is to be shown. -/
structure Snippet where
  source : String
  /-- How many characters lie before the place. -/
  offset : Int
deriving DecidableEq, Repr

namespace Snippet

/-- Line feeds and tabs are shown as spaces, so that the text stays on one line and keeps its
columns. -/
def flatten (c : Char) : Char := if c = '\n' ∨ c = '\t' then ' ' else c

/-- The offset, the text and a caret under the place, on a line each. The text is indented by two.
-/
def format (s : Snippet) : String :=
  "at offset " ++ toString s.offset ++ "\n  " ++ String.ofList (s.source.toList.map flatten) ++
    "\n" ++ String.ofList (List.replicate (s.offset + 2).toNat ' ') ++ "^"

end Snippet

/-! ### Reports -/

/-- A report of what is wrong. -/
structure Failure where
  cause : Cause
  offset : Option Int
  source : Option String
deriving DecidableEq, Repr

/-- The report of a fault in `text`. -/
def Fault.within (f : Fault) (text : String) : Failure := ⟨f.cause, some f.offset, some text⟩

namespace Failure

/-- How an offset is written; one that is missing is `None`. -/
def place : Option Int → String
  | some offset => toString offset
  | none => "None"

/-- What is wrong, in one line. -/
def short (f : Failure) : String :=
  match f.cause with
  | .numberFormat literal => "Wrong number format " ++ quote literal ++ " at " ++ place f.offset
  | .unexpectedCharacter found =>
    "Expected ')', instead found " ++ (found.map quote).getD "None" ++ " at " ++ place f.offset
  | .unexpectedEnd => "Unexpected end of expression at " ++ place f.offset
  | .unknownSymbol name => "There is no function or variable with name " ++ quote name
  | .trailingInput => "Unexpected input after expression at " ++ place f.offset
  | .unknownFunction name => "Unknown function type: " ++ quote name
  | .other message => message

/-- The place in the text, if both are there. -/
def snippet (f : Failure) : Option Snippet :=
  match f.offset, f.source with
  | some offset, some source => some ⟨source, offset⟩
  | _, _ => none

/-- What is wrong, with the snippet if there is one. -/
def message (f : Failure) : String :=
  match f.snippet with
  | some s => f.short ++ "\n" ++ s.format
  | none => f.short

end Failure

end Reckoner
