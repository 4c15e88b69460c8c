import Reckoner.Grammar

/-!
# Evaluation

The rules of the grammar as functions from cursors to runs, with the equations that they satisfy.
These say what the rules do without the proofs that end their recursion, so nothing else has to be
unfolded to reason about a run.
-/

namespace Reckoner.Grammar

open Cursor

variable {α : Type} (A : Arithmetic α) (scope : Scope α)

/-- The literal at the cursor. -/
def literal (c : Cursor) : Run α := (literalFrom A c).1

/-- The value of the name at the cursor, which is not that of a function. -/
def symbol (name : String) (c : Cursor) : Run α := (symbolFrom A scope name c).1

/-- The closing parenthesis after an expression with the value `v`. -/
def close (v : α) (c : Cursor) : Run α := (closeFrom v c).1

/-- A call of a rule. -/
def evaluate (rule : Rule) (c : Cursor) : Run α := (ruleFrom A scope rule c).1

/-- The operators of a rule with their right operands, after a left operand with the value `v`. -/
def tail (rule : Rule) (v : α) (c : Cursor) : Run α := (tailFrom A scope rule v c).1

/-- The power sign with its exponent, if there is one, after a primary with the value `v`. -/
def power (v : α) (c : Cursor) : Run α := (powerFrom A scope v c).1

/-- A factor. -/
def factor (c : Cursor) : Run α := (factorFrom A scope c).1

/-! ### Equations -/

theorem literal_eq (c : Cursor) :
    literal A c =
      match Decimal.ofRun? (c.run isNumeric) with
      | some d => .done (A.literal d) (c.skip isNumeric)
      | none =>
        .fail (.numberFormat (String.ofList (c.run isNumeric))) c.pos (c.skip isNumeric) := by
  unfold literal literalFrom
  split <;> simp [*]

theorem symbol_eq (name : String) (c : Cursor) :
    symbol A scope name c =
      match scope.resolve name with
      | .value v => .done v (c.skip isLetter)
      | .missing => .note (.defaulted name) (.done A.zero (c.skip isLetter))
      | .unknown => .fail (.unknownSymbol name) c.pos (c.skip isLetter) := by
  unfold symbol symbolFrom
  split <;> simp [*]

theorem close_eq (v : α) (c : Cursor) :
    close v c =
      match c.take? (only ')') with
      | some (_, d) => .done v d
      | none =>
        match c.skipBlanks.peek? with
        | some x =>
          .fail (.unexpectedCharacter (some (String.singleton x))) c.skipBlanks.pos c.skipBlanks
        | none => .fail .unexpectedEnd c.skipBlanks.pos c.skipBlanks := by
  unfold close closeFrom
  split
  · simp [*]
  · split <;> simp [*]

theorem evaluate_factor (c : Cursor) :
    evaluate A scope .factor c = (factor A scope c).asCall .factor c.pos := by
  rw [evaluate, ruleFrom]
  rfl

theorem evaluate_term (c : Cursor) :
    evaluate A scope .term c =
      ((evaluate A scope .factor c).andThen (tail A scope .term)).asCall .term c.pos := by
  rw [evaluate, ruleFrom, RunFrom.asCall_val, RunFrom.andThen_val _ _ (tail A scope .term)]
  · rfl
  · exact fun _ _ _ => rfl

theorem evaluate_expression (c : Cursor) :
    evaluate A scope .expression c =
      ((evaluate A scope .term c).andThen (tail A scope .expression)).asCall .expression c.pos := by
  rw [evaluate, ruleFrom, RunFrom.asCall_val, RunFrom.andThen_val _ _ (tail A scope .expression)]
  · rfl
  · exact fun _ _ _ => rfl

theorem tail_eq (rule : Rule) (v : α) (c : Cursor) :
    tail A scope rule v c =
      match c.take? rule.operator? with
      | some (op, d) =>
        (evaluate A scope rule.operand d).andThen fun w e => tail A scope rule (A.binary op v w) e
      | none => .done v c.skipBlanks := by
  rw [tail, tailFrom]
  split <;> rename_i h
  · rw [RunFrom.since_val,
      RunFrom.andThen_val _ _ fun w e => tail A scope rule (A.binary _ v w) e]
    · simp only [h]
      rfl
    · exact fun _ _ _ => rfl
  · simp [h]

theorem power_eq (v : α) (c : Cursor) :
    power A scope v c =
      match c.take? (only '^') with
      | some (_, d) => (evaluate A scope .factor d).map (A.power v)
      | none => .done v c.skipBlanks := by
  rw [power, powerFrom]
  split <;> simp [*, evaluate]

theorem factor_eq (c : Cursor) :
    factor A scope c =
      match c.skipBlanks.peek? with
      | none => .fail .unexpectedEnd c.skipBlanks.pos c.skipBlanks
      | some x =>
        if x = '+' then evaluate A scope .factor c.skipBlanks.next
        else if x = '-' then (evaluate A scope .factor c.skipBlanks.next).map A.negate
        else if x = '(' then
          ((evaluate A scope .expression c.skipBlanks.next).andThen close).andThen (power A scope)
        else if isNumeric x then (literal A c.skipBlanks).andThen (power A scope)
        else if isLetter x then
          match Func.ofName? (String.ofList (c.skipBlanks.run isLetter)) with
          | some f => (evaluate A scope .expression (c.skipBlanks.skip isLetter)).map (A.call f)
          | none =>
            (symbol A scope (String.ofList (c.skipBlanks.run isLetter)) c.skipBlanks).andThen
              (power A scope)
        else power A scope A.zero c.skipBlanks := by
  have hpower {d : Cursor} (r : RunFrom d α) :
      (r.andThen fun v e _ => powerFrom A scope v e).1 = r.1.andThen (power A scope) :=
    RunFrom.andThen_val r _ (power A scope) fun _ _ _ => rfl
  have hclose {d : Cursor} (r : RunFrom d α) :
      (r.andThen fun v e _ => closeFrom v e).1 = r.1.andThen close :=
    RunFrom.andThen_val r _ close fun _ _ _ => rfl
  rw [factor, factorFrom, RunFrom.since_val]
  split <;> rename_i h <;> simp only [h]
  · rfl
  · split
    · rfl
    split
    · rfl
    split
    · rw [RunFrom.since_val, hpower, hclose]
      rfl
    split
    · rw [hpower]
      rfl
    split
    · cases Func.ofName? (String.ofList (c.skipBlanks.run isLetter)) with
      | some f => rfl
      | none => exact hpower _
    · rfl

/-- A run ends at a place reached from where it starts. -/
theorem reaches_evaluate (rule : Rule) (c : Cursor) :
    c.Reaches (evaluate A scope rule c).cursor := (ruleFrom A scope rule c).2

/-! ### Whole texts -/

/-- The end of the text, after an expression with the value `v`. -/
def finish (v : α) (c : Cursor) : Run α :=
  if c.atEnd then .done v c else .fail .trailingInput c.pos c

/-- The evaluation of a text that is one expression. -/
def solve (text : String) : Run α :=
  (evaluate A scope .expression (.start text)).andThen finish

end Reckoner.Grammar
