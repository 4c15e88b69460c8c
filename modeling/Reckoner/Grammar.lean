import Reckoner.Arithmetic
import Reckoner.Run
import Reckoner.Scope

/-!
# The grammar

An expression is a sum of terms, a term a product of factors. A factor is a signed factor, or a
primary with an optional power whose exponent is a factor again:

    expression = term (('+' | '-') term)*
    term       = factor (('*' | '/') factor)*
    factor     = ('+' | '-') factor | function expression | primary ('^' factor)?
    primary    = '(' expression ')' | literal | name | nothing

Sums and products group to the left, powers to the right, a sign applies to all of the factor after
it, and a function to a whole expression. An operand may be left out where some other character
follows; it is zero then.

Each rule is read and evaluated in one pass over the text. It looks at the next character that is no
blank and never goes back. Every rule returns what is left of the text, so the recursion is on its
length and, at one length, on the rank of the rule.
-/

namespace Reckoner

namespace Rule

/-- The rule of the operands of a rule. -/
def operand : Rule → Rule
  | .expression => .term
  | .term => .factor
  | .factor => .factor

/-- The operator that a character is between two operands of a rule. -/
def operator? : Rule → Char → Option Operator
  | .expression, '+' => some .plus
  | .expression, '-' => some .minus
  | .term, '*' => some .times
  | .term, '/' => some .over
  | _, _ => none

/-- A rule calls those of lower rank before it has read anything. -/
def rank : Rule → Nat
  | .factor => 2
  | .term => 3
  | .expression => 4

theorem rank_le (rule : Rule) : rule.rank ≤ 4 := by cases rule <;> decide

/-- The operators between the operands of a rule, with their characters. -/
theorem operator?_eq_some_iff {rule : Rule} {x : Char} {op : Operator} :
    rule.operator? x = some op ↔
      (rule = .expression ∧ x = '+' ∧ op = .plus) ∨ (rule = .expression ∧ x = '-' ∧ op = .minus) ∨
      (rule = .term ∧ x = '*' ∧ op = .times) ∨ (rule = .term ∧ x = '/' ∧ op = .over) := by
  constructor
  · intro h
    unfold operator? at h
    split at h <;> simp_all
  · rintro (⟨rfl, rfl, rfl⟩ | ⟨rfl, rfl, rfl⟩ | ⟨rfl, rfl, rfl⟩ | ⟨rfl, rfl, rfl⟩) <;> rfl

end Rule

/-- Accepts the character `x` alone. -/
def only (x : Char) (y : Char) : Option Unit := if y = x then some () else none

namespace Grammar

open Cursor

variable {α : Type} (A : Arithmetic α) (scope : Scope α)

/-! ### Without recursion -/

/-- The literal at the cursor. The whole run of digits and points is read, also if it is none. -/
def literalFrom (c : Cursor) : RunFrom c α :=
  .since (reaches_skip isNumeric c) <|
    match Decimal.ofRun? (c.run isNumeric) with
    | some d => .done (A.literal d) (c.skip isNumeric)
    | none => .fail (.numberFormat (String.ofList (c.run isNumeric))) c.pos (c.skip isNumeric)

/-- The value of the name at the cursor, which is not that of a function. -/
def symbolFrom (name : String) (c : Cursor) : RunFrom c α :=
  .since (reaches_skip isLetter c) <|
    match scope.resolve name with
    | .value v => .done v (c.skip isLetter)
    | .missing => .note (.defaulted name) (.done A.zero (c.skip isLetter))
    | .unknown => .fail (.unknownSymbol name) c.pos (c.skip isLetter)

/-- The closing parenthesis after an expression with the value `v`. -/
def closeFrom (v : α) (c : Cursor) : RunFrom c α :=
  match h : c.take? (only ')') with
  | some (_, d) => .since (take?_eq_some h).1 (.done v d)
  | none =>
    .since (reaches_skipBlanks c) <|
      match c.skipBlanks.peek? with
      | some x => .fail (.unexpectedCharacter (some (String.singleton x))) c.skipBlanks.pos _
      | none => .fail .unexpectedEnd c.skipBlanks.pos _

/-! ### The rules -/

mutual

/-- A call of a rule. -/
def ruleFrom (rule : Rule) (c : Cursor) : RunFrom c α :=
  .asCall rule <|
    match rule with
    | .factor => factorFrom c
    | .term => (ruleFrom .factor c).andThen fun v d _hd => tailFrom .term v d
    | .expression => (ruleFrom .term c).andThen fun v d _hd => tailFrom .expression v d
termination_by 5 * c.rest.length + rule.rank
decreasing_by
  · simp only [Rule.rank]
    omega
  · simp only [Rule.rank]
    omega
  · have := _hd.length_le
    simp only [Rule.rank]
    omega
  · simp only [Rule.rank]
    omega
  · have := _hd.length_le
    simp only [Rule.rank]
    omega

/-- The operators of a rule with their right operands, as long as there are any, after a left
operand with the value `v`. -/
def tailFrom (rule : Rule) (v : α) (c : Cursor) : RunFrom c α :=
  match h : c.take? rule.operator? with
  | some (op, d) =>
    .since (take?_eq_some h).1 <|
      (ruleFrom rule.operand d).andThen fun w e _he => tailFrom rule (A.binary op v w) e
  | none => .since (reaches_skipBlanks c) (.done v _)
termination_by 5 * c.rest.length
decreasing_by
  all_goals have := (take?_eq_some h).2
  · have := rule.operand.rank_le
    omega
  · have := _he.length_le
    omega

/-- The power sign with its exponent, if there is one, after a primary with the value `v`. -/
def powerFrom (v : α) (c : Cursor) : RunFrom c α :=
  match h : c.take? (only '^') with
  | some (_, d) => .since (take?_eq_some h).1 ((ruleFrom .factor d).map (A.power v))
  | none => .since (reaches_skipBlanks c) (.done v _)
termination_by 5 * c.rest.length
decreasing_by
  have := (take?_eq_some h).2
  simp only [Rule.rank]
  omega

/-- A factor, by its first character that is no blank. -/
def factorFrom (c : Cursor) : RunFrom c α :=
  .since (reaches_skipBlanks c) <|
    match h : c.skipBlanks.peek? with
    | none => .fail .unexpectedEnd c.skipBlanks.pos _
    | some x =>
      if x = '+' then
        .since (reaches_next (ne_nil_of_peek? h)) (ruleFrom .factor c.skipBlanks.next)
      else if x = '-' then
        .since (reaches_next (ne_nil_of_peek? h)) <|
          (ruleFrom .factor c.skipBlanks.next).map A.negate
      else if x = '(' then
        .since (reaches_next (ne_nil_of_peek? h)) <|
          ((ruleFrom .expression c.skipBlanks.next).andThen fun v e _ => closeFrom v e).andThen
            fun v e _he => powerFrom v e
      else if isNumeric x then
        (literalFrom A c.skipBlanks).andThen fun v e _he => powerFrom v e
      else if _hx : isLetter x then
        match Func.ofName? (String.ofList (c.skipBlanks.run isLetter)) with
        | some f =>
          .since (reaches_skip isLetter _) <|
            (ruleFrom .expression (c.skipBlanks.skip isLetter)).map (A.call f)
        | none =>
          (symbolFrom A scope (String.ofList (c.skipBlanks.run isLetter)) c.skipBlanks).andThen
            fun v e _he => powerFrom v e
      else powerFrom A.zero c.skipBlanks
termination_by 5 * c.rest.length + 1
decreasing_by
  all_goals have hc := (reaches_skipBlanks c).length_le
  iterate 3
    · have := next_length_lt_of_peek? h
      simp only [Rule.rank]
      omega
  · have := next_length_lt_of_peek? h
    have := _he.length_le
    omega
  · have := _he.length_le
    omega
  · have := skip_length_lt h _hx
    simp only [Rule.rank]
    omega
  · have := _he.length_le
    omega
  · omega

end

end Grammar

end Reckoner
