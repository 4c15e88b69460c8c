import Reckoner.Evaluation
import Mathlib.Data.List.Basic

/-!
# Runs of the rules as a relation

A rule is begun at a cursor and ends with a run. `Runs A scope t c r` says so by one constructor for
each way that a rule can go on, whether the run returns or fails. What a rule does is a `Task`: a
call is the body of a rule between two events of the trace, the body of a sum or a product is an
operand with a tail, and that of a factor is a sign, a function, or a primary with a power.

The relation is the graph of the evaluator (`runs_iff`). Facts about all runs are proved by induction
on it: an induction has one case for each step, and the parts of a run that ended before the rest
began are runs themselves.
-/

namespace Reckoner

namespace Cursor

/-! ### Looking ahead -/

/-- The next character that is no blank. -/
def ahead? (c : Cursor) : Option Char := c.skipBlanks.peek?

/-- The place after the next character that is no blank. -/
def past (c : Cursor) : Cursor := c.skipBlanks.next

/-- The run of letters after the blanks. -/
def word (c : Cursor) : List Char := c.skipBlanks.run isLetter

/-- The place after the run of letters after the blanks. -/
def pastWord (c : Cursor) : Cursor := c.skipBlanks.skip isLetter

/-- The function that the run of letters after the blanks is the name of. -/
def function? (c : Cursor) : Option Func := Func.ofName? (String.ofList c.word)

theorem take?_eq (accept : Char → Option β) (c : Cursor) :
    c.take? accept = (c.ahead?.bind accept).map fun b => (b, c.past) := rfl

theorem take?_only (x : Char) (c : Cursor) :
    c.take? (only x) = if c.ahead? = some x then some ((), c.past) else none := by
  rw [take?_eq]
  rcases h : c.ahead? with _ | y
  · simp
  · by_cases hy : y = x <;> simp [only, hy]

theorem run_eq_nil {p : Char → Bool} {c : Cursor} (h : ∀ x ∈ c.peek?, p x = false) :
    c.run p = [] := by
  unfold run
  cases hr : c.rest with
  | nil => rfl
  | cons x r => rw [List.takeWhile_cons_of_neg (by simp [h x (by simp [peek?, hr])])]

theorem run_ne_nil {p : Char → Bool} {c : Cursor} {x : Char} (h : c.peek? = some x) (hx : p x) :
    c.run p ≠ [] := by
  obtain ⟨y, r, hr⟩ := List.exists_cons_of_ne_nil (ne_nil_of_peek? h)
  obtain rfl : y = x := by simpa [peek?, hr] using h
  simp [run, hr, hx]

/-- A function is ahead only where a letter is. -/
theorem function?_eq_none {c : Cursor} (h : ∀ x ∈ c.ahead?, isLetter x = false) :
    c.function? = none := by
  rw [function?, word, run_eq_nil h]
  rfl

theorem exists_letter_of_function? {c : Cursor} {f : Func} (h : c.function? = some f) :
    ∃ x, c.ahead? = some x ∧ isLetter x := by
  by_contra hc
  have hn : c.function? = none := function?_eq_none fun x hx => by
    by_contra hl
    exact hc ⟨x, hx, by simpa using hl⟩
  rw [hn] at h
  cases h

theorem ahead?_ne_of_function? {c : Cursor} {f : Func} {y : Char} (h : c.function? = some f)
    (hy : isLetter y = false) : c.ahead? ≠ some y := by
  obtain ⟨x, hx, hl⟩ := exists_letter_of_function? h
  rintro hxy
  rw [Option.some.inj (hx.symm.trans hxy), hy] at hl
  cases hl

/-- A primary is ahead: neither a sign nor a function. -/
structure StartsPrimary (c : Cursor) : Prop where
  plus : c.ahead? ≠ some '+'
  minus : c.ahead? ≠ some '-'
  function : c.function? = none

theorem startsPrimary_of_ahead {c : Cursor} {x : Char} (h : c.ahead? = some x)
    (hl : isLetter x = false) (hp : x ≠ '+') (hm : x ≠ '-') : c.StartsPrimary where
  plus := by simpa [h] using hp
  minus := by simpa [h] using hm
  function := function?_eq_none (by simpa [h] using hl)

theorem past_length_lt {c : Cursor} {x : Char} (h : c.ahead? = some x) :
    c.past.rest.length < c.rest.length :=
  Nat.lt_of_lt_of_le (next_length_lt_of_peek? h) (reaches_skipBlanks c).length_le

theorem pastWord_length_lt {c : Cursor} {x : Char} (h : c.ahead? = some x) (hx : isLetter x) :
    c.pastWord.rest.length < c.rest.length :=
  Nat.lt_of_lt_of_le (skip_length_lt h hx) (reaches_skipBlanks c).length_le

end Cursor

/-- The run with the events `es` before its own. -/
def Run.after (es : List Event) (r : Run α) : Run α := { r with trace := es ++ r.trace }

@[simp] theorem Run.after_outcome (es : List Event) (r : Run α) :
    (r.after es).outcome = r.outcome := rfl

@[simp] theorem Run.after_cursor (es : List Event) (r : Run α) : (r.after es).cursor = r.cursor :=
  rfl

theorem Run.after_append (es fs : List Event) (r : Run α) :
    r.after (es ++ fs) = (r.after fs).after es := by
  simp [Run.after]

theorem Run.map_outcome_eq_ok_iff {f : α → β} {r : Run α} {w : β} :
    (r.map f).outcome = .ok w ↔ ∃ v, r.outcome = .ok v ∧ f v = w := by
  obtain ⟨⟨e⟩ | ⟨v⟩, d, es⟩ := r <;> simp [map, Except.map]

@[simp] theorem Run.map_outcome_eq_error_iff {f : α → β} {r : Run α} {e : Fault} :
    (r.map f).outcome = .error e ↔ r.outcome = .error e := by
  obtain ⟨⟨e⟩ | ⟨v⟩, d, es⟩ := r <;> simp [map, Except.map]

theorem Run.andThen_ok (v : α) (d : Cursor) (es : List Event) (f : α → Cursor → Run β) :
    (Run.mk (.ok v) d es).andThen f = (f v d).after es := rfl

theorem Run.reaches_andThen {c : Cursor} {r : Run α} {f : α → Cursor → Run β}
    (h : c.Reaches r.cursor) (hf : ∀ v (e : Cursor), e.Reaches (f v e).cursor) :
    c.Reaches (r.andThen f).cursor := by
  obtain ⟨⟨e⟩ | ⟨v⟩, d, es⟩ := r
  · exact h
  · exact h.trans (hf v d)

namespace Grammar

open Cursor

/-- Whether an operand other than a signed one begins with `x`. -/
def isOperandStart (x : Char) : Bool := x == '(' || isNumeric x || isLetter x

/-- What is to be run at a cursor. -/
inductive Task (α : Type) where
  | call (rule : Rule)
  /-- What a call of a rule does. -/
  | body (rule : Rule)
  /-- The operators of a rule with their right operands, after a left operand. -/
  | tail (rule : Rule) (v : α)
  /-- What a power sign can follow. -/
  | primary
  /-- The power sign with its exponent, after a primary. -/
  | power (v : α)

variable {α : Type} (A : Arithmetic α) (scope : Scope α)

/-! ### Leaves -/

variable {A scope} in
theorem literal_eq_done {c : Cursor} {n : Decimal} (h : Decimal.ofRun? (c.run isNumeric) = some n) :
    literal A c = .done (A.literal n) (c.skip isNumeric) := by
  rw [literal_eq, h]

variable {A scope} in
theorem literal_eq_fail {c : Cursor} (h : Decimal.ofRun? (c.run isNumeric) = none) :
    literal A c =
      .fail (.numberFormat (String.ofList (c.run isNumeric))) c.pos (c.skip isNumeric) := by
  rw [literal_eq, h]

variable {A} in
theorem literal_cursor (c : Cursor) : (literal A c).cursor = c.skip isNumeric := by
  rw [literal_eq]
  split <;> rfl

/-- What a name stands for: a variable, or zero for one that is missing from the table. -/
def symbolValue? (name : String) : Option α := scope.table?.map fun table =>
  (table.get? name).getD A.zero

variable {A scope} in
theorem symbol_cursor (name : String) (c : Cursor) :
    (symbol A scope name c).cursor = c.skip isLetter := by
  rw [symbol_eq]
  split <;> rfl

variable {A scope} in
theorem symbol_outcome (name : String) (c : Cursor) :
    (symbol A scope name c).outcome =
      match symbolValue? A scope name with
      | some v => .ok v
      | none => .error ⟨.unknownSymbol name, c.pos⟩ := by
  rw [symbol_eq]
  cases scope with
  | strict => rfl
  | tolerant table =>
    simp only [Scope.resolve, symbolValue?, Scope.table?, Option.map_some]
    cases table.get? name <;> rfl

variable {A scope} in
theorem symbol_eq_of_value {name : String} {c : Cursor} {v : α}
    (h : symbolValue? A scope name = some v) :
    symbol A scope name c = ⟨.ok v, c.skip isLetter, (symbol A scope name c).trace⟩ := by
  have ho : (symbol A scope name c).outcome = .ok v := by rw [symbol_outcome, h]
  have hd : (symbol A scope name c).cursor = c.skip isLetter := symbol_cursor name c
  rw [← ho, ← hd]

theorem close_eq_done {v : α} {c : Cursor} (h : c.ahead? = some ')') :
    close v c = .done v c.past := by
  rw [close_eq, take?_only, if_pos h]

theorem close_eq_mismatch {v : α} {c : Cursor} {x : Char} (h : c.ahead? = some x) (hx : x ≠ ')') :
    close v c =
      .fail (.unexpectedCharacter (some (String.singleton x))) c.skipBlanks.pos c.skipBlanks := by
  rw [close_eq, take?_only, if_neg (by rw [h]; simpa using hx)]
  simp only [show c.skipBlanks.peek? = some x from h]

theorem close_eq_end {v : α} {c : Cursor} (h : c.ahead? = none) :
    close v c = .fail .unexpectedEnd c.skipBlanks.pos c.skipBlanks := by
  rw [close_eq, take?_only, if_neg (by simp [h])]
  simp only [show c.skipBlanks.peek? = none from h]

theorem close_outcome_eq_ok_iff {v w : α} {c : Cursor} :
    (close v c).outcome = .ok w ↔ c.ahead? = some ')' ∧ w = v := by
  rcases h : c.ahead? with _ | x
  · simp [close_eq_end h, Run.fail]
  · by_cases hx : x = ')'
    · subst hx
      simp [close_eq_done h, Run.done, eq_comm]
    · simp [close_eq_mismatch h hx, Run.fail, hx]

/-! ### The relation -/

/-- `Runs A scope t c r`: the task `t` at the cursor `c` is the run `r`. -/
inductive Runs : Task α → Cursor → Run α → Prop where
  | call {rule c r} : Runs (.body rule) c r → Runs (.call rule) c (r.asCall rule c.pos)
  -- sums and products
  | operandFails {rule c f d es} : rule ≠ .factor →
      Runs (.call rule.operand) c ⟨.error f, d, es⟩ → Runs (.body rule) c ⟨.error f, d, es⟩
  | operand {rule c v d es r} : rule ≠ .factor → Runs (.call rule.operand) c ⟨.ok v, d, es⟩ →
      Runs (.tail rule v) d r → Runs (.body rule) c (r.after es)
  | stop {rule v c} : c.ahead?.bind rule.operator? = none →
      Runs (.tail rule v) c (.done v c.skipBlanks)
  | stepFails {rule v c x op f d es} : c.ahead? = some x → rule.operator? x = some op →
      Runs (.call rule.operand) c.past ⟨.error f, d, es⟩ → Runs (.tail rule v) c ⟨.error f, d, es⟩
  | step {rule v c x op w d es r} : c.ahead? = some x → rule.operator? x = some op →
      Runs (.call rule.operand) c.past ⟨.ok w, d, es⟩ → Runs (.tail rule (A.binary op v w)) d r →
      Runs (.tail rule v) c (r.after es)
  -- factors
  | plus {c r} : c.ahead? = some '+' → Runs (.call .factor) c.past r → Runs (.body .factor) c r
  | minus {c r} : c.ahead? = some '-' → Runs (.call .factor) c.past r →
      Runs (.body .factor) c (r.map A.negate)
  | apply {c f r} : c.function? = some f → Runs (.call .expression) c.pastWord r →
      Runs (.body .factor) c (r.map (A.call f))
  | primaryFails {c f d es} : c.StartsPrimary → Runs .primary c ⟨.error f, d, es⟩ →
      Runs (.body .factor) c ⟨.error f, d, es⟩
  | primary {c v d es r} : c.StartsPrimary → Runs .primary c ⟨.ok v, d, es⟩ →
      Runs (.power v) d r → Runs (.body .factor) c (r.after es)
  -- powers
  | noPower {v c} : c.ahead? ≠ some '^' → Runs (.power v) c (.done v c.skipBlanks)
  | raise {v c r} : c.ahead? = some '^' → Runs (.call .factor) c.past r →
      Runs (.power v) c (r.map (A.power v))
  -- primaries
  | ended {c} : c.ahead? = none →
      Runs .primary c (.fail .unexpectedEnd c.skipBlanks.pos c.skipBlanks)
  | groupFails {c f d es} : c.ahead? = some '(' →
      Runs (.call .expression) c.past ⟨.error f, d, es⟩ → Runs .primary c ⟨.error f, d, es⟩
  | group {c v d es} : c.ahead? = some '(' → Runs (.call .expression) c.past ⟨.ok v, d, es⟩ →
      Runs .primary c ((close v d).after es)
  | literal {c x} : c.ahead? = some x → isNumeric x → Runs .primary c (literal A c.skipBlanks)
  | name {c x} : c.ahead? = some x → isLetter x →
      Runs .primary c (symbol A scope (String.ofList c.word) c.skipBlanks)
  | empty {c x} : c.ahead? = some x → isOperandStart x = false →
      Runs .primary c (.done A.zero c.skipBlanks)

/-! ### The evaluator -/

/-- What a power sign can follow: a group, a literal, a name or nothing. -/
def primary (c : Cursor) : Run α :=
  match c.ahead? with
  | none => .fail .unexpectedEnd c.skipBlanks.pos c.skipBlanks
  | some x =>
    if x = '(' then (evaluate A scope .expression c.past).andThen close
    else if isNumeric x then literal A c.skipBlanks
    else if isLetter x then symbol A scope (String.ofList c.word) c.skipBlanks
    else .done A.zero c.skipBlanks

/-- What a call of a rule does. -/
def body (rule : Rule) (c : Cursor) : Run α :=
  match rule with
  | .factor => factor A scope c
  | .term | .expression => (evaluate A scope rule.operand c).andThen (tail A scope rule)

/-- The run of a task by the evaluator. -/
def Task.run : Task α → Cursor → Run α
  | .call rule => evaluate A scope rule
  | .body rule => Grammar.body A scope rule
  | .tail rule v => Grammar.tail A scope rule v
  | .primary => Grammar.primary A scope
  | .power v => Grammar.power A scope v

variable {A scope}

theorem evaluate_eq (rule : Rule) (c : Cursor) :
    evaluate A scope rule c = (body A scope rule c).asCall rule c.pos := by
  cases rule with
  | factor => exact evaluate_factor A scope c
  | term => exact evaluate_term A scope c
  | expression => exact evaluate_expression A scope c

theorem body_eq {rule : Rule} (h : rule ≠ .factor) (c : Cursor) :
    body A scope rule c = (evaluate A scope rule.operand c).andThen (tail A scope rule) := by
  cases rule with
  | factor => exact absurd rfl h
  | term => rfl
  | expression => rfl

/-- A factor is a sign with a factor, a function with an expression, or a primary with a power. -/
theorem factor_eq_primary (c : Cursor) :
    factor A scope c =
      if c.ahead? = some '+' then evaluate A scope .factor c.past
      else if c.ahead? = some '-' then (evaluate A scope .factor c.past).map A.negate
      else
        match c.function? with
        | some f => (evaluate A scope .expression c.pastWord).map (A.call f)
        | none => (primary A scope c).andThen (power A scope) := by
  rw [factor_eq]
  change (match c.ahead? with | none => _ | some x => _) = _
  unfold primary
  rcases h : c.ahead? with _ | x
  · rw [if_neg (by simp), if_neg (by simp), function?_eq_none (by simp [h])]
    rfl
  · simp only [Option.some.injEq]
    split_ifs with h1 h2 h3 h4 h5
    · rfl
    · rfl
    · rw [function?_eq_none (by simp [h, h3]; decide)]
      rfl
    · rw [function?_eq_none (by simpa [h] using not_isLetter_of_isNumeric h4)]
    · change (match c.function? with | some f => _ | none => _) = _
      rfl
    · rw [function?_eq_none (by simpa [h] using h5)]
      rfl

theorem reaches_primary (c : Cursor) : c.Reaches (primary A scope c).cursor := by
  unfold primary
  have hs := reaches_skipBlanks c
  rcases hx : c.ahead? with _ | x
  · exact hs
  · simp only
    split_ifs with h1 h2 h3
    · have hp : c.Reaches c.past := hs.trans (reaches_next (ne_nil_of_peek? hx))
      exact Run.reaches_andThen (hp.trans (reaches_evaluate A scope .expression c.past)) fun v e =>
        (closeFrom v e).2
    · exact hs.trans (literalFrom A _).2
    · exact hs.trans (symbolFrom A scope _ _).2
    · exact hs

theorem Runs.operand_andThen {rule : Rule} {c : Cursor} {r : Run α} (hrule : rule ≠ .factor)
    (h : Runs A scope (.call rule.operand) c r)
    (ht : ∀ v, Runs A scope (.tail rule v) r.cursor (tail A scope rule v r.cursor)) :
    Runs A scope (.body rule) c (r.andThen (tail A scope rule)) := by
  obtain ⟨⟨f⟩ | ⟨v⟩, d, es⟩ := r
  · exact .operandFails hrule h
  · exact .operand hrule h (ht v)

theorem Runs.step_andThen {rule : Rule} {v : α} {c : Cursor} {x : Char} {op : Operator} {r : Run α}
    (hx : c.ahead? = some x) (hop : rule.operator? x = some op)
    (h : Runs A scope (.call rule.operand) c.past r)
    (ht : ∀ w, Runs A scope (.tail rule w) r.cursor (tail A scope rule w r.cursor)) :
    Runs A scope (.tail rule v) c (r.andThen fun w d => tail A scope rule (A.binary op v w) d) := by
  obtain ⟨⟨f⟩ | ⟨w⟩, d, es⟩ := r
  · exact .stepFails hx hop h
  · exact .step hx hop h (ht _)

theorem Runs.primary_andThen {c : Cursor} {r : Run α} (hc : c.StartsPrimary)
    (h : Runs A scope .primary c r)
    (hp : ∀ v, Runs A scope (.power v) r.cursor (power A scope v r.cursor)) :
    Runs A scope (.body .factor) c (r.andThen (power A scope)) := by
  obtain ⟨⟨f⟩ | ⟨v⟩, d, es⟩ := r
  · exact .primaryFails hc h
  · exact .primary hc h (hp v)

theorem Runs.group_andThen {c : Cursor} {r : Run α} (hx : c.ahead? = some '(')
    (h : Runs A scope (.call .expression) c.past r) :
    Runs A scope .primary c (r.andThen close) := by
  obtain ⟨⟨f⟩ | ⟨v⟩, d, es⟩ := r
  · exact .groupFails hx h
  · exact .group hx h

/-- A task does those of lower rank before it has read anything. -/
def Task.rank : Task α → Nat
  | .tail _ _ | .power _ | .primary => 0
  | .body rule => 2 * rule.rank
  | .call rule => 2 * rule.rank + 1

/-- **The evaluator runs by the relation.** -/
theorem runs_run (t : Task α) (c : Cursor) : Runs A scope t c (t.run A scope c) := by
  match t with
  | .call rule =>
    show Runs A scope _ c (evaluate A scope rule c)
    rw [evaluate_eq]
    exact .call (runs_run (.body rule) c)
  | .body .factor =>
    show Runs A scope _ c (factor A scope c)
    rw [factor_eq_primary]
    split_ifs with h1 h2
    · have := past_length_lt h1
      exact .plus h1 (runs_run (.call .factor) c.past)
    · have := past_length_lt h2
      exact .minus h2 (runs_run (.call .factor) c.past)
    · cases hf : c.function? with
      | some f =>
        obtain ⟨x, hx, hl⟩ := exists_letter_of_function? hf
        have := pastWord_length_lt hx hl
        exact .apply hf (runs_run (.call .expression) c.pastWord)
      | none =>
        have hle : c.Reaches (primary A scope c).cursor := reaches_primary c
        have := hle.length_le
        exact .primary_andThen ⟨h1, h2, hf⟩ (runs_run .primary c) fun v =>
          runs_run (.power v) (primary A scope c).cursor
  | .body .term =>
    have := (reaches_evaluate A scope .factor c).length_le
    exact .operand_andThen nofun (runs_run (.call .factor) c) fun v =>
      runs_run (.tail .term v) (evaluate A scope .factor c).cursor
  | .body .expression =>
    have := (reaches_evaluate A scope .term c).length_le
    exact .operand_andThen nofun (runs_run (.call .term) c) fun v =>
      runs_run (.tail .expression v) (evaluate A scope .term c).cursor
  | .tail rule v =>
    show Runs A scope _ c (tail A scope rule v c)
    rw [tail_eq, take?_eq]
    rcases hx : c.ahead? with _ | x
    · exact .stop (by simp [hx])
    · rcases hop : rule.operator? x with _ | op
      · simpa [hop] using Runs.stop (by simp [hx, hop])
      · have := past_length_lt hx
        have := (reaches_evaluate A scope rule.operand c.past).length_le
        have := rule.operand.rank_le
        simp only [hop, Option.bind_some, Option.map_some]
        exact .step_andThen hx hop (runs_run (.call rule.operand) c.past) fun w =>
          runs_run (.tail rule w) (evaluate A scope rule.operand c.past).cursor
  | .primary =>
    show Runs A scope _ c (primary A scope c)
    unfold primary
    rcases hx : c.ahead? with _ | x
    · exact .ended hx
    · simp only
      split_ifs with h1 h2 h3
      · subst h1
        have := past_length_lt hx
        exact .group_andThen hx (runs_run (.call .expression) c.past)
      · exact .literal hx h2
      · exact .name hx h3
      · exact .empty hx (by simp [isOperandStart, h1, h2, h3])
  | .power v =>
    show Runs A scope _ c (power A scope v c)
    rw [power_eq, take?_only]
    split_ifs with hx
    · have := past_length_lt hx
      exact .raise hx (runs_run (.call .factor) c.past)
    · exact .noPower hx
termination_by 10 * c.rest.length + t.rank
decreasing_by
  all_goals
    have hfactor : Rule.factor.rank = 2 := rfl
    have hterm : Rule.term.rank = 3 := rfl
    have hexpression : Rule.expression.rank = 4 := rfl
    simp only [Task.rank]
    omega

theorem tail_eq_of_operator {rule : Rule} {v : α} {c : Cursor} {x : Char} {op : Operator}
    (hx : c.ahead? = some x) (hop : rule.operator? x = some op) :
    tail A scope rule v c = (evaluate A scope rule.operand c.past).andThen fun w d =>
      tail A scope rule (A.binary op v w) d := by
  rw [tail_eq, take?_eq, hx, Option.bind_some, hop]
  rfl

theorem factor_eq_of_startsPrimary {c : Cursor} (h : c.StartsPrimary) :
    factor A scope c = (primary A scope c).andThen (power A scope) := by
  rw [factor_eq_primary, if_neg h.plus, if_neg h.minus, h.function]

theorem primary_eq_group {c : Cursor} (h : c.ahead? = some '(') :
    primary A scope c = (evaluate A scope .expression c.past).andThen close := by
  simp only [primary, h, if_true]

theorem isNumeric_eq_false_of_isLetter {x : Char} (h : isLetter x) : isNumeric x = false := by
  by_contra hn
  rw [not_isLetter_of_isNumeric (by simpa using hn)] at h
  cases h

theorem eq_run_of_runs {t : Task α} {c : Cursor} {r : Run α} (h : Runs A scope t c r) :
    r = t.run A scope c := by
  induction h with
  | @call rule c r _ ih =>
    show _ = evaluate A scope rule c
    rw [evaluate_eq, ih]
    rfl
  | @operandFails rule c f d es hrule _ ih =>
    show _ = body A scope rule c
    rw [body_eq hrule, ← show _ = evaluate A scope rule.operand c from ih]
    rfl
  | @operand rule c v d es r hrule _ _ ih iht =>
    show _ = body A scope rule c
    rw [body_eq hrule, ← show _ = evaluate A scope rule.operand c from ih, iht]
    rfl
  | @stop rule v c h =>
    show _ = tail A scope rule v c
    rw [tail_eq, take?_eq, h]
    rfl
  | @stepFails rule v c x op f d es hx hop _ ih =>
    show _ = tail A scope rule v c
    rw [tail_eq_of_operator hx hop, ← show _ = evaluate A scope rule.operand c.past from ih]
    rfl
  | @step rule v c x op w d es r hx hop _ _ ih iht =>
    show _ = tail A scope rule v c
    rw [tail_eq_of_operator hx hop, ← show _ = evaluate A scope rule.operand c.past from ih, iht]
    rfl
  | @plus c r h _ ih =>
    show _ = factor A scope c
    rw [factor_eq_primary, if_pos h, ih]
    rfl
  | @minus c r h _ ih =>
    show _ = factor A scope c
    rw [factor_eq_primary, if_neg (by simp [h]), if_pos h, ih]
    rfl
  | @apply c f r h _ ih =>
    show _ = factor A scope c
    rw [factor_eq_primary, if_neg (ahead?_ne_of_function? h (by decide)),
      if_neg (ahead?_ne_of_function? h (by decide)), h, ih]
    rfl
  | @primaryFails c f d es hc _ ih =>
    show _ = factor A scope c
    rw [factor_eq_of_startsPrimary hc, ← show _ = primary A scope c from ih]
    rfl
  | @primary c v d es r hc _ _ ih ihp =>
    show _ = factor A scope c
    rw [factor_eq_of_startsPrimary hc, ← show _ = primary A scope c from ih, ihp]
    rfl
  | @noPower v c h =>
    show _ = power A scope v c
    rw [power_eq, take?_only, if_neg h]
  | @raise v c r h _ ih =>
    show _ = power A scope v c
    rw [power_eq, take?_only, if_pos h, ih]
    rfl
  | @ended c h =>
    show _ = primary A scope c
    simp only [primary, h]
  | @groupFails c f d es h _ ih =>
    show _ = primary A scope c
    rw [primary_eq_group h, ← show _ = evaluate A scope .expression c.past from ih]
    rfl
  | @group c v d es h _ ih =>
    show _ = primary A scope c
    rw [primary_eq_group h, ← show _ = evaluate A scope .expression c.past from ih]
    rfl
  | @literal c x hx hn =>
    show _ = primary A scope c
    have hp : x ≠ '(' := by rintro rfl; cases hn
    simp only [primary, hx, hn, if_neg hp, if_true]
  | @name c x hx hl =>
    show _ = primary A scope c
    have hp : x ≠ '(' := by rintro rfl; cases hl
    simp only [primary, hx, hl, if_neg hp, isNumeric_eq_false_of_isLetter hl, if_true,
      Bool.false_eq_true, if_false]
  | @empty c x hx ho =>
    show _ = primary A scope c
    simp only [isOperandStart, Bool.or_eq_false_iff, beq_eq_false_iff_ne] at ho
    simp only [primary, hx, if_neg ho.1.1, ho.1.2, ho.2, Bool.false_eq_true, if_false]

/-- **The relation is the graph of the evaluator.** -/
theorem runs_iff {t : Task α} {c : Cursor} {r : Run α} :
    Runs A scope t c r ↔ r = t.run A scope c :=
  ⟨eq_run_of_runs, fun h => h ▸ runs_run t c⟩

theorem Runs.reaches_of_call {rule : Rule} {c : Cursor} {r : Run α}
    (h : Runs A scope (.call rule) c r) : c.Reaches r.cursor :=
  eq_run_of_runs h ▸ reaches_evaluate A scope rule c

/-! ### Whole texts -/

/-- Nothing is noted after the expression. -/
theorem solve_trace (text : String) :
    (solve A scope text).trace = (Task.run A scope (.call .expression) (start text)).trace := by
  show ((evaluate A scope .expression (start text)).andThen finish).trace =
    (evaluate A scope .expression (start text)).trace
  obtain ⟨⟨f⟩ | ⟨v⟩, d, es⟩ := evaluate A scope .expression (start text)
  · rfl
  · rw [Run.andThen_ok, finish]
    split <;> exact List.append_nil es

/-- A text has a value if it is read as an expression to its end. -/
theorem solve_outcome_eq_ok_iff {text : String} {v : α} :
    (solve A scope text).outcome = .ok v ↔
      ∃ d es, Runs A scope (.call .expression) (.start text) ⟨.ok v, d, es⟩ ∧ d.rest = [] := by
  unfold solve
  simp only [runs_iff, Task.run]
  obtain ⟨⟨f⟩ | ⟨w⟩, e, fs⟩ := evaluate A scope .expression (.start text)
  · simp [Run.andThen]
  · rw [Run.andThen_ok, Run.after_outcome, finish]
    constructor
    · intro h
      split_ifs at h with he
      · cases h
        exact ⟨e, fs, rfl, by simpa [atEnd] using he⟩
      · cases h
    · rintro ⟨d, es, h, hd⟩
      cases h
      rw [if_pos (by simp [atEnd, hd])]
      rfl

/-- A text fails with its expression, or where it goes on after it. -/
theorem solve_outcome_eq_error_iff {text : String} {f : Fault} :
    (solve A scope text).outcome = .error f ↔
      (∃ d es, Runs A scope (.call .expression) (.start text) ⟨.error f, d, es⟩) ∨
      ∃ v d es, Runs A scope (.call .expression) (.start text) ⟨.ok v, d, es⟩ ∧ d.rest ≠ [] ∧
        f = ⟨.trailingInput, d.pos⟩ := by
  unfold solve
  simp only [runs_iff, Task.run]
  obtain ⟨⟨g⟩ | ⟨w⟩, e, fs⟩ := evaluate A scope .expression (.start text)
  · simp [Run.andThen, eq_comm]
  · rw [Run.andThen_ok, Run.after_outcome, finish]
    constructor
    · intro h
      split_ifs at h with he
      · cases h
      · cases h
        exact .inr ⟨w, e, fs, rfl, by simpa [atEnd] using he, rfl⟩
    · rintro (⟨d, es, h⟩ | ⟨v, d, es, h, hd, rfl⟩)
      · cases h
      · cases h
        rw [if_neg (by simp [atEnd, hd])]
        rfl

end Grammar

end Reckoner
