import Reckoner.Arithmetic.Double
import Reckoner.Proofs.Locality

/-!
# Rules read as far as they can

A rule that returns is at the end of the text, or at a character that is no blank and that none of
its loops goes on for (`Runs.stopsAt`). A signed operand and a function return without looking for a
power sign themselves, and would not find one, as what they have called has looked.

So they might as well look. To say this the rules are written down as equations (`Obeys`), once as
they are and once with a look for a power sign after every alternative of a factor. Both times an
evaluator that obeys the equations gives each task the run that the relation gives it
(`Obeys.eq_of_runs`), so it is the one that there is (`obeys_iff`).
-/

namespace Reckoner

open Cursor

namespace Grammar

variable {α : Type} (A : Arithmetic α) (scope : Scope α)

/-! ### The rules as equations -/

/-- The run `r` of an alternative of a factor, and what `E` makes of a power sign after it if the
alternative `looks` for one. -/
def lookAfter (looks : Bool) (E : Task α → Cursor → Run α) (r : Run α) : Run α :=
  if looks then r.andThen fun v => E (.power v) else r

/-- `E` runs every task by the rules of the grammar. If `looks`, it looks for a power sign after
every alternative of a factor, and else only after a primary. -/
structure Obeys (looks : Bool) (E : Task α → Cursor → Run α) : Prop where
  call : ∀ rule c, E (.call rule) c = (E (.body rule) c).asCall rule c.pos
  operand : ∀ rule c, rule ≠ .factor →
    E (.body rule) c = (E (.call rule.operand) c).andThen fun v => E (.tail rule v)
  tail : ∀ rule v c, E (.tail rule v) c =
    match c.ahead?.bind rule.operator? with
    | some op => (E (.call rule.operand) c.past).andThen fun w => E (.tail rule (A.binary op v w))
    | none => .done v c.skipBlanks
  factor : ∀ c, E (.body .factor) c =
    if c.ahead? = some '+' then lookAfter looks E (E (.call .factor) c.past)
    else if c.ahead? = some '-' then lookAfter looks E ((E (.call .factor) c.past).map A.negate)
    else
      match c.function? with
      | some f => lookAfter looks E ((E (.call .expression) c.pastWord).map (A.call f))
      | none => (E .primary c).andThen fun v => E (.power v)
  primary : ∀ c, E .primary c =
    match c.ahead? with
    | none => .fail .unexpectedEnd c.skipBlanks.pos c.skipBlanks
    | some x =>
      if x = '(' then (E (.call .expression) c.past).andThen close
      else if isNumeric x then literal A c.skipBlanks
      else if isLetter x then symbol A scope (String.ofList c.word) c.skipBlanks
      else .done A.zero c.skipBlanks
  power : ∀ v c, E (.power v) c =
    if c.ahead? = some '^' then (E (.call .factor) c.past).map (A.power v)
    else .done v c.skipBlanks

variable {A scope} {looks : Bool} {E : Task α → Cursor → Run α}

/-! ### Looking in vain -/

theorem stopOf_factor {rule : Rule} {d : Cursor} (h : d.StopOf rule) : d.StopOf .factor := by
  refine ⟨h.skipBlanks, fun x hx => ?_⟩
  have := h.takes x hx
  cases rule <;> simp_all [Rule.takes]

section

variable (hpower : ∀ v (c : Cursor), c.ahead? ≠ some '^' → E (.power v) c = .done v c.skipBlanks)
include hpower

/-- Where a factor has stopped, no power sign is found. -/
theorem lookAfter_of_stops {r : Run α} (hr : ∀ v, r.outcome = .ok v → r.cursor.StopOf .factor) :
    lookAfter looks E r = r := by
  unfold lookAfter
  split_ifs
  · obtain ⟨⟨f⟩ | ⟨v⟩, d, es⟩ := r
    · rfl
    · have hd : d.StopOf .factor := hr v rfl
      have hx : d.ahead? ≠ some '^' := fun hx => absurd (hd.takes _ hx) (by decide)
      rw [Run.andThen_ok, hpower v d hx, hd.skipBlanks]
      simp [Run.after, Run.done]
  · rfl

theorem lookAfter_call {rule : Rule} {c : Cursor} {r : Run α}
    (h : Runs A scope (.call rule) c r) : lookAfter looks E r = r :=
  lookAfter_of_stops hpower fun _ hv => stopOf_factor (h.stopsAt hv)

theorem lookAfter_map_call {rule : Rule} {c : Cursor} {r : Run α} (f : α → α)
    (h : Runs A scope (.call rule) c r) : lookAfter looks E (r.map f) = r.map f := by
  refine lookAfter_of_stops hpower fun v hv => ?_
  obtain ⟨w, hw, -⟩ := Run.map_outcome_eq_ok_iff.mp hv
  exact stopOf_factor (h.stopsAt hw)

end

/-! ### The evaluator is the only one -/

theorem run_power (v : α) (c : Cursor) :
    Task.run A scope (.power v) c =
      if c.ahead? = some '^' then (Task.run A scope (.call .factor) c.past).map (A.power v)
      else .done v c.skipBlanks := by
  show power A scope v c = _
  rw [power_eq, take?_only]
  split_ifs <;> rfl

/-- The evaluator obeys the rules, whether it looks or not. -/
theorem obeys_run (looks : Bool) : Obeys A scope looks (Task.run A scope) where
  call rule c := evaluate_eq rule c
  operand rule c h := body_eq h c
  tail rule v c := by
    show tail A scope rule v c = _
    rw [tail_eq, take?_eq]
    cases c.ahead?.bind rule.operator? <;> rfl
  factor c := by
    have hpower (v : α) (c : Cursor) (h : c.ahead? ≠ some '^') :
        Task.run A scope (.power v) c = .done v c.skipBlanks := by rw [run_power, if_neg h]
    show factor A scope c = _
    rw [factor_eq_primary]
    split_ifs
    · exact (lookAfter_call hpower (runs_run (.call .factor) c.past)).symm
    · exact (lookAfter_map_call hpower A.negate (runs_run (.call .factor) c.past)).symm
    · cases c.function? with
      | some f => exact (lookAfter_map_call hpower (A.call f) (runs_run (.call _) c.pastWord)).symm
      | none => rfl
  primary _ := rfl
  power := run_power

/-- A primary that is no group calls nothing. -/
theorem Obeys.primary_leaf (h : Obeys A scope looks E) {c : Cursor} {r : Run α}
    (hr : Runs A scope .primary c r) (hx : c.ahead? ≠ some '(') : E .primary c = r := by
  rw [h.primary, eq_run_of_runs hr]
  show _ = Grammar.primary A scope c
  unfold Grammar.primary
  rcases hy : c.ahead? with _ | y
  · rfl
  · have hy' : y ≠ '(' := by
      rintro rfl
      exact hx hy
    simp only [if_neg hy']

/-- An evaluator that obeys the rules runs every task as it is run. -/
theorem Obeys.eq_of_runs (h : Obeys A scope looks E) {t : Task α} {c : Cursor} {r : Run α}
    (hr : Runs A scope t c r) : E t c = r := by
  have hpower (v : α) (c : Cursor) (hx : c.ahead? ≠ some '^') :
      E (.power v) c = .done v c.skipBlanks := by rw [h.power, if_neg hx]
  induction hr with
  | call _ ih => rw [h.call, ih]
  | operandFails hrule _ ih =>
    rw [h.operand _ _ hrule, ih]
    rfl
  | operand hrule _ _ ih iht => rw [h.operand _ _ hrule, ih, Run.andThen_ok, iht]
  | stop hx => rw [h.tail, hx]
  | stepFails hx hop _ ih =>
    rw [h.tail, hx, Option.bind_some, hop]
    simp only
    rw [ih]
    rfl
  | step hx hop _ _ ih iht =>
    rw [h.tail, hx, Option.bind_some, hop]
    simp only
    rw [ih, Run.andThen_ok, iht]
  | plus hx hr ih =>
    rw [h.factor, if_pos hx, ih]
    exact lookAfter_call hpower hr
  | minus hx hr ih =>
    rw [h.factor, if_neg (by simp [hx]), if_pos hx, ih]
    exact lookAfter_map_call hpower A.negate hr
  | @apply c f r hf hr ih =>
    rw [h.factor, if_neg (ahead?_ne_of_function? hf (by decide)),
      if_neg (ahead?_ne_of_function? hf (by decide)), hf]
    simp only
    rw [ih]
    exact lookAfter_map_call hpower (A.call f) hr
  | primaryFails hc _ ih =>
    rw [h.factor, if_neg hc.plus, if_neg hc.minus, hc.function]
    simp only
    rw [ih]
    rfl
  | primary hc _ _ ih ihp =>
    rw [h.factor, if_neg hc.plus, if_neg hc.minus, hc.function]
    simp only
    rw [ih, Run.andThen_ok, ihp]
  | noPower hx => exact hpower _ _ hx
  | raise hx _ ih => rw [h.power, if_pos hx, ih]
  | groupFails hx _ ih =>
    rw [h.primary, hx]
    simp only [if_true]
    rw [ih]
    rfl
  | group hx _ ih =>
    rw [h.primary, hx]
    simp only [if_true]
    rw [ih, Run.andThen_ok]
  | ended hx => exact h.primary_leaf (.ended hx) (by simp [hx])
  | literal hx hn => exact h.primary_leaf (.literal hx hn) (by rw [hx]; rintro ⟨⟩; cases hn)
  | name hx hl => exact h.primary_leaf (.name hx hl) (by rw [hx]; rintro ⟨⟩; cases hl)
  | empty hx ho => exact h.primary_leaf (.empty hx ho) (by rw [hx]; rintro ⟨⟩; cases ho)

/-- **There is one evaluator that obeys the rules**, whether it looks for a power sign after every
alternative of a factor or not. -/
theorem obeys_iff : Obeys A scope looks E ↔ E = Task.run A scope := by
  constructor
  · exact fun h => funext fun t => funext fun c => h.eq_of_runs (runs_run t c)
  · rintro rfl
    exact obeys_run looks

/-! ### Where rules stop -/

/-- Where a rule has stopped in a text, the text ends or has a character that is no blank and that
the rule does not go on for. -/
theorem stopOf_within {rule : Rule} {text : String} {d : Cursor} (h : d.StopOf rule)
    (hd : (start text).Reaches d) :
    d.pos = text.length ∨ ∃ x, text.toList[d.pos]? = some x ∧
      isBlank x = false ∧ rule.takes x = false := by
  rcases hx : d.ahead? with _ | x
  · left
    have hend : d.rest = [] := by
      rw [← h.skipBlanks]
      exact skipBlanks_rest_eq_nil_iff.mpr hx
    have htotal := hd.total
    rw [hend] at htotal
    rw [← String.length_toList]
    simpa [start] using htotal
  · right
    have hpeek : d.peek? = some x := by
      rw [← h.skipBlanks]
      exact hx
    have hrest : d.rest = text.toList.drop d.pos := congrArg Cursor.rest hd.eq_within
    refine ⟨x, ?_, skipBlanks_rest_head hx, h.takes x hx⟩
    rw [← List.head?_drop, ← hrest]
    exact hpeek

variable (A scope)

/-- **Rules read as far as they can.** A rule that returns is at the end of the text, or at a
character that is no blank and that it does not go on for. So nothing is changed by looking for a
power sign after every alternative of a factor. -/
theorem evaluate_longest :
    (∀ (rule : Rule) (text : String) (p : Nat), p ≤ text.length → ∀ v,
      let run := evaluate A scope rule (within text p)
      run.outcome = .ok v →
        run.cursor = within text run.cursor.pos ∧
          (run.cursor.pos = text.length ∨ ∃ x, text.toList[run.cursor.pos]? = some x ∧
            isBlank x = false ∧ rule.takes x = false)) ∧
    ∀ looks E, Obeys A scope looks E ↔ E = Task.run A scope := by
  refine ⟨fun rule text p hp v => ?_, fun looks E => obeys_iff⟩
  intro run hv
  have hreach : (start text).Reaches run.cursor :=
    (reaches_within hp).trans (reaches_evaluate A scope rule (within text p))
  have hstop : run.cursor.StopOf rule := (runs_run (.call rule) (within text p)).stopsAt hv
  exact ⟨hreach.eq_within, stopOf_within hstop hreach⟩

/-- In `4+--2 *3` the factor behind the first sign ends at the operator of the term, and a look for
a power sign after its signed operands finds none. -/
theorem evaluate_longest_signed :
    let factor := evaluate double .strict .factor (within "4+--2 *3" 2)
    factor.outcome = .ok 2.0 ∧ factor.cursor = within "4+--2 *3" 6 ∧
      Rule.takes .factor '*' = false ∧ Rule.takes .term '*' = true ∧
      ∃ E, Obeys double .strict true E ∧ E (.call .factor) (within "4+--2 *3" 2) = factor := by
  intro factor
  have hv : factor.outcome = .ok 2.0 := by decide +kernel
  have hpos : factor.cursor.pos = 6 := by decide +kernel
  obtain ⟨hstops, hlooks⟩ := evaluate_longest double .strict
  have hcursor := (hstops .factor "4+--2 *3" 2 (by decide) _ hv).1
  change factor.cursor = within "4+--2 *3" factor.cursor.pos at hcursor
  rw [hpos] at hcursor
  exact ⟨hv, hcursor, rfl, rfl, _, (hlooks true _).mpr rfl, rfl⟩

end Grammar

end Reckoner
