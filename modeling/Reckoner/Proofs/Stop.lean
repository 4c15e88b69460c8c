import Reckoner.Proofs.Runs

/-!
# Where a rule stops

A rule that returns stops at the end of the text or at a character that is no blank and that none of
its loops goes on for: a factor does not stop at `^`, a term not at `^ * /`, an expression not at
`^ * / + -`. Signs and functions return without looking for a power, a product or a sum themselves;
what they call has looked already. The statement for a loop supposes it of the place where the loop
begins (`Task.StopsAt`), so that the induction passes from an operand to the operators after it.
-/

namespace Reckoner

namespace Rule

/-- The operators that a rule goes on for, those of its operands included. -/
def takes : Rule → Char → Bool
  | .factor, x => x == '^'
  | .term, x => x == '^' || x == '*' || x == '/'
  | .expression, x => x == '^' || x == '*' || x == '/' || x == '+' || x == '-'

theorem takes_eq_false {rule : Rule} (h : rule ≠ .factor) {x : Char}
    (ho : rule.operand.takes x = false) (hn : rule.operator? x = none) : rule.takes x = false := by
  cases rule with
  | factor => exact absurd rfl h
  | term =>
    simp only [operator?] at hn
    split at hn <;> simp_all [takes, operand]
  | expression =>
    simp only [operator?] at hn
    split at hn <;> simp_all [takes, operand]

end Rule

namespace Cursor

theorem peek?_skip {p : Char → Bool} {c : Cursor} {x : Char} (h : (c.skip p).peek? = some x) :
    p x = false := by
  have hd := List.head?_dropWhile_not p c.rest
  have hx : (c.rest.dropWhile p).head? = some x := h
  simpa [hx] using hd

theorem skipBlanks_rest_head {c : Cursor} {x : Char} (h : c.ahead? = some x) : isBlank x = false :=
  peek?_skip h

theorem skip_of_peek? {p : Char → Bool} {c : Cursor} (h : ∀ x ∈ c.peek?, p x = false) :
    c.skip p = c := by
  obtain ⟨n, rest⟩ := c
  cases rest with
  | nil => rfl
  | cons x r =>
    have hx : p x = false := h x rfl
    simp [skip, run, hx]

@[simp] theorem skipBlanks_skipBlanks (c : Cursor) : c.skipBlanks.skipBlanks = c.skipBlanks :=
  skip_of_peek? fun _ hx => skipBlanks_rest_head hx

@[simp] theorem ahead?_skipBlanks (c : Cursor) : c.skipBlanks.ahead? = c.ahead? := by
  rw [ahead?, skipBlanks_skipBlanks, ahead?]

/-- A place where `rule` has stopped. -/
structure StopOf (rule : Rule) (d : Cursor) : Prop where
  skipBlanks : d.skipBlanks = d
  takes : ∀ x ∈ d.ahead?, rule.takes x = false

end Cursor

namespace Grammar

open Cursor

variable {α : Type} {A : Arithmetic α} {scope : Scope α}

/-- Where a task that was begun at `c` stops when it returns. -/
def Task.StopsAt : Task α → Cursor → Cursor → Prop
  | .call rule, _, d | .body rule, _, d => d.StopOf rule
  | .tail rule _, c, d =>
    rule ≠ .factor → (∀ x ∈ c.ahead?, rule.operand.takes x = false) → d.StopOf rule
  | .primary, _, _ => True
  | .power _, _, d => d.StopOf .factor

theorem StopOf.of_expression {d : Cursor} (h : d.StopOf .expression) : d.StopOf .factor :=
  ⟨h.skipBlanks, fun x hx => by
    have := h.takes x hx
    simp only [Rule.takes, Bool.or_eq_false_iff] at this ⊢
    exact this.1.1.1.1⟩

/-- **A rule that returns has stopped.** -/
theorem Runs.stopsAt {t : Task α} {c : Cursor} {r : Run α} {v : α} (h : Runs A scope t c r)
    (hv : r.outcome = .ok v) : t.StopsAt c r.cursor := by
  induction h generalizing v with
  | call _ ih => exact ih hv
  | operandFails => cases hv
  | operand hrule _ _ ih iht => exact iht hv hrule (ih rfl).takes
  | @stop rule u c h =>
    refine fun hrule hc => ⟨skipBlanks_skipBlanks c, fun x hx => ?_⟩
    rw [Run.done, ahead?_skipBlanks] at hx
    exact Rule.takes_eq_false hrule (hc x hx) (by simpa [Option.mem_def.mp hx] using h)
  | stepFails => cases hv
  | step _ _ _ _ ih iht => exact fun hrule _ => iht hv hrule (ih rfl).takes
  | plus _ _ ih => exact ih hv
  | minus _ _ ih =>
    obtain ⟨u, hu, -⟩ := Run.map_outcome_eq_ok_iff.mp hv
    exact ih hu
  | apply _ _ ih =>
    obtain ⟨u, hu, -⟩ := Run.map_outcome_eq_ok_iff.mp hv
    exact StopOf.of_expression (ih hu)
  | primaryFails => cases hv
  | primary _ _ _ _ ihp => exact ihp hv
  | @noPower u c h =>
    refine ⟨skipBlanks_skipBlanks c, fun x hx => ?_⟩
    rw [Run.done, ahead?_skipBlanks] at hx
    simp only [Rule.takes, beq_eq_false_iff_ne]
    rintro rfl
    exact h hx
  | raise _ _ ih =>
    obtain ⟨u, hu, -⟩ := Run.map_outcome_eq_ok_iff.mp hv
    exact ih hu
  | ended | groupFails | group | literal | name | empty => trivial

end Grammar

end Reckoner
