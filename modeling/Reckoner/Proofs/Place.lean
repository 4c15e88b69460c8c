import Mathlib.Data.List.TakeWhile
import Reckoner.Proofs.Token
import Reckoner.Solver

/-!
# The places of faults

A run never stops inside a number or a name. What it has passed is a *cut* of the text (`Cuts`): the
characters on the two sides of it do not belong to one run of digits and points or of letters. This
holds where a rule returns, and of the place that a fault is reported at (`Runs.liesAt`). What stands
there is the fault itself, by its cause (`Fault.LiesAt`): nothing, a character that no rule goes on
for, a run of digits and points that is no literal, or a run of letters that is no function.
-/

namespace Reckoner

/-! ### Cuts -/

/-- Two characters that belong to one run if they stand side by side. -/
def Joins (x y : Char) : Prop :=
  (isNumeric x = true ∧ isNumeric y = true) ∨ (isLetter x = true ∧ isLetter y = true)

namespace Cursor

/-- `c.Cuts d`: the place `d` lies `u` after `c`, and not inside a run. -/
def Cuts (c d : Cursor) : Prop :=
  ∃ u, c.rest = u ++ d.rest ∧ d.pos = c.pos + u.length ∧
    ∀ x ∈ u.getLast?, ∀ y ∈ d.rest.head?, ¬ Joins x y

namespace Cuts

theorem refl (c : Cursor) : c.Cuts c := ⟨[], rfl, rfl, by simp⟩

theorem trans {c d e : Cursor} (h : c.Cuts d) (k : d.Cuts e) : c.Cuts e := by
  obtain ⟨u, hu, hpos, hj⟩ := h
  obtain ⟨w, hw, hpos', hj'⟩ := k
  refine ⟨u ++ w, by rw [hu, hw, List.append_assoc], by simp [hpos, hpos', Nat.add_assoc], ?_⟩
  cases w with
  | nil => simpa [← show d.rest = e.rest from hw] using hj
  | cons x r => simpa [List.getLast?_append] using hj'

theorem reaches {c d : Cursor} (h : c.Cuts d) : c.Reaches d := by
  obtain ⟨u, hu, hpos, -⟩ := h
  refine ⟨⟨u, hu.symm⟩, ?_⟩
  rw [hu, hpos, List.length_append, Nat.add_assoc]

end Cuts

/-- The end of a run of a class is a cut if the class only joins with itself. -/
theorem cuts_skip {p : Char → Bool} (hp : ∀ x y, p x → p y = false → ¬ Joins x y) (c : Cursor) :
    c.Cuts (c.skip p) := by
  refine ⟨c.run p, List.takeWhile_append_dropWhile.symm, rfl, fun x hx y hy => hp x y ?_ ?_⟩
  · exact List.mem_takeWhile_imp (List.mem_of_mem_getLast? hx)
  · exact peek?_skip hy

theorem cuts_skipBlanks (c : Cursor) : c.Cuts c.skipBlanks := by
  refine cuts_skip (fun x y hx _ => ?_) c
  simp [Joins, not_isNumeric_of_isBlank hx, not_isLetter_of_isBlank hx]

theorem cuts_skip_isNumeric (c : Cursor) : c.Cuts (c.skip isNumeric) := by
  refine cuts_skip (fun x y hx hy => ?_) c
  simp [Joins, hy, not_isLetter_of_isNumeric hx]

theorem cuts_skip_isLetter (c : Cursor) : c.Cuts (c.skip isLetter) := by
  refine cuts_skip (fun x y hx hy => ?_) c
  simp [Joins, hy, Grammar.isNumeric_eq_false_of_isLetter hx]

theorem cuts_past {c : Cursor} {x : Char} (h : c.ahead? = some x) (hx : isMark x) :
    c.Cuts c.past := by
  refine (cuts_skipBlanks c).trans ⟨[x], skipBlanks_rest h, rfl, fun y hy z _ => ?_⟩
  obtain rfl : x = y := by simpa using hy
  simp only [isMark, Bool.and_eq_true, Bool.not_eq_true'] at hx
  simp [Joins, hx.1.2, hx.2]

end Cursor

/-! ### Where a rule returns -/

namespace Grammar

open Cursor

variable {α : Type} {A : Arithmetic α} {scope : Scope α}

theorem Runs.cuts {t : Task α} {c : Cursor} {r : Run α} {v : α} (h : Runs A scope t c r)
    (hv : r.outcome = .ok v) : c.Cuts r.cursor := by
  induction h generalizing v with
  | call _ ih => exact ih hv
  | operandFails => cases hv
  | operand _ _ _ ih iht => exact (ih rfl).trans (iht hv)
  | stop => exact cuts_skipBlanks _
  | stepFails => cases hv
  | step hx hop _ _ ih iht =>
    exact (cuts_past hx (Rule.isMark_of_operator? hop)).trans ((ih rfl).trans (iht hv))
  | plus hx _ ih => exact (cuts_past hx (by decide)).trans (ih hv)
  | minus hx _ ih =>
    obtain ⟨u, hu, -⟩ := Run.map_outcome_eq_ok_iff.mp hv
    exact (cuts_past hx (by decide)).trans (ih hu)
  | apply _ _ ih =>
    obtain ⟨u, hu, -⟩ := Run.map_outcome_eq_ok_iff.mp hv
    exact (cuts_skipBlanks _).trans ((cuts_skip_isLetter _).trans (ih hu))
  | primaryFails => cases hv
  | primary _ _ _ ih ihp => exact (ih rfl).trans (ihp hv)
  | noPower => exact cuts_skipBlanks _
  | raise hx _ ih =>
    obtain ⟨u, hu, -⟩ := Run.map_outcome_eq_ok_iff.mp hv
    exact (cuts_past hx (by decide)).trans (ih hu)
  | ended => cases hv
  | groupFails => cases hv
  | @group c u d es hx _ ih =>
    obtain ⟨hd, -⟩ := close_outcome_eq_ok_iff.mp hv
    rw [Run.after_cursor, close_eq_done hd]
    exact (cuts_past hx (by decide)).trans ((ih rfl).trans (cuts_past hd (by decide)))
  | literal =>
    rw [literal_cursor]
    exact (cuts_skipBlanks _).trans (cuts_skip_isNumeric _)
  | name =>
    rw [symbol_cursor]
    exact (cuts_skipBlanks _).trans (cuts_skip_isLetter _)
  | empty => exact cuts_skipBlanks _

end Grammar

/-! ### What stands at a fault -/

/-- `f.LiesAt e d`: the fault `f` is what stands at `e`, and a run that finds it stops at `d`. -/
inductive Fault.LiesAt : Fault → Cursor → Cursor → Prop where
  | unexpectedEnd {e} : e.rest = [] → LiesAt ⟨.unexpectedEnd, e.pos⟩ e e
  | unexpectedCharacter {e x} : e.ahead? = some x → x ≠ ')' → e.StopOf .expression →
      LiesAt ⟨.unexpectedCharacter (some (String.singleton x)), e.pos⟩ e e
  | numberFormat {e} : e.run isNumeric ≠ [] → Decimal.ofRun? (e.run isNumeric) = none →
      LiesAt ⟨.numberFormat (String.ofList (e.run isNumeric)), e.pos⟩ e (e.skip isNumeric)
  | unknownSymbol {e} : e.run isLetter ≠ [] → Func.ofName? (String.ofList (e.run isLetter)) = none →
      LiesAt ⟨.unknownSymbol (String.ofList (e.run isLetter)), e.pos⟩ e (e.skip isLetter)
  | trailingInput {e x} : e.ahead? = some x → e.StopOf .expression →
      LiesAt ⟨.trailingInput, e.pos⟩ e e

namespace Grammar

open Cursor

variable {α : Type} {A : Arithmetic α} {scope : Scope α}

theorem close_liesAt {v : α} {c : Cursor} {f : Fault} (hc : c.StopOf .expression)
    (h : (close v c).outcome = .error f) : f.LiesAt c (close v c).cursor := by
  rcases hx : c.ahead? with _ | x
  · rw [close_eq_end hx, hc.skipBlanks] at h ⊢
    cases h
    exact .unexpectedEnd (hc.skipBlanks ▸ skipBlanks_rest_eq_nil_iff.mpr hx)
  · by_cases hp : x = ')'
    · subst hp
      rw [close_eq_done hx] at h
      cases h
    · rw [close_eq_mismatch hx hp, hc.skipBlanks] at h ⊢
      cases h
      exact .unexpectedCharacter hx hp hc

theorem literal_liesAt {c : Cursor} {f : Fault} {x : Char} (hx : c.peek? = some x)
    (hn : isNumeric x) (h : (literal A c).outcome = .error f) : f.LiesAt c (literal A c).cursor := by
  rcases hl : Decimal.ofRun? (c.run isNumeric) with _ | n
  · rw [literal_eq_fail hl] at h ⊢
    cases h
    exact .numberFormat (run_ne_nil hx hn) hl
  · rw [literal_eq_done hl] at h
    cases h

theorem symbol_liesAt {c : Cursor} {f : Fault} {x : Char} (hx : c.peek? = some x)
    (hl : isLetter x) (hf : Func.ofName? (String.ofList (c.run isLetter)) = none)
    (h : (symbol A scope (String.ofList (c.run isLetter)) c).outcome = .error f) :
    f.LiesAt c (symbol A scope (String.ofList (c.run isLetter)) c).cursor := by
  rw [symbol_outcome] at h
  rw [symbol_cursor]
  split at h <;> cases h
  exact .unknownSymbol (run_ne_nil hx hl) hf

/-- **A run that fails has found its fault** at a cut of what it was to read. -/
theorem Runs.liesAt {t : Task α} {c : Cursor} {r : Run α} {f : Fault} (h : Runs A scope t c r)
    (hf : r.outcome = .error f) (ht : t = .primary → c.StartsPrimary) :
    ∃ e, c.Cuts e ∧ f.LiesAt e r.cursor := by
  induction h generalizing f with
  | call _ ih => exact ih hf nofun
  | operandFails _ _ ih => exact ih hf nofun
  | operand _ h _ ih iht =>
    obtain ⟨e, he, hl⟩ := iht hf nofun
    exact ⟨e, (h.cuts rfl).trans he, hl⟩
  | stop => cases hf
  | stepFails hx hop _ ih =>
    obtain ⟨e, he, hl⟩ := ih hf nofun
    exact ⟨e, (cuts_past hx (Rule.isMark_of_operator? hop)).trans he, hl⟩
  | step hx hop h _ ih iht =>
    obtain ⟨e, he, hl⟩ := iht hf nofun
    exact ⟨e, (cuts_past hx (Rule.isMark_of_operator? hop)).trans ((h.cuts rfl).trans he), hl⟩
  | plus hx _ ih =>
    obtain ⟨e, he, hl⟩ := ih hf nofun
    exact ⟨e, (cuts_past hx (by decide)).trans he, hl⟩
  | minus hx _ ih =>
    obtain ⟨e, he, hl⟩ := ih (Run.map_outcome_eq_error_iff.mp hf) nofun
    exact ⟨e, (cuts_past hx (by decide)).trans he, hl⟩
  | apply _ _ ih =>
    obtain ⟨e, he, hl⟩ := ih (Run.map_outcome_eq_error_iff.mp hf) nofun
    exact ⟨e, (cuts_skipBlanks _).trans ((cuts_skip_isLetter _).trans he), hl⟩
  | primaryFails hc _ ih => exact ih hf fun _ => hc
  | primary _ h _ ih ihp =>
    obtain ⟨e, he, hl⟩ := ihp hf nofun
    exact ⟨e, (h.cuts rfl).trans he, hl⟩
  | noPower => cases hf
  | raise hx _ ih =>
    obtain ⟨e, he, hl⟩ := ih (Run.map_outcome_eq_error_iff.mp hf) nofun
    exact ⟨e, (cuts_past hx (by decide)).trans he, hl⟩
  | @ended c hx =>
    cases hf
    exact ⟨c.skipBlanks, cuts_skipBlanks c, .unexpectedEnd (skipBlanks_rest_eq_nil_iff.mpr hx)⟩
  | groupFails hx _ ih =>
    obtain ⟨e, he, hl⟩ := ih hf nofun
    exact ⟨e, (cuts_past hx (by decide)).trans he, hl⟩
  | @group c v d es hx h _ =>
    exact ⟨d, (cuts_past hx (by decide)).trans (h.cuts rfl), close_liesAt (h.stopsAt rfl) hf⟩
  | @literal c x hx hn => exact ⟨c.skipBlanks, cuts_skipBlanks c, literal_liesAt hx hn hf⟩
  | @name c x hx hl =>
    exact ⟨c.skipBlanks, cuts_skipBlanks c, symbol_liesAt hx hl (ht rfl).function hf⟩
  | empty => cases hf

end Grammar

/-! ### Whole texts -/

theorem Fault.within_inj {f g : Fault} {text : String} (h : f.within text = g.within text) :
    f = g := by
  obtain ⟨a, m⟩ := f
  obtain ⟨b, n⟩ := g
  simp only [Fault.within, Failure.mk.injEq, Option.some.injEq, Int.natCast_inj] at h
  rw [h.1, h.2.1]

namespace Solver

open Grammar Cursor

/-- The text has a value. -/
def Accepts (s : Solver) : Prop := ∃ v, s.solve.value = .ok v

/-- The fault `f` is reported in the text. -/
def Fails (s : Solver) (f : Fault) : Prop := s.solve.value = .error (f.within s.expression)

instance (s : Solver) (f : Fault) : Decidable (s.Fails f) := by unfold Fails; infer_instance

variable {s : Solver}

theorem accepts_iff :
    s.Accepts ↔ ∃ v d es, Runs double s.scope (.call .expression) (.start s.expression)
      ⟨.ok v, d, es⟩ ∧ d.rest = [] := by
  simp only [Accepts, solve_value_eq_ok_iff, solve_outcome_eq_ok_iff]

theorem fails_of_error {e : Failure} (h : s.solve.value = .error e) :
    ∃ f, e = f.within s.expression ∧ s.Fails f := by
  obtain ⟨f, -, rfl⟩ := solve_value_eq_error_iff.mp h
  exact ⟨f, rfl, h⟩

theorem fails_iff {f : Fault} :
    s.Fails f ↔
      (∃ d es, Runs double s.scope (.call .expression) (.start s.expression) ⟨.error f, d, es⟩) ∨
      ∃ v d es, Runs double s.scope (.call .expression) (.start s.expression) ⟨.ok v, d, es⟩ ∧
        d.rest ≠ [] ∧ f = ⟨.trailingInput, d.pos⟩ := by
  rw [Fails, solve_value_eq_error_iff, ← solve_outcome_eq_error_iff]
  constructor
  · rintro ⟨g, hg, h⟩
    rwa [Fault.within_inj h]
  · exact fun h => ⟨f, h, rfl⟩

theorem accepts_or_fails (s : Solver) : s.Accepts ∨ ∃ f, s.Fails f := by
  cases h : s.solve.value with
  | ok v => exact .inl ⟨v, h⟩
  | error e =>
    obtain ⟨f, -, hf⟩ := fails_of_error h
    exact .inr ⟨f, hf⟩

theorem Fails.unique {f g : Fault} (hf : s.Fails f) (hg : s.Fails g) : f = g :=
  Fault.within_inj (Except.error.inj (hf.symm.trans hg))

theorem Fails.not_accepts {f : Fault} (hf : s.Fails f) : ¬ s.Accepts := by
  rintro ⟨v, hv⟩
  cases hf.symm.trans hv

/-- **A fault lies where it is reported**, at a cut of the text. -/
theorem Fails.liesAt {f : Fault} (h : s.Fails f) :
    ∃ e d, (Cursor.start s.expression).Cuts e ∧ f.LiesAt e d := by
  rcases fails_iff.mp h with ⟨d, es, hr⟩ | ⟨v, d, es, hr, hd, rfl⟩
  · obtain ⟨e, he, hl⟩ := hr.liesAt rfl nofun
    exact ⟨e, d, he, hl⟩
  · have hstop : d.StopOf .expression := hr.stopsAt rfl
    obtain ⟨x, hx⟩ : ∃ x, d.ahead? = some x := by
      rw [← Option.ne_none_iff_exists', Ne, ← skipBlanks_rest_eq_nil_iff, hstop.skipBlanks]
      exact hd
    exact ⟨d, d, hr.cuts rfl, .trailingInput hx hstop⟩

end Solver

end Reckoner
