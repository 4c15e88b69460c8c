import Reckoner.Proofs.Locality
import Reckoner.Proofs.Report
import Reckoner.Step

/-!
# Reading goes forward

Single steps and whole rules can be called in any order on one text, also after a call that has
failed. A call leaves a place that is reached from where it was made (`reaches_perform`), so
whatever the calls are, the places are those of one text in order (`performAll_pairwise`).

A call that fails is no exception: it leaves the place at the offset of its fault, or behind the
characters that the fault is about (`Fault.Leaves`), which have been read before they were judged.
-/

namespace Reckoner

open Cursor

/-- Where a fault leaves the place in the text: at its offset, or behind the literal or the name
that it is about. -/
inductive Fault.Leaves : Fault → Nat → Prop where
  | unexpectedEnd {o} : Leaves ⟨.unexpectedEnd, o⟩ o
  | unexpectedCharacter {found o} : Leaves ⟨.unexpectedCharacter (some found), o⟩ o
  | numberFormat {literal o} : Leaves ⟨.numberFormat literal, o⟩ (o + literal.length)
  | unknownSymbol {name o} : Leaves ⟨.unknownSymbol name, o⟩ (o + name.length)

namespace Fault

theorem leaves_skip {cause : String → Cause} {p : Char → Bool}
    (h : ∀ run o, Leaves ⟨cause run, o⟩ (o + run.length)) (c : Cursor) :
    Leaves ⟨cause (String.ofList (c.run p)), c.pos⟩ (c.skip p).pos := by
  have hpos : (c.skip p).pos = c.pos + (String.ofList (c.run p)).length := by
    rw [String.length_ofList]
    rfl
  rw [hpos]
  exact h _ _

theorem LiesAt.leaves {f : Fault} {e d : Cursor} (h : f.LiesAt e d)
    (hf : f.cause ≠ .trailingInput) : f.Leaves d.pos := by
  cases h with
  | unexpectedEnd => exact .unexpectedEnd
  | unexpectedCharacter => exact .unexpectedCharacter
  | numberFormat => exact leaves_skip (fun _ _ => .numberFormat) e
  | unknownSymbol => exact leaves_skip (fun _ _ => .unknownSymbol) e
  | trailingInput => exact absurd rfl hf

end Fault

namespace Step

variable {α : Type} {A : Arithmetic α} {scope : Scope α} {step : Step} {c : Cursor}

/-- The step reads nothing at `c`: it only looks there, or tries to take something from the end. -/
def Stays : Step → Cursor → Prop
  | .atEnd, _ | .peek, _ => True
  | .consume _, c => c.atEnd
  | .number, _ | .name, _ | .call _, _ => False

/-! ### One step -/

theorem reaches_perform (step : Step) (c : Cursor) :
    c.Reaches (step.perform A scope c).cursor := by
  cases step with
  | atEnd => exact .refl c
  | peek =>
    unfold perform
    cases c.peek? <;> exact .refl c
  | consume expected => exact reaches_consumeText expected c
  | number => exact (Grammar.literal_cursor (A := A) c).symm ▸ reaches_skip isNumeric c
  | name => exact reaches_skip isLetter c
  | call rule => exact Grammar.reaches_evaluate A scope rule c

theorem consumeText_of_atEnd (expected : String) (h : c.atEnd) :
    (c.consumeText expected).2 = c := by
  obtain ⟨n, rest⟩ := c
  obtain rfl : rest = [] := by simpa [Cursor.atEnd] using h
  unfold consumeText
  split <;> rfl

theorem perform_stays (h : step.Stays c) : (step.perform A scope c).cursor = c := by
  cases step with
  | atEnd => rfl
  | peek =>
    unfold perform
    cases c.peek? <;> rfl
  | consume expected => exact consumeText_of_atEnd expected h
  | number | name | call => exact h.elim

/-- **A step that fails has read what the fault is about**, and nothing behind it. -/
theorem perform_leaves {f : Fault} (h : (step.perform A scope c).outcome = .error f) :
    f.Leaves (step.perform A scope c).cursor.pos := by
  cases step with
  | atEnd | consume | name => cases h
  | peek =>
    unfold perform at h ⊢
    rcases hx : c.peek? with _ | x
    · simp only [hx] at h ⊢
      cases h
      exact .unexpectedEnd
    · simp only [hx] at h
      cases h
  | number =>
    have h : (Grammar.literal A c).outcome = .error f := Run.map_outcome_eq_error_iff.mp h
    rcases hl : Decimal.ofRun? (c.run isNumeric) with _ | n
    · rw [Grammar.literal_eq_fail hl] at h
      cases h
      show Fault.Leaves _ (Grammar.literal A c).cursor.pos
      rw [Grammar.literal_cursor]
      exact Fault.leaves_skip (fun _ _ => .numberFormat) c
    · rw [Grammar.literal_eq_done hl] at h
      cases h
  | call rule =>
    have h : (Grammar.evaluate A scope rule c).outcome = .error f :=
      Run.map_outcome_eq_error_iff.mp h
    have hr : Grammar.Runs A scope (.call rule) c (Grammar.evaluate A scope rule c) :=
      Grammar.runs_run ..
    obtain ⟨e, -, hl⟩ := hr.liesAt h nofun
    refine hl.leaves fun hcause => ?_
    -- no rule asks for the end of the text
    have hw := hr.warranted h
    rwa [Fault.Warranted, hcause] at hw

/-! ### Steps one after the other -/

/-- **The places of a reading** come one after the other in one text, whatever the steps are and
whether they fail. -/
theorem performAll_pairwise (steps : List Step) (c : Cursor) :
    (c :: (performAll A scope steps c).map (·.cursor)).Pairwise Reaches := by
  induction steps generalizing c with
  | nil => simp [performAll]
  | cons step steps ih =>
    have hstep : c.Reaches (step.perform A scope c).cursor := reaches_perform step c
    have hlater := ih (step.perform A scope c).cursor
    refine .cons (fun d hd => ?_) hlater
    rcases List.mem_cons.mp hd with rfl | hd
    · exact hstep
    · exact hstep.trans ((List.pairwise_cons.mp hlater).1 d hd)

/-- Each step is made at the place that the one before has left. -/
theorem performAll_getElem? {steps : List Step} {k : Nat} (h : steps[k]? = some step) (c : Cursor) :
    ∃ d, (c :: (performAll A scope steps c).map (·.cursor))[k]? = some d ∧
      (performAll A scope steps c)[k]? = some (step.perform A scope d) := by
  induction steps generalizing c k with
  | nil => simp at h
  | cons first steps ih =>
    cases k with
    | zero =>
      obtain rfl : first = step := by simpa using h
      exact ⟨c, rfl, rfl⟩
    | succ k => exact ih (by simpa using h) (first.perform A scope c).cursor

variable (A scope)

/-- **Reading goes forward.** Whatever steps are made from the beginning of a text on, each of them
leaves a place of the same text, not before the one that it was made at. A look leaves its place. A
step that fails leaves the place that its fault says. -/
theorem performAll_forward (text : String) (steps : List Step) :
    let runs := performAll A scope steps (start text)
    let places := start text :: runs.map (·.cursor)
    (∀ c ∈ places, c = within text c.pos ∧ c.pos ≤ text.length) ∧
    places.Pairwise (·.pos ≤ ·.pos) ∧
    ∀ (k : Nat) (step : Step), steps[k]? = some step →
      ∃ c run, places[k]? = some c ∧ runs[k]? = some run ∧ run = step.perform A scope c ∧
        (step.Stays c → run.cursor = c) ∧
        ∀ f, run.outcome = .error f → f.Leaves run.cursor.pos := by
  intro runs places
  have hplaces : places.Pairwise Reaches := performAll_pairwise steps (start text)
  refine ⟨fun c hc => ?_, hplaces.imp Reaches.pos_le, fun k step hstep => ?_⟩
  · have hreach : (start text).Reaches c := by
      rcases List.mem_cons.mp hc with rfl | hc
      · exact .refl _
      · exact (List.pairwise_cons.mp hplaces).1 c hc
    exact ⟨hreach.eq_within, hreach.pos_le_length⟩
  · have hmade : ∃ c, places[k]? = some c ∧ runs[k]? = some (step.perform A scope c) :=
      performAll_getElem? hstep (start text)
    obtain ⟨c, hc, hrun⟩ := hmade
    exact ⟨c, _, hc, hrun, rfl, perform_stays, fun _ hf => perform_leaves hf⟩

/-- A malformed literal, an unknown name and the end of the text in one reading that goes on. -/
theorem performAll_forward_failing :
    let steps : List Step := [.call .expression, .consume "+", .call .term, .atEnd, .call .factor]
    let runs := performAll double .strict steps (start "1.2.3 +foo ")
    runs.map (·.cursor.pos) = [5, 7, 10, 10, 11] ∧
      ∃ run, runs[2]? = some run ∧ run.outcome = .error ⟨.unknownSymbol "foo", 7⟩ ∧
        Fault.Leaves ⟨.unknownSymbol "foo", 7⟩ run.cursor.pos := by
  intro steps runs
  have hpos : runs.map (·.cursor.pos) = [5, 7, 10, 10, 11] := by decide +kernel
  have hfault : runs[2]?.map (·.outcome) = some (.error ⟨.unknownSymbol "foo", 7⟩) := by
    decide +kernel
  obtain ⟨c, run, -, hrun, -, -, hleaves⟩ :=
    (performAll_forward double .strict "1.2.3 +foo " steps).2.2 2 (.call .term) rfl
  rw [show runs[2]? = some run from hrun, Option.map_some, Option.some.injEq] at hfault
  exact ⟨hpos, run, hrun, hfault, hleaves _ hfault⟩

end Step

end Reckoner
