import Reckoner.Proofs.Notation
import Reckoner.Proofs.Parentheses

/-!
# Results that read back

The value of an expression is logged as a text. A text in positional notation is an expression
itself, a literal that may have a minus sign before it: the literal is read as the magnitude that
it was written for (`magnitudeText_cases`), and the sign is the operator. So it has the value that
was logged. With an exponent the literal ends before the `e`, where no rule goes on, and the rest is
left over (`Solver.fails_signed_literal`). Infinities and what is not a number are written as words,
which are read as names.

`Solver.solve_text` puts this together for all doubles.
-/

namespace Reckoner

open Binary64 Cursor Grammar

/-! ### A literal with a sign -/

namespace Grammar

variable {α : Type} {A : Arithmetic α} {scope : Scope α} {run rest : List Char} {n : Decimal}
  {k : Nat}

/-- The sign of a number in a text. -/
def sign (negative : Bool) : List Char := if negative then ['-'] else []

section Literal

variable (hrun : ∀ c ∈ run, isNumeric c) (hn : Decimal.ofRun? run = some n)
  (hrest : ∀ c ∈ rest.head?, isNumeric c = false)
include hrun hn hrest

theorem literal_append :
    literal A ⟨k, run ++ rest⟩ = .done (A.literal n) ⟨k + run.length, rest⟩ := by
  have hread : (Cursor.mk k (run ++ rest)).run isNumeric = run :=
    takeWhile_append_of_all hrun hrest
  have hskip : (Cursor.mk k (run ++ rest)).skip isNumeric = ⟨k + run.length, rest⟩ := by
    rw [skip, hread]
    exact congrArg _ (dropWhile_append_of_all hrun hrest)
  rw [literal_eq, hread, hn, hskip]

variable (hstop : (Cursor.mk 0 rest).StopOf .expression)
include hstop

theorem exists_factor_literal : ∃ es, Runs A scope (.call .factor) ⟨k, run ++ rest⟩
    ⟨.ok (A.literal n), ⟨k + run.length, rest⟩, es⟩ := by
  obtain ⟨c, u, rfl⟩ : ∃ c u, run = c :: u := by
    obtain ⟨⟨c, hc, -⟩, -⟩ := isLiteral_iff.mpr ⟨n, hn⟩
    exact List.exists_cons_of_ne_nil (List.ne_nil_of_mem hc)
  have hc : isNumeric c := hrun c List.mem_cons_self
  have hblank : isBlank c = false := by
    by_contra h
    rw [not_isNumeric_of_isBlank (Bool.not_eq_false _ ▸ h)] at hc
    cases hc
  have hskip : (Cursor.mk k (c :: u ++ rest)).skipBlanks = ⟨k, c :: u ++ rest⟩ :=
    skip_of_peek? fun x hx => Option.some.inj hx ▸ hblank
  have hahead : (Cursor.mk k (c :: u ++ rest)).ahead? = some c := by
    rw [ahead?, hskip]
    rfl
  have hprimary : Runs A scope .primary ⟨k, c :: u ++ rest⟩ _ := .literal hahead hc
  rw [hskip, literal_append hrun hn hrest] at hprimary
  have hsign : c ≠ '+' ∧ c ≠ '-' := by
    constructor <;> rintro rfl <;> cases hc
  exact hprimary.factor_of_primary
    (startsPrimary_of_ahead hahead (not_isLetter_of_isNumeric hc) hsign.1 hsign.2)
    (hstop.move _).operand.operand

variable (A scope) in
/-- A literal with a sign is an expression if none goes on after it. -/
theorem exists_expression_literal (negative : Bool) : ∃ es,
    Runs A scope (.call .expression) ⟨0, sign negative ++ (run ++ rest)⟩
      ⟨.ok (if negative then A.negate (A.literal n) else A.literal n),
        ⟨(sign negative).length + run.length, rest⟩, es⟩ := by
  cases negative with
  | false =>
    obtain ⟨es, h⟩ := exists_factor_literal hrun hn hrest hstop (A := A) (k := 0)
    exact h.lift_factor (hstop.move _)
  | true =>
    obtain ⟨es, h⟩ : ∃ es,
        Runs A scope (.call .factor) (Cursor.mk 0 ('-' :: (run ++ rest))).past _ :=
      exists_factor_literal hrun hn hrest hstop
    have hminus : Runs A scope (.call .factor) ⟨0, '-' :: (run ++ rest)⟩ _ := .call (.minus rfl h)
    exact hminus.lift_factor (hstop.move _)

end Literal

end Grammar

namespace Solver

variable {text : String} {scope : Scope Float} {negative : Bool} {run : List Char} {n : Decimal}

theorem solve_signed_literal (h : text.toList = sign negative ++ run)
    (hrun : ∀ c ∈ run, isNumeric c) (hn : Decimal.ofRun? run = some n) :
    (Solver.mk text scope).solve.value =
      .ok (if negative then -(ofDecimal n) else ofDecimal n) := by
  have hstop : (Cursor.mk 0 []).StopOf .expression := ⟨rfl, fun x hx => by cases hx⟩
  obtain ⟨es, hr⟩ := exists_expression_literal double scope hrun hn
    (fun c hc => by cases hc) hstop negative
  rw [List.append_nil, ← h] at hr
  exact solve_value_eq_ok_iff.mpr (solve_outcome_eq_ok_iff.mpr ⟨_, es, hr, rfl⟩)

/-- An expression ends before the `e` of an exponent. -/
theorem fails_signed_literal {rest : List Char}
    (h : text.toList = sign negative ++ (run ++ 'e' :: rest))
    (hrun : ∀ c ∈ run, isNumeric c) (hn : Decimal.ofRun? run = some n) :
    (Solver.mk text scope).Fails ⟨.trailingInput, (sign negative).length + run.length⟩ := by
  have hstop : (Cursor.mk 0 ('e' :: rest)).StopOf .expression :=
    ⟨rfl, fun x hx => Option.some.inj hx ▸ rfl⟩
  obtain ⟨es, hr⟩ := exists_expression_literal double scope hrun hn
    (fun c hc => by cases hc; rfl) hstop negative
  rw [← h] at hr
  exact fails_iff.mpr (.inr ⟨_, _, es, hr, List.cons_ne_nil _ _, rfl⟩)

end Solver

/-! ### The text of a double -/

namespace Binary64

variable {x : Float} {b : Nat}

theorem magnitudeText_of_finite (hb : 0 < b) (hfin : b < infinityMagnitude) :
    magnitudeText b = (shortest b).text := by
  rw [magnitudeText, if_neg hb.ne', if_pos hfin]

/-- A finite magnitude is written as a literal that is read as it, or with an exponent. -/
theorem magnitudeText_cases (hfin : b < infinityMagnitude) :
    (∃ n, (∀ c ∈ magnitudeText b, isNumeric c) ∧ Decimal.ofRun? (magnitudeText b) = some n ∧
      ofDecimal n = ofMagnitude false b) ∨
    ∃ run rest n, magnitudeText b = run ++ 'e' :: rest ∧ (∀ c ∈ run, isNumeric c) ∧
      Decimal.ofRun? run = some n := by
  rcases Nat.eq_zero_or_pos b with rfl | hb
  · have hall : (magnitudeText 0).all isNumeric := by decide +kernel
    exact .inl ⟨⟨0, 1⟩, List.all_eq_true.mp hall, by decide +kernel, by decide +kernel⟩
  rw [magnitudeText_of_finite hb hfin]
  obtain ⟨-, hnumeric, hliteral, hvalue⟩ | ⟨-, run, rest, hp, hnumeric, hliteral⟩ :=
    (shortest b).text_cases
  · obtain ⟨n, hn⟩ := isLiteral_iff.mp hliteral
    have hr := rounds_ofDecimal hnumeric hn
    rw [hvalue] at hr
    exact .inl ⟨n, hnumeric, hn, hr.unique (shortest_spec hb hfin).1⟩
  · obtain ⟨n, hn⟩ := isLiteral_iff.mp hliteral
    exact .inr ⟨run, rest, n, hp, hnumeric, hn⟩

theorem toList_text (hle : magnitude x ≤ infinityMagnitude) :
    (text x).toList = sign (isNegative x) ++ magnitudeText (magnitude x) := by
  rw [text, String.toList_ofList, decide_eq_true hle, Bool.and_true, sign]
  split <;> rfl

/-- A number is its absolute value with its sign. -/
theorem signed_abs (h : ¬ x.isNaN) : (if isNegative x then -x.abs else x.abs) = x := by
  have habs : ¬ x.abs.isNaN := by rwa [isNaN_iff, magnitude_abs, ← isNaN_iff]
  have hpos : isNegative x.abs = false := by
    rw [abs_eq h, isNegative_ofMagnitude (le_infinity_iff.mpr h)]
  split
  · next hneg =>
    exact eq_of_magnitude (by rw [isNegative_neg habs, hpos, hneg]; rfl)
      ((magnitude_neg _).trans (magnitude_abs x))
  · next hneg =>
    exact eq_of_magnitude (hpos.trans (Bool.eq_false_iff.mpr hneg).symm) (magnitude_abs x)

end Binary64

namespace Solver

variable {x : Float} {f : Fault}

theorem value_ne_ok_of_fails {s : Solver} (h : s.Fails f) (y : Float) : s.solve.value ≠ .ok y :=
  fun hy => by cases hy.symm.trans h

theorem fails_text_of_isInf (h : x.isInf) : (Solver.mk (text x) .strict).Fails
    ⟨.unknownSymbol "inf", (sign (isNegative x)).length⟩ := by
  rw [eq_infinity h]
  cases isNegative x <;> decide +kernel

theorem fails_text_of_isNaN (h : x.isNaN) :
    (Solver.mk (text x) .strict).Fails ⟨.unknownSymbol "nan", 0⟩ := by
  rw [eq_nan h]
  decide +kernel

theorem solve_text_of_finite (hfin : magnitude x < infinityMagnitude) :
    ('e' ∉ (text x).toList ∧ (Solver.mk (text x) .strict).solve.value = .ok x) ∨
    ('e' ∈ (text x).toList ∧
      (Solver.mk (text x) .strict).Fails ⟨.trailingInput, (text x).toList.idxOf 'e'⟩) := by
  have hsign : 'e' ∉ sign (isNegative x) := by
    cases isNegative x <;> decide
  have hnan : ¬ x.isNaN := le_infinity_iff.mp hfin.le
  have htext := toList_text hfin.le
  have hnot {run : List Char} (h : ∀ c ∈ run, isNumeric c) : 'e' ∉ run := fun he => by
    cases h 'e' he
  obtain ⟨n, hnumeric, hn, hvalue⟩ | ⟨run, rest, n, hrun, hnumeric, hn⟩ := magnitudeText_cases hfin
  · refine .inl ⟨?_, ?_⟩
    · rw [htext, List.mem_append]
      exact not_or.mpr ⟨hsign, hnot hnumeric⟩
    · rw [solve_signed_literal htext hnumeric hn, hvalue, ← abs_eq hnan, signed_abs hnan]
  · rw [hrun] at htext
    refine .inr ⟨by simp [htext], ?_⟩
    have hidx : (text x).toList.idxOf 'e' = (sign (isNegative x)).length + run.length := by
      rw [htext, List.idxOf_append_of_notMem hsign, List.idxOf_append_of_notMem (hnot hnumeric),
        List.idxOf_cons_self, Nat.add_zero]
    rw [hidx]
    exact fails_signed_literal htext hnumeric hn

/-- **A logged result reads back** as the double that it was written for, if it is written in
positional notation. An exponent is left over, and infinities and what is not a number are taken
for names. -/
theorem solve_text (x : Float) :
    let s : Solver := ⟨text x, .strict⟩
    (value? x = some 0 → (text x).toList = sign (isNegative x) ++ ['0', '.', '0']) ∧
    (x.isFinite → value? x ≠ some 0 → ∃ p : Power, IsShortest p x ∧
      10 ^ p.leading ≤ p.value ∧ p.value < 10 ^ (p.leading + 1) ∧
      (text x).toList = sign (isNegative x) ++ p.text ∧
      ('e' ∈ (text x).toList ↔ p.leading < -4 ∨ 16 ≤ p.leading)) ∧
    (∀ y, s.solve.value = .ok y ↔ y = x ∧ x.isFinite ∧ 'e' ∉ (text x).toList) ∧
    (x.isFinite → 'e' ∈ (text x).toList →
      s.Fails ⟨.trailingInput, (text x).toList.idxOf 'e'⟩) ∧
    (x.isInf → s.Fails ⟨.unknownSymbol "inf", (sign (isNegative x)).length⟩) ∧
    (x.isNaN → s.Fails ⟨.unknownSymbol "nan", 0⟩) := by
  intro s
  refine ⟨fun h0 => ?_, fun hx h0 => ?_, fun y => ?_, fun hx he => ?_, fails_text_of_isInf,
    fails_text_of_isNaN⟩
  · have hzero : magnitude x = 0 := value?_eq_zero_iff.mp h0
    rw [toList_text (hzero ▸ Nat.zero_le _), hzero]
    rfl
  · have hfin := isFinite_iff.mp hx
    have hpos := Nat.pos_of_ne_zero (value?_eq_zero_iff.not.mp h0)
    have hcoefficient := coefficient_pos_of_rounds hpos hfin (shortest_spec hpos hfin).1
    have htext := toList_text hfin.le
    rw [magnitudeText_of_finite hpos hfin] at htext
    have hsign : 'e' ∉ sign (isNegative x) := by
      cases isNegative x <;> decide
    refine ⟨_, isShortest_shortest hpos hfin, Power.le_value hcoefficient, Power.value_lt _, htext,
      ?_⟩
    rw [htext, List.mem_append, or_iff_right hsign, Power.mem_text_iff]
  · by_cases hfin : magnitude x < infinityMagnitude
    · rw [isFinite_iff, and_iff_right hfin]
      obtain ⟨he, hvalue⟩ | ⟨he, hfails⟩ := solve_text_of_finite hfin
      · rw [and_iff_left he, hvalue, Except.ok.injEq, eq_comm]
      · exact iff_of_false (value_ne_ok_of_fails hfails y) fun h => h.2 he
    · refine iff_of_false ?_ fun h => hfin (isFinite_iff.mp h.2.1)
      rcases (not_lt.mp hfin).eq_or_lt with hinf | hnan
      · exact value_ne_ok_of_fails (fails_text_of_isInf (isInf_iff.mpr hinf.symm)) y
      · exact value_ne_ok_of_fails (fails_text_of_isNaN (isNaN_iff.mpr hnan)) y
  · obtain ⟨hnot, -⟩ | ⟨-, hfails⟩ := solve_text_of_finite (isFinite_iff.mp hx)
    · exact absurd he hnot
    · exact hfails

end Solver

end Reckoner
