import Reckoner.Proofs.Derivation
import Reckoner.Proofs.Rounding

/-!
# What literals stand for

A literal stands for the number that its digits write, each by its place before or after the point
(`Decimal.exact`). It is read as the double that this number is rounded to, whatever its length is
and whatever zeros it begins or ends with (`Grammar.literal_reads`). A run of digits and points that
is no literal is refused as a whole. What is read depends on the run alone, so nothing after it
counts.
-/

namespace Reckoner

open Binary64

/-! ### Exact values -/

namespace Decimal

/-- The value of a digit. -/
def digit (c : Char) : ℚ := (c.toNat - '0'.toNat : ℕ)

/-- The number that digits before a point make up. -/
def whole : List Char → ℚ
  | [] => 0
  | c :: digits => digit c * 10 ^ digits.length + whole digits

/-- The number that digits after a point make up. -/
def fraction : List Char → ℚ
  | [] => 0
  | c :: digits => (digit c + fraction digits) / 10

/-- The exact value of a run of digits with at most one point. -/
def exact (run : List Char) : ℚ :=
  whole (run.takeWhile (· ≠ '.')) + fraction (run.dropWhile (· ≠ '.')).tail

example : exact "012.50".toList = 25 / 2 := by decide +kernel

theorem ofDigitChars_eq_whole (l : List Char) : (Nat.ofDigitChars 10 l 0 : ℚ) = whole l := by
  induction l with
  | nil => rfl
  | cons c l ih =>
    rw [Nat.ofDigitChars_cons, Nat.ofDigitChars_eq_ofDigitChars_zero, Nat.cast_add, ih, whole,
      digit]
    push_cast
    ring

theorem ofDigitChars_eq_fraction (l : List Char) (n : Nat) :
    (Nat.ofDigitChars 10 l n : ℚ) = 10 ^ l.length * (n + fraction l) := by
  induction l generalizing n with
  | nil => simp [fraction]
  | cons c l ih =>
    rw [Nat.ofDigitChars_cons, ih, List.length_cons, pow_succ, fraction, digit]
    push_cast
    ring

/-- Without its point, a run is the digits before it and those after it. -/
theorem filter_isDigit {run : List Char} (hrun : ∀ c ∈ run, isNumeric c) (hp : run.count '.' ≤ 1) :
    run.filter Char.isDigit = run.takeWhile (· ≠ '.') ++ (run.dropWhile (· ≠ '.')).tail := by
  induction run with
  | nil => rfl
  | cons c run ih =>
    rw [List.forall_mem_cons] at hrun
    by_cases hc : c = '.'
    · subst hc
      rw [List.count_cons_self] at hp
      have hmem : '.' ∉ run := List.count_eq_zero.mp (by omega)
      have hall : ∀ d ∈ run, d.isDigit := fun d hd =>
        (Bool.or_eq_true _ _ ▸ hrun.2 d hd).resolve_right fun he =>
          hmem (beq_iff_eq.mp he ▸ hd)
      rw [List.filter_cons_of_neg (by decide), List.filter_eq_self.mpr hall]
      simp
    · have hd : c.isDigit := (Bool.or_eq_true _ _ ▸ hrun.1).resolve_right fun he =>
        hc (beq_iff_eq.mp he)
      rw [List.count_cons_of_ne hc] at hp
      rw [List.filter_cons_of_pos hd, ih hrun.2 hp, List.takeWhile_cons_of_pos (by simpa using hc),
        List.dropWhile_cons_of_pos (by simpa using hc), List.cons_append]

/-- A literal has its exact value. -/
theorem ofRun?_exact {run : List Char} {n : Decimal} (hrun : ∀ c ∈ run, isNumeric c)
    (h : ofRun? run = some n) : (n.coefficient : ℚ) / (10 ^ n.places : ℕ) = exact run := by
  have hp : run.count '.' ≤ 1 := by
    by_contra hlt
    rw [ofRun?_eq_none_iff.mpr (.inr (by omega))] at h
    cases h
  have hn : n = ⟨Nat.ofDigitChars 10 (run.filter Char.isDigit) 0,
      (run.dropWhile (· ≠ '.')).tail.length⟩ := by
    dsimp only [ofRun?] at h
    split at h
    · cases h
    · exact (Option.some.inj h).symm
  have hpow : (10 : ℚ) ^ (run.dropWhile (· ≠ '.')).tail.length ≠ 0 :=
    pow_ne_zero _ (by norm_num)
  rw [hn, filter_isDigit hrun hp, Nat.ofDigitChars_append, ofDigitChars_eq_fraction,
    ofDigitChars_eq_whole, Nat.cast_pow, Nat.cast_ofNat, mul_div_cancel_left₀ _ hpow, exact]

end Decimal

/-- What a literal is read as is its exact value, rounded. -/
theorem rounds_ofDecimal {run : List Char} {n : Decimal} (hrun : ∀ c ∈ run, isNumeric c)
    (h : Decimal.ofRun? run = some n) : Rounds (Decimal.exact run) (ofDecimal n) := by
  rw [← Decimal.ofRun?_exact hrun h]
  exact rounds_nearest n.coefficient (Nat.pow_pos (by decide))

theorem ofDecimal_eq_zero_iff {run : List Char} {n : Decimal} (hrun : ∀ c ∈ run, isNumeric c)
    (h : Decimal.ofRun? run = some n) :
    ofDecimal n = zero ↔ Decimal.exact run ≤ 2 ^ (-1075 : ℤ) := by
  rw [← Decimal.ofRun?_exact hrun h]
  exact nearest_eq_zero_iff n.coefficient (Nat.pow_pos (by decide))

/-! ### Reading a literal -/

namespace Cursor

/-- The end of a run of characters is a place of the same text. -/
theorem skip_within (p : Char → Bool) (text : String) (n : Nat) :
    (within text n).skip p = within text (n + ((within text n).run p).length) := by
  have hdrop (l : List Char) : l.dropWhile p = l.drop (l.takeWhile p).length :=
    calc l.dropWhile p = (l.takeWhile p ++ l.dropWhile p).drop (l.takeWhile p).length :=
          List.drop_left.symm
      _ = l.drop (l.takeWhile p).length := by rw [List.takeWhile_append_dropWhile]
  rw [skip, within, within, run, ← List.drop_drop, ← hdrop]

end Cursor

namespace Grammar

open Cursor

variable {α : Type} {A : Arithmetic α} {c : Cursor}

theorem literal_outcome_eq_error_iff {f : Fault} : (literal A c).outcome = .error f ↔
    f = ⟨.numberFormat (String.ofList (c.run isNumeric)), c.pos⟩ ∧
      Decimal.ofRun? (c.run isNumeric) = none := by
  rcases hl : Decimal.ofRun? (c.run isNumeric) with _ | n
  · rw [literal_eq_fail hl]
    exact ⟨fun h => ⟨(Except.error.inj h).symm, rfl⟩, fun h => congrArg Except.error h.1.symm⟩
  · rw [literal_eq_done hl]
    exact ⟨nofun, nofun⟩

theorem literal_outcome_eq_ok_iff {v : α} : (literal A c).outcome = .ok v ↔
    ∃ n, Decimal.ofRun? (c.run isNumeric) = some n ∧ A.literal n = v := by
  rcases hl : Decimal.ofRun? (c.run isNumeric) with _ | n
  · rw [literal_eq_fail hl]
    exact ⟨nofun, nofun⟩
  · rw [literal_eq_done hl]
    constructor
    · exact fun h => ⟨n, rfl, Except.ok.inj h⟩
    · rintro ⟨m, hm, rfl⟩
      rw [Option.some.inj hm]
      rfl

/-- Nothing but its run and its offset counts for a literal. -/
theorem literal_outcome_congr {d : Cursor} (hpos : c.pos = d.pos)
    (hrun : c.run isNumeric = d.run isNumeric) :
    (literal A c).outcome = (literal A d).outcome := by
  rw [literal_eq, literal_eq, hrun, hpos]
  cases Decimal.ofRun? (d.run isNumeric) <;> rfl

/-- The double of a literal is what its exact value is rounded to. -/
theorem literal_rounds_iff {v : Float} : (literal double c).outcome = .ok v ↔
    IsLiteral (c.run isNumeric) ∧ Rounds (Decimal.exact (c.run isNumeric)) v := by
  have hrun : ∀ x ∈ c.run isNumeric, isNumeric x := fun x hx => List.mem_takeWhile_imp hx
  rw [literal_outcome_eq_ok_iff, isLiteral_iff]
  constructor
  · rintro ⟨n, hn, rfl⟩
    exact ⟨⟨n, hn⟩, rounds_ofDecimal hrun hn⟩
  · rintro ⟨⟨n, hn⟩, hv⟩
    exact ⟨n, hn, (rounds_ofDecimal hrun hn).unique hv⟩

/-- **A literal is the double nearest to its exact value.** The whole run of digits and points is
passed, and nothing after it counts. -/
theorem literal_reads (text : String) (p : Nat) :
    let run := (within text p).run isNumeric
    let read := literal double (within text p)
    read.cursor = within text (p + run.length) ∧
    (∀ f, read.outcome = .error f ↔ f = ⟨.numberFormat (String.ofList run), p⟩ ∧
      ((∀ x ∈ run, x.isDigit = false) ∨ 2 ≤ run.count '.')) ∧
    (∀ v, read.outcome = .ok v ↔ IsLiteral run ∧ Rounds (Decimal.exact run) v) ∧
    (read.outcome = .ok infinity ↔ IsLiteral run ∧ 2 ^ 1024 - 2 ^ 970 ≤ Decimal.exact run) ∧
    (read.outcome = .ok zero ↔ IsLiteral run ∧ Decimal.exact run ≤ 2 ^ (-1075 : ℤ)) ∧
    ∀ text' : String, (within text' p).run isNumeric = run →
      (literal double (within text' p)).outcome = read.outcome ∧
        (literal double (within text' p)).cursor.pos = read.cursor.pos := by
  intro run read
  have hrun : ∀ x ∈ run, isNumeric x := fun x hx => List.mem_takeWhile_imp hx
  refine ⟨(literal_cursor _).trans (skip_within isNumeric text p), fun f => ?_,
    fun v => literal_rounds_iff, ?_, ?_, fun text' hsame => ⟨?_, ?_⟩⟩
  · rw [← Decimal.ofRun?_eq_none_iff]
    exact literal_outcome_eq_error_iff
  · constructor
    · intro h
      obtain ⟨hl, hr⟩ := literal_rounds_iff.mp h
      exact ⟨hl, hr.eq_infinity_iff.mp rfl⟩
    · rintro ⟨hl, hq⟩
      obtain ⟨n, hn⟩ := isLiteral_iff.mp hl
      exact literal_outcome_eq_ok_iff.mpr ⟨n, hn, (rounds_ofDecimal hrun hn).infinite hq⟩
  · constructor
    · intro h
      obtain ⟨n, hn, hz⟩ := literal_outcome_eq_ok_iff.mp h
      exact ⟨isLiteral_iff.mpr ⟨n, hn⟩, (ofDecimal_eq_zero_iff hrun hn).mp hz⟩
    · rintro ⟨hl, hq⟩
      obtain ⟨n, hn⟩ := isLiteral_iff.mp hl
      exact literal_outcome_eq_ok_iff.mpr ⟨n, hn, (ofDecimal_eq_zero_iff hrun hn).mpr hq⟩
  · exact literal_outcome_congr rfl hsame
  · rw [literal_cursor, literal_cursor]
    exact congrArg (p + List.length ·) hsame

/-- Half way between two doubles, the one with the even significand is taken. -/
example : (literal double (within "2*9007199254740993" 2)).outcome = .ok 9007199254740992.0 := by
  decide +kernel

end Grammar

end Reckoner
