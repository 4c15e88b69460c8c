import Reckoner.Proofs.Literals
import Reckoner.Proofs.Shortest
import Reckoner.Proofs.Spelling

/-!
# Notation of decimals

In positional notation a decimal is a literal, and what its digits make up around the point is its
value, wherever the point lies: before all digits, between them or after zeros that are put behind
them (`Power.positional_spec`). In scientific notation the digits are a literal too, but it ends
before the `e` (`Power.scientific_spec`). The `e` tells which notation is used
(`Power.mem_text_iff`).
-/

namespace Reckoner

open Binary64 Grammar

/-! ### Digits around a point -/

namespace Decimal

/-- What digits before and after a point make up is their number, divided by ten for each one after
the point. -/
theorem whole_add_fraction (w f : List Char) :
    whole w + fraction f = (Nat.ofDigitChars 10 (w ++ f) 0 : ℚ) / 10 ^ f.length := by
  have hpow : (10 : ℚ) ^ f.length ≠ 0 := pow_ne_zero _ (by norm_num)
  rw [Nat.ofDigitChars_append, ofDigitChars_eq_fraction, ofDigitChars_eq_whole,
    mul_div_cancel_left₀ _ hpow]

theorem ofDigitChars_zeros (n k : Nat) :
    Nat.ofDigitChars 10 (List.replicate k '0') n = n * 10 ^ k := by
  induction k generalizing n with
  | zero => simp
  | succ k ih =>
    rw [List.replicate_succ, Nat.ofDigitChars_cons, ih, pow_succ]
    simp
    ring

variable {w f : List Char}

theorem count_point_of_digits (h : ∀ c ∈ w, c.isDigit) : w.count '.' = 0 :=
  List.count_eq_zero.mpr fun hc => Bool.false_ne_true (h '.' hc)

theorem isNumeric_of_isDigit {c : Char} (h : c.isDigit) : isNumeric c := by
  simp [isNumeric, h]

theorem isLiteral_of_digits (hw : ∀ c ∈ w, c.isDigit) (hne : w ≠ []) : IsLiteral w := by
  obtain ⟨c, u, rfl⟩ := List.exists_cons_of_ne_nil hne
  refine ⟨⟨c, by simp, hw c (by simp)⟩, ?_⟩
  rw [count_point_of_digits hw]
  exact Nat.zero_le 1

section Point

variable (hw : ∀ c ∈ w, c.isDigit) (hf : ∀ c ∈ f, c.isDigit)
include hw

theorem exact_of_point : exact (w ++ '.' :: f) = whole w + fraction f := by
  have hp : ∀ c ∈ w, decide (c ≠ '.') := by
    intro c hc
    refine decide_eq_true ?_
    rintro rfl
    cases hw '.' hc
  have hpoint : ∀ c ∈ ('.' :: f).head?, decide (c ≠ '.') = false := by simp
  rw [exact, takeWhile_append_of_all hp hpoint, dropWhile_append_of_all hp hpoint, List.tail_cons]

include hf

/-- Digits with a point between them are a literal. -/
theorem isLiteral_of_point (hne : w ≠ []) : IsLiteral (w ++ '.' :: f) := by
  obtain ⟨c, u, rfl⟩ := List.exists_cons_of_ne_nil hne
  refine ⟨⟨c, by simp, hw c (by simp)⟩, ?_⟩
  rw [List.count_append, count_point_of_digits hw, List.count_cons_self, count_point_of_digits hf]

theorem isNumeric_of_point : ∀ c ∈ w ++ '.' :: f, isNumeric c := by
  rw [List.forall_mem_append, List.forall_mem_cons]
  exact ⟨fun c hc => isNumeric_of_isDigit (hw c hc), by decide,
    fun c hc => isNumeric_of_isDigit (hf c hc)⟩

end Point

end Decimal

namespace Binary64

/-! ### Positional notation -/

section Positional

variable {digits : List Char} {point : Int}

theorem positional_of_nonpos (h : point ≤ 0) :
    positional digits point = ['0'] ++ '.' :: (List.replicate (-point).toNat '0' ++ digits) :=
  if_pos h

/-- The point lies between the digits. -/
theorem positional_of_lt (h : 0 < point) (hlt : point.toNat < digits.length) :
    positional digits point = digits.take point.toNat ++ '.' :: digits.drop point.toNat := by
  have hdrop : (digits.drop point.toNat).isEmpty = false := by
    simpa [List.isEmpty_eq_false_iff] using hlt
  simp [positional, h.not_ge, hdrop, Nat.min_eq_left hlt.le]

/-- Zeros are put between the digits and the point. -/
theorem positional_of_ge (h : 0 < point) (hge : digits.length ≤ point.toNat) :
    positional digits point =
      digits ++ List.replicate (point.toNat - digits.length) '0' ++ '.' :: ['0'] := by
  simp [positional, h.not_ge, List.take_of_length_le hge, List.drop_of_length_le hge]

end Positional

namespace Power

variable {p : Power}

theorem isDigit_of_mem_digits {c : Char} (h : c ∈ p.digits) : c.isDigit :=
  Nat.isDigit_of_mem_toDigits (by decide) (by decide) h

theorem ofDigitChars_digits (p : Power) : Nat.ofDigitChars 10 p.digits 0 = p.coefficient :=
  Nat.ofDigitChars_toDigits (by decide) (by decide)

/-- Digits that make up the coefficient with `z` zeros after it have the value of the decimal if
the point is put where the exponent tells. -/
theorem value_of_digits {w f : List Char} {z : Nat}
    (h : Nat.ofDigitChars 10 (w ++ f) 0 = p.coefficient * 10 ^ z)
    (hexp : p.exponent + f.length = z) : Decimal.whole w + Decimal.fraction f = p.value := by
  rw [Decimal.whole_add_fraction, h, value, show p.exponent = z - f.length by omega,
    zpow_sub₀ (by norm_num), zpow_natCast, zpow_natCast, Nat.cast_mul, Nat.cast_pow, mul_div_assoc]
  rfl

/-- Positional notation has digits on either side of its point, with the value of the decimal. -/
theorem positional_spec (p : Power) : ∃ w f, positional p.digits (p.leading + 1) = w ++ '.' :: f ∧
    (∀ c ∈ w, c.isDigit) ∧ (∀ c ∈ f, c.isDigit) ∧ w ≠ [] ∧
      Decimal.whole w + Decimal.fraction f = p.value := by
  have hlen := p.length_digits_pos
  have hdigits : ∀ c ∈ p.digits, c.isDigit := fun c hc => isDigit_of_mem_digits hc
  have hzeros (k : Nat) : ∀ c ∈ List.replicate k '0', c.isDigit := fun c hc =>
    (List.eq_of_mem_replicate hc).symm ▸ rfl
  have hpoint : p.leading + 1 = p.exponent + p.digits.length := by
    rw [leading]
    omega
  generalize p.leading + 1 = point at hpoint
  rcases le_or_gt point 0 with hle | hpos
  · refine ⟨_, _, positional_of_nonpos hle, hzeros 1,
      List.forall_mem_append.mpr ⟨hzeros _, hdigits⟩, List.cons_ne_nil _ _,
      value_of_digits (z := 0) ?_ ?_⟩
    · have hwhole : Nat.ofDigitChars 10 ['0'] 0 = 0 := rfl
      rw [Nat.ofDigitChars_append, Nat.ofDigitChars_append, hwhole, Decimal.ofDigitChars_zeros,
        zero_mul, ofDigitChars_digits, pow_zero, mul_one]
    · rw [List.length_append, List.length_replicate]
      omega
  rcases Nat.lt_or_ge point.toNat p.digits.length with hlt | hge
  · have htake : (p.digits.take point.toNat).length = point.toNat := List.length_take_of_le hlt.le
    refine ⟨_, _, positional_of_lt hpos hlt, fun c hc => hdigits c (List.mem_of_mem_take hc),
      fun c hc => hdigits c (List.mem_of_mem_drop hc), List.ne_nil_of_length_pos ?_,
      value_of_digits (z := 0) ?_ ?_⟩
    · omega
    · rw [List.take_append_drop, ofDigitChars_digits, pow_zero, mul_one]
    · rw [List.length_drop]
      omega
  · refine ⟨_, _, positional_of_ge hpos hge, List.forall_mem_append.mpr ⟨hdigits, hzeros _⟩,
      hzeros 1, List.append_ne_nil_of_left_ne_nil (List.ne_nil_of_length_pos hlen) _,
      value_of_digits (z := point.toNat - p.digits.length + 1) ?_ ?_⟩
    · rw [Nat.ofDigitChars_append, Nat.ofDigitChars_append, ofDigitChars_digits,
        Decimal.ofDigitChars_zeros, pow_succ, ← mul_assoc]
      exact Decimal.ofDigitChars_zeros _ 1
    · rw [List.length_singleton]
      omega

/-- Scientific notation is a literal before an `e`. -/
theorem scientific_spec (p : Power) : ∃ run rest,
    scientific p.digits p.leading = run ++ 'e' :: rest ∧ (∀ c ∈ run, isNumeric c) ∧
      IsLiteral run := by
  have htake : ∀ c ∈ p.digits.take 1, c.isDigit := fun c hc =>
    isDigit_of_mem_digits (List.mem_of_mem_take hc)
  have hdrop : ∀ c ∈ p.digits.drop 1, c.isDigit := fun c hc =>
    isDigit_of_mem_digits (List.mem_of_mem_drop hc)
  have hne : p.digits.take 1 ≠ [] := by
    have := p.length_digits_pos
    rw [← List.length_pos_iff, List.length_take]
    omega
  refine ⟨_, _, rfl, ?_⟩
  split
  · rw [List.append_nil]
    exact ⟨fun c hc => Decimal.isNumeric_of_isDigit (htake c hc),
      Decimal.isLiteral_of_digits htake hne⟩
  · exact ⟨Decimal.isNumeric_of_point htake hdrop, Decimal.isLiteral_of_point htake hdrop hne⟩

/-- The text of a decimal is a literal with its value, or a literal before an `e`. -/
theorem text_cases (p : Power) :
    ((leastPositional ≤ p.leading ∧ p.leading < positionalEnd) ∧ (∀ c ∈ p.text, isNumeric c) ∧
      IsLiteral p.text ∧ Decimal.exact p.text = p.value) ∨
    (¬ (leastPositional ≤ p.leading ∧ p.leading < positionalEnd) ∧ ∃ run rest,
      p.text = run ++ 'e' :: rest ∧ (∀ c ∈ run, isNumeric c) ∧ IsLiteral run) := by
  unfold text
  split
  · next h =>
    obtain ⟨w, f, hp, hw, hf, hne, hvalue⟩ := p.positional_spec
    rw [hp]
    exact .inl ⟨h, Decimal.isNumeric_of_point hw hf, Decimal.isLiteral_of_point hw hf hne,
      (Decimal.exact_of_point hw).trans hvalue⟩
  · next h => exact .inr ⟨h, p.scientific_spec⟩

/-- Positional notation is for decimal exponents from -4 to 15. -/
theorem mem_text_iff : 'e' ∈ p.text ↔ p.leading < -4 ∨ 16 ≤ p.leading := by
  have hnot : ¬ (leastPositional ≤ p.leading ∧ p.leading < positionalEnd) ↔
      p.leading < -4 ∨ 16 ≤ p.leading := by
    rw [not_and_or, not_le, not_lt]
    rfl
  rw [← hnot]
  obtain ⟨h, hnumeric, -⟩ | ⟨h, run, rest, hp, -⟩ := p.text_cases
  · exact iff_of_false (fun he => by cases hnumeric 'e' he) (not_not.mpr h)
  · exact iff_of_true (by simp [hp]) h

end Power

end Binary64

end Reckoner
