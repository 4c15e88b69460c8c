import Reckoner.Proofs.Parity

/-!
# Odd doubles by their remainder

A whole number is odd if its remainder by two is one. This is so for negative numbers too, since the
remainder meant here has the sign of the divisor (`residue`): that of `-3` is one, while the
remainder with the sign of the dividend would be minus one. An operation on doubles is such a
remainder (`IsRemainder`) if it is exact where it can be, that is, where the exact remainder is the
value of a double. There is one (`isRemainder_remainder`).

The remainder of a whole double by two is zero or one. Both are values of doubles, so whichever
operation is used, the test for odd numbers that divides by two (`leavesOne`) holds of the odd
doubles and of nothing else (`leavesOne_iff`). It agrees with the test that reads the significand,
and both are false from `2^53` on, where the lowest bit of a significand weighs two or more
(`isOddInteger_iff_value`).
-/

namespace Reckoner.Binary64

variable {x y : Float} {v w : ℚ} {rem : Float → Float → Float}

/-! ### The exact remainder -/

/-- What is left of `v` by whole multiples of `w`. It is nearer to zero than `w` and has its
sign. -/
def residue (v w : ℚ) : ℚ := v - w * ⌊v / w⌋

theorem residue_eq (hw : w ≠ 0) : residue v w = w * Int.fract (v / w) := by
  rw [residue, Int.fract, mul_sub, mul_div_cancel₀ _ hw]

theorem residue_neg_iff (hw : w ≠ 0) (h : residue v w ≠ 0) : residue v w < 0 ↔ w < 0 := by
  rw [residue_eq hw] at h ⊢
  have hfract : 0 < Int.fract (v / w) :=
    (Int.fract_nonneg _).lt_of_ne' (right_ne_zero_of_mul h)
  rw [mul_neg_iff]
  constructor
  · rintro (⟨-, hneg⟩ | ⟨hneg, -⟩)
    · exact absurd hneg hfract.not_gt
    · exact hneg
  · intro hneg
    exact .inr ⟨hneg, hfract⟩

/-- The remainder of a whole number by two is zero or one, whatever its sign. -/
theorem residue_two (n : ℤ) : residue n 2 = (n % 2 : ℤ) := by
  have hfloor : ⌊(n : ℚ) / 2⌋ = n / 2 := Rat.floor_intCast_div_natCast n 2
  rw [residue, hfloor, Int.emod_def, Int.cast_sub, Int.cast_mul, Int.cast_ofNat]

/-! ### Remainders of doubles -/

/-- `rem` is a remainder of doubles that has the sign of the divisor: wherever the exact one is the
value of a double, that is its value. -/
def IsRemainder (rem : Float → Float → Float) : Prop :=
  ∀ ⦃x y r v w⦄, value? x = some v → value? y = some w → w ≠ 0 →
    value? r = some (residue v w) → value? (rem x y) = some (residue v w)

/-- The remainder of two finite doubles, the second of which is not zero. It is rounded where it is
not exact. -/
def remainder (x y : Float) : Float :=
  match value? x, value? y with
  | some v, some w =>
    let r := |residue v w|
    ofMagnitude (isNegative y) (nearest r.num.natAbs r.den)
  | _, _ => nan

/-- A ratio that is the value of a finite magnitude is rounded to that magnitude. -/
theorem nearest_of_level {n d b : ℕ} (hd : 0 < d) (hb : b < infinityMagnitude)
    (h : (n / d : ℚ) = level b) : nearest n d = b := by
  have hround := rounds_nearest n hd
  rw [h] at hround
  exact (ofMagnitude_inj (nearest_le_infinity n d) hb.le).mp (hround.unique (rounds_level hb))

theorem nearest_of_value (h : value? x = some v) :
    nearest |v|.num.natAbs |v|.den = magnitude x := by
  refine nearest_of_level |v|.den_pos (lt_infinity_of_value h) ?_
  rw [← abs_of_value h, Nat.cast_natAbs, abs_of_nonneg (Rat.num_nonneg.mpr (abs_nonneg v)),
    Rat.num_div_den]

/-- **There is a remainder.** -/
theorem isRemainder_remainder : IsRemainder remainder := by
  intro x y r v w hx hy hw hr
  have hrem : remainder x y = ofMagnitude (isNegative y) (magnitude r) := by
    simp only [remainder, hx, hy, nearest_of_value hr]
  rw [hrem]
  by_cases hzero : residue v w = 0
  · -- zero is the value of both signs
    rw [hzero, value?_eq_zero_iff] at hr ⊢
    rw [hr, magnitude_ofMagnitude (Nat.zero_le _)]
  · have hsign : isNegative y = isNegative r := by
      rw [Bool.eq_iff_iff, isNegative_iff_of_value hy hw, isNegative_iff_of_value hr hzero,
        residue_neg_iff hw hzero]
    rw [hsign, ← eq_ofMagnitude (number_of_value hr).1, hr]

/-! ### Whole numbers -/

/-- A double is determined by its value, unless that is zero. -/
theorem eq_of_value (hx : value? x = some v) (hy : value? y = some v) (hv : v ≠ 0) : x = y := by
  refine eq_of_magnitude ?_ ?_
  · rw [Bool.eq_iff_iff, isNegative_iff_of_value hx hv, isNegative_iff_of_value hy hv]
  · have hlevel : level (magnitude x) = level (magnitude y) :=
      (abs_of_value hx).symm.trans (abs_of_value hy)
    exact Nat.le_antisymm (level_le.mp hlevel.le) (level_le.mp hlevel.ge)

/-- A positive number up to `2^53` can be shifted so that it fills a significand. -/
theorem exists_shift {m : ℕ} (hpos : 0 < m) (h : m ≤ 2 ^ 53) :
    ∃ k ≤ 1074, binade ≤ m * 2 ^ k ∧ m * 2 ^ k ≤ 2 * binade := by
  have hbinade : binade = 2 ^ 52 := rfl
  have hle := Nat.log2_self_le hpos.ne'
  have hlt := Nat.lt_log2_self (n := m)
  rcases Nat.lt_or_ge m.log2 53 with hlog | hlog
  · obtain ⟨k, hk⟩ : ∃ k, 52 = m.log2 + k := Nat.exists_eq_add_of_le (Nat.le_of_lt_succ hlog)
    refine ⟨k, by omega, ?_, ?_⟩
    · rw [hbinade, hk, pow_add]
      exact Nat.mul_le_mul_right _ hle
    · calc m * 2 ^ k ≤ 2 ^ (m.log2 + 1) * 2 ^ k := Nat.mul_le_mul_right _ hlt.le
        _ = 2 * binade := by rw [hbinade, hk]; ring
  · have hge : 2 ^ 53 ≤ m := (Nat.pow_le_pow_right Nat.two_pos hlog).trans hle
    exact ⟨0, by omega, by omega, by omega⟩

/-- Every whole number up to `2^53` is the value of a magnitude. -/
theorem exists_level_eq {m : ℕ} (h : m ≤ 2 ^ 53) : ∃ b < infinityMagnitude, level b = m := by
  rcases Nat.eq_zero_or_pos m with rfl | hpos
  · exact ⟨0, by decide, by rw [level_zero, Nat.cast_zero]⟩
  obtain ⟨k, hk, hlow, hhigh⟩ := exists_shift hpos h
  refine ⟨(1074 - k) * binade + m * 2 ^ k, ?_, ?_⟩
  · have hmul : (1074 - k) * binade ≤ 1074 * binade := Nat.mul_le_mul_right _ (Nat.sub_le _ _)
    simp only [infinityMagnitude, binade] at *
    omega
  · rw [level_eq_natCast_iff, units_eq hhigh (.inr hlow), whole_significand_iff (Nat.sub_le _ _),
      Nat.sub_sub_self hk]

/-- **Whole numbers up to `2^53` are exact**, of both signs. -/
theorem value?_ofInt {n : ℤ} (h : n.natAbs ≤ 2 ^ 53) : value? (ofInt n) = some (n : ℚ) := by
  obtain ⟨b, hb, hlevel⟩ := exists_level_eq h
  have hnearest : nearest n.natAbs 1 = b :=
    nearest_of_level one_pos hb (by rw [hlevel, Nat.cast_one, div_one])
  rw [value?_eq, ofInt, hnearest, magnitude_ofMagnitude hb.le, isNegative_ofMagnitude hb.le,
    if_pos hb, hlevel, Nat.cast_natAbs]
  rcases lt_or_ge n 0 with hn | hn
  · simp [hn, abs_of_neg hn]
  · simp [hn.not_gt, abs_of_nonneg hn]

theorem value?_one : value? one = some 1 := by
  have hone : one = ofInt 1 := by decide +kernel
  rw [hone, value?_ofInt (by decide), Int.cast_one]

/-- What has the value of a remainder by two is one if that remainder is. -/
theorem beq_one_iff {n : ℤ} (h : value? x = some ((n % 2 : ℤ) : ℚ)) : x == one ↔ Odd n := by
  rw [Int.odd_iff]
  rcases Int.emod_two_eq_zero_or_one n with hn | hn
  · rw [hn, Int.cast_zero, value?_eq_zero_iff] at h
    have hnumber : ¬ x.isNaN := le_infinity_iff.mp (h ▸ Nat.zero_le _)
    rw [eq_ofMagnitude hnumber, h, hn]
    cases isNegative x <;> decide +kernel
  · rw [hn, Int.cast_one] at h
    rw [eq_of_value h value?_one one_ne_zero, hn]
    decide +kernel

/-! ### Odd doubles -/

/-- Whether a finite double is a whole number: a number of times the units of one. -/
def isWhole (x : Float) : Bool := units (magnitude x) % 2 ^ 1074 == 0

theorem isWhole_iff (h : x.isFinite) : isWhole x ↔ ∃ n : ℤ, value? x = some (n : ℚ) := by
  rw [isWhole, beq_iff_eq]
  constructor
  · intro hmod
    have hunits := Nat.div_mul_cancel (Nat.dvd_of_mod_eq_zero hmod)
    exact ⟨_, whole_of_units (isFinite_iff.mp h) hunits.symm⟩
  · rintro ⟨n, hn⟩
    rw [units_of_whole hn, Nat.mul_mod_left]

/-- The test for odd whole numbers by the remainder `rem`. -/
def leavesOne (rem : Float → Float → Float) (x : Float) : Bool :=
  x.isFinite && isWhole x && rem x (ofInt 2) == one

theorem IsRemainder.value?_two (h : IsRemainder rem) {n : ℤ} (hx : value? x = some (n : ℚ)) :
    value? (rem x (ofInt 2)) = some ((n % 2 : ℤ) : ℚ) := by
  have hexact : value? (ofInt (n % 2)) = some (residue n 2) := by
    rw [residue_two, value?_ofInt (by omega)]
  rw [← residue_two]
  exact h hx (value?_ofInt (by decide)) two_ne_zero hexact

/-- **The test by the remainder is right**, with any remainder that has the sign of the divisor. -/
theorem leavesOne_iff (h : IsRemainder rem) : leavesOne rem x ↔ IsOdd x := by
  unfold leavesOne
  rw [Bool.and_eq_true, Bool.and_eq_true]
  constructor
  · rintro ⟨⟨hfin, hwhole⟩, hone⟩
    obtain ⟨n, hn⟩ := (isWhole_iff hfin).mp hwhole
    exact ⟨n, (beq_one_iff (h.value?_two hn)).mp hone, hn⟩
  · rintro ⟨n, hodd, hn⟩
    have hfin : x.isFinite := exists_value_iff.mp ⟨n, hn⟩
    exact ⟨⟨hfin, (isWhole_iff hfin).mpr ⟨n, hn⟩⟩, (beq_one_iff (h.value?_two hn)).mpr hodd⟩

/-- An odd double is less than `2^53`: in the binades above, the significand has no bit of weight
one. -/
theorem IsOdd.abs_lt (h : IsOdd x) (hv : value? x = some v) : |v| < 2 ^ 53 := by
  obtain ⟨-, m, hm, hunits⟩ := isOdd_iff.mp h
  obtain ⟨s, u, hb, hu, hs⟩ := exists_significand (magnitude x)
  rw [hb, units_eq hu.le hs] at hunits
  have hle : s ≤ 1074 := (odd_significand_iff.mp ⟨m, hm, hunits⟩).1
  have hlt : m < 2 ^ 53 :=
    calc m ≤ m * 2 ^ (1074 - s) := Nat.le_mul_of_pos_right m (Nat.two_pow_pos _)
      _ = u := ((whole_significand_iff hle).mp hunits).symm
      _ < 2 ^ 53 := hu
  have hlevel : level (magnitude x) = m := by
    rw [level_eq_natCast_iff, hb, units_eq hu.le hs, hunits]
  rw [abs_of_value hv, hlevel]
  exact_mod_cast hlt

/-- **The test for odd numbers is right.** It holds of a double exactly if that is finite and has
the value `2k + 1` for some whole number `k`, and so it agrees with the test by the remainder. It
does not hold from `2^53` on, and neither of an infinity nor of what is no number. -/
theorem isOddInteger_iff_value (h : IsRemainder rem) (x : Float) :
    (isOddInteger x ↔ x.isFinite ∧ ∃ k : ℤ, value? x = some ((2 * k + 1 : ℤ) : ℚ)) ∧
    isOddInteger x = leavesOne rem x ∧
    (∀ v, value? x = some v → 2 ^ 53 ≤ |v| → isOddInteger x = false) ∧
    (x.isInf ∨ x.isNaN → isOddInteger x = false) := by
  have hfalse (hx : ¬ IsOdd x) : isOddInteger x = false :=
    Bool.eq_false_iff.mpr (isOddInteger_iff.not.mpr hx)
  refine ⟨?_, ?_, fun v hv hle => hfalse fun hx => ?_, fun hx => hfalse ?_⟩
  · rw [isOddInteger_iff]
    constructor
    · rintro ⟨n, ⟨k, rfl⟩, hn⟩
      exact ⟨exists_value_iff.mp ⟨_, hn⟩, k, hn⟩
    · rintro ⟨-, k, hk⟩
      exact ⟨_, odd_two_mul_add_one k, hk⟩
  · rw [Bool.eq_iff_iff, isOddInteger_iff, leavesOne_iff h]
  · exact (hx.abs_lt hv).not_ge hle
  · rintro ⟨n, -, hn⟩
    obtain ⟨hnan, hinf⟩ := number_of_value hn
    exact hx.elim hinf hnan

/-- The number `-3` is odd and its remainder by two is one; `-2^53` is not odd. -/
theorem isOddInteger_iff_value_negative :
    IsRemainder remainder ∧ isOddInteger (ofInt (-3)) ∧ leavesOne remainder (ofInt (-3)) ∧
    value? (ofInt (-2 ^ 53)) = some (-2 ^ 53) ∧ isOddInteger (ofInt (-2 ^ 53)) = false ∧
    isOddInteger (-infinity) = false ∧ isOddInteger nan = false := by
  obtain ⟨hodd, hleaves, -⟩ := isOddInteger_iff_value isRemainder_remainder (ofInt (-3))
  obtain ⟨-, -, hlarge, -⟩ := isOddInteger_iff_value isRemainder_remainder (ofInt (-2 ^ 53))
  obtain ⟨-, -, -, hinf⟩ := isOddInteger_iff_value isRemainder_remainder (-infinity)
  obtain ⟨-, -, -, hnan⟩ := isOddInteger_iff_value isRemainder_remainder nan
  have hthree : isOddInteger (ofInt (-3)) :=
    hodd.mpr ⟨by decide +kernel, -2, value?_ofInt (by decide)⟩
  have hvalue : value? (ofInt (-2 ^ 53)) = some (-2 ^ 53) := by
    rw [value?_ofInt (by decide)]
    norm_num
  refine ⟨isRemainder_remainder, hthree, hleaves ▸ hthree, hvalue, hlarge _ hvalue ?_,
    hinf (.inl (by decide +kernel)), hnan (.inr (by decide +kernel))⟩
  rw [abs_neg]
  exact le_abs_self _

end Reckoner.Binary64
