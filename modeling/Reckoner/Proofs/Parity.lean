import Reckoner.Proofs.Kinds

/-!
# Odd doubles

A double is an odd whole number (`IsOdd`) if its units are an odd number of times those of one. The
test reads this off the significand: the bit of weight one is set and none below it is
(`isOddInteger_iff`). In the binades above `2^53` the lowest bit of the significand weighs two or
more, and in those below one even the highest weighs less than one.
-/

namespace Reckoner.Binary64

/-- The value of `x` is an odd whole number. -/
def IsOdd (x : Float) : Prop := ∃ n : ℤ, Odd n ∧ value? x = some (n : ℚ)

theorem isOdd_iff_of_value {x : Float} {n : ℤ} (h : value? x = some (n : ℚ)) : IsOdd x ↔ Odd n := by
  refine ⟨?_, fun hn => ⟨n, hn, h⟩⟩
  rintro ⟨m, hm, hv⟩
  rwa [← Int.cast_injective (Option.some.inj (hv.symm.trans h))]

/-- The values that are whole numbers, by the units of one. -/
theorem level_eq_natCast_iff {b n : ℕ} : level b = n ↔ units b = n * 2 ^ 1074 := by
  have hunit : (2 : ℚ) ^ 1074 * unit = 1 := by
    rw [unit, ← zpow_natCast, ← zpow_add₀ two_ne_zero]
    rfl
  have hn : (n : ℚ) = (n * 2 ^ 1074 : ℕ) * unit := by
    rw [Nat.cast_mul, Nat.cast_pow, Nat.cast_ofNat, mul_assoc, hunit, mul_one]
  rw [level, hn, mul_right_cancel_iff_of_pos unit_pos, Nat.cast_inj]

theorem units_of_whole {x : Float} {n : ℤ} (h : value? x = some (n : ℚ)) :
    units (magnitude x) = n.natAbs * 2 ^ 1074 := by
  rw [← level_eq_natCast_iff, ← abs_of_value h, Nat.cast_natAbs, Int.cast_abs]

theorem whole_of_units {x : Float} {m : ℕ} (hfin : magnitude x < infinityMagnitude)
    (h : units (magnitude x) = m * 2 ^ 1074) :
    value? x = some ((if isNegative x then -m else m : ℤ) : ℚ) := by
  rw [value?_eq, if_pos hfin, level_eq_natCast_iff.mpr h]
  split <;> simp

/-- An odd double has the units of an odd number of ones. -/
theorem isOdd_iff {x : Float} : IsOdd x ↔
    magnitude x < infinityMagnitude ∧ ∃ m, Odd m ∧ units (magnitude x) = m * 2 ^ 1074 := by
  constructor
  · rintro ⟨n, hn, hv⟩
    exact ⟨lt_infinity_of_value hv, n.natAbs, Int.natAbs_odd.mpr hn, units_of_whole hv⟩
  · rintro ⟨hfin, m, hm, hunits⟩
    have hodd : Odd (m : ℤ) := (Int.odd_coe_nat m).mpr hm
    refine ⟨_, ?_, whole_of_units hfin hunits⟩
    split
    · exact hodd.neg
    · exact hodd

/-- In an odd multiple of `2^t` the bit of weight `2^t` is set, and none below it. -/
theorem exists_odd_mul_iff {u t : ℕ} :
    (∃ m, Odd m ∧ u = m * 2 ^ t) ↔ u % 2 ^ (t + 1) = 2 ^ t := by
  constructor
  · rintro ⟨m, ⟨k, rfl⟩, rfl⟩
    have hsplit : (2 * k + 1) * 2 ^ t = 2 ^ t + 2 ^ (t + 1) * k := by ring
    rw [hsplit, Nat.add_mul_mod_self_left]
    exact Nat.mod_eq_of_lt (Nat.pow_lt_pow_right one_lt_two (Nat.lt_succ_self t))
  · intro h
    refine ⟨2 * (u / 2 ^ (t + 1)) + 1, ⟨_, rfl⟩, ?_⟩
    have hdiv := Nat.div_add_mod u (2 ^ (t + 1))
    rw [h] at hdiv
    calc u = 2 ^ (t + 1) * (u / 2 ^ (t + 1)) + 2 ^ t := hdiv.symm
      _ = _ := by ring

/-- The significand of a whole number, `s` binades above the lowest. -/
theorem whole_significand_iff {s u m : ℕ} (hs : s ≤ 1074) :
    u * 2 ^ s = m * 2 ^ 1074 ↔ u = m * 2 ^ (1074 - s) := by
  have hsplit : m * 2 ^ 1074 = m * 2 ^ (1074 - s) * 2 ^ s := by
    rw [mul_assoc, ← pow_add, Nat.sub_add_cancel hs]
  rw [hsplit, mul_left_inj' (pow_ne_zero s two_ne_zero)]

/-- The significand of an odd double, `s` binades above the lowest. -/
theorem odd_significand_iff {s u : ℕ} :
    (∃ m, Odd m ∧ u * 2 ^ s = m * 2 ^ 1074) ↔
      s ≤ 1074 ∧ u % 2 ^ (1074 - s + 1) = 2 ^ (1074 - s) := by
  rw [← exists_odd_mul_iff]
  rcases le_or_gt s 1074 with hs | hs
  · simp only [hs, whole_significand_iff hs, true_and]
  · -- the lowest bit of the significand weighs two or more
    refine iff_of_false ?_ fun h => hs.not_ge h.1
    rintro ⟨m, hm, h⟩
    obtain ⟨k, rfl⟩ : ∃ k, s = k + 1 + 1074 := ⟨s - 1075, by omega⟩
    rw [pow_add, ← mul_assoc, mul_left_inj' (pow_ne_zero _ two_ne_zero), pow_succ', mul_left_comm]
      at h
    exact Nat.not_even_iff_odd.mpr hm (h ▸ even_two_mul _)

/-- The units of a magnitude that is not in the lowest binade. -/
theorem units_of_exponent {b s : ℕ} (h : b / binade = s + 1) :
    units b = (binade + b % binade) * 2 ^ s := by
  have hf : b % binade < binade := Nat.mod_lt _ (by decide)
  have hb : s * binade + (binade + b % binade) = b := by
    conv_rhs => rw [← Nat.div_add_mod b binade, h]
    ring
  have hunits := units_eq (s := s) (u := binade + b % binade) (by omega)
    (.inr (Nat.le_add_right _ _))
  rwa [hb] at hunits

/-- Below the least normal number there is no odd one. -/
theorem not_odd_of_lowest {b : ℕ} (h : b / binade = 0) :
    ¬ ∃ m, Odd m ∧ units b = m * 2 ^ 1074 := by
  rintro ⟨m, hm, hunits⟩
  have hlt : b < binade := (Nat.div_eq_zero_iff_lt (by decide)).mp h
  rw [show units b = b from if_pos (by omega)] at hunits
  have hle : 2 ^ 52 ≤ 2 ^ 1074 := pow_le_pow_right₀ one_le_two (by decide)
  exact (hunits ▸ hlt.trans_le hle).not_ge (Nat.le_mul_of_pos_left _ hm.pos)

/-- **The test for odd numbers is right.** -/
theorem isOddInteger_iff {x : Float} : isOddInteger x ↔ IsOdd x := by
  rw [isOdd_iff]
  simp only [isOddInteger, Bool.and_eq_true, decide_eq_true_eq, beq_iff_eq, Nat.shiftLeft_eq,
    one_mul]
  have hf : magnitude x % binade < binade := Nat.mod_lt _ (by decide)
  rcases hs : magnitude x / binade with _ | s
  · -- all bits of the significand weigh less than one
    refine iff_of_false (fun h => ?_) fun h => not_odd_of_lowest hs h.2
    have ht : 53 ≤ 1075 - 0 := by decide
    generalize 1075 - 0 = t at h ht
    have hle : 2 ^ 53 ≤ 2 ^ t := Nat.pow_le_pow_right Nat.two_pos ht
    have hlt : binade + magnitude x % binade < 2 ^ 53 := Nat.add_lt_add_left hf binade
    exact (h.2 ▸ Nat.mod_le _ _).not_gt (hlt.trans_le hle)
  · have hfin (h : s ≤ 1074) : magnitude x < infinityMagnitude := by
      have hb := Nat.div_add_mod (magnitude x) binade
      rw [hs] at hb
      simp only [infinityMagnitude, binade] at *
      omega
    have hle : s + 1 ≤ 1075 ↔ s ≤ 1074 := Nat.succ_le_succ_iff
    have hsub : 1075 - (s + 1) = 1074 - s := Nat.succ_sub_succ 1074 s
    rw [units_of_exponent hs, odd_significand_iff, hle, hsub, pow_succ']
    exact ⟨fun h => ⟨hfin h.1, h⟩, And.right⟩

instance (x : Float) : Decidable (IsOdd x) := decidable_of_iff _ isOddInteger_iff

end Reckoner.Binary64
