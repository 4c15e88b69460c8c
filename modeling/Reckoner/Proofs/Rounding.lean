import Reckoner.Proofs.Doubles

/-!
# Correct rounding

A number that is not negative is rounded to the nearest double, of two equally near ones to the one
with the even significand, and to infinity if it is not below the middle between the greatest double
and `2^1024` (`Rounds`). There is one such double (`Rounds.unique`), and the rounding of a ratio
finds it (`rounds_nearest`).

What has to be shown is local: the ratio lies between the middles to the two next magnitudes, and on
none of them if the magnitude is odd (`IsNearest`). In whole units this is the rounding of one
quotient by the scale of its binade (`isNearest_significand`). The significand may carry into the
next binade, where the step above is twice as great, and at a power of two the step below is half as
great (`le_units_succ`, `units_pred`). That no other double is nearer follows since the values grow
with the magnitude (`IsNearest.closest`).
-/

namespace Reckoner.Binary64

/-! ### Quotients -/

/-- A rounded quotient is at most one half away from the exact one, and less if it is odd. -/
theorem roundDiv_spec (n : Nat) {d : Nat} (hd : 0 < d) :
    (2 * n ≤ (2 * roundDiv n d + 1) * d ∧ 2 * roundDiv n d * d ≤ 2 * n + d) ∧
      (roundDiv n d % 2 = 1 →
        2 * n < (2 * roundDiv n d + 1) * d ∧ 2 * roundDiv n d * d < 2 * n + d) := by
  have hn := Nat.div_add_mod n d
  rw [Nat.mul_comm] at hn
  have hr := Nat.mod_lt n hd
  generalize hq : n / d = q at hn
  have hcases : (roundDiv n d = q ∧ 2 * (n % d) < d) ∨
      (roundDiv n d = q + 1 ∧ d < 2 * (n % d)) ∨
      (roundDiv n d = q + q % 2 ∧ 2 * (n % d) = d) := by
    unfold roundDiv
    rw [hq]
    dsimp only
    split
    · exact .inl ⟨rfl, ‹_›⟩
    · split
      · exact .inr (.inl ⟨rfl, ‹_›⟩)
      · exact .inr (.inr ⟨rfl, by omega⟩)
  rcases hcases with ⟨h, hlt⟩ | ⟨h, hlt⟩ | ⟨h, heq⟩
  · rw [h]
    simp only [Nat.mul_assoc, Nat.add_mul, Nat.one_mul]
    omega
  · rw [h]
    simp only [Nat.mul_assoc, Nat.add_mul, Nat.one_mul, Nat.mul_add]
    omega
  · rcases Nat.mod_two_eq_zero_or_one q with h2 | h2 <;> rw [h, h2]
    · simp only [Nat.mul_assoc, Nat.add_mul, Nat.one_mul, Nat.add_zero]
      omega
    · simp only [Nat.mul_assoc, Nat.add_mul, Nat.one_mul, Nat.mul_add]
      omega

theorem roundDiv_le {n m d : Nat} (hd : 0 < d) (h : n < m * d) : roundDiv n d ≤ m := by
  have hspec := (roundDiv_spec n hd).1.2
  by_contra hlt
  have hle : (m + 1) * d ≤ roundDiv n d * d := Nat.mul_le_mul_right d (by omega)
  simp only [Nat.mul_assoc, Nat.add_mul, Nat.one_mul] at hspec hle
  omega

theorem le_roundDiv {n m d : Nat} (hd : 0 < d) (h : m * d ≤ n) : m ≤ roundDiv n d := by
  have hspec := (roundDiv_spec n hd).1.1
  by_contra hlt
  have hle : (roundDiv n d + 1) * d ≤ m * d := Nat.mul_le_mul_right d (by omega)
  simp only [Nat.mul_assoc, Nat.add_mul, Nat.one_mul] at hspec hle
  omega

/-! ### Magnitudes -/

/-- `b` is the magnitude nearest to `n / d` units: that number of units lies between the middles to
the next magnitudes, and on none of them if `b` is odd. -/
structure IsNearest (n d b : Nat) : Prop where
  above : 2 * n ≤ (units b + units (b + 1)) * d
  below : ∀ a, a + 1 = b → (units a + units b) * d ≤ 2 * n
  odd : b % 2 = 1 → 2 * n < (units b + units (b + 1)) * d ∧
    ∀ a, a + 1 = b → (units a + units b) * d < 2 * n

/-- The scale of a quotient: the quotient has 53 bits before the point, unless it is too small. -/
theorem scale_spec (n : Nat) {d : Nat} (hd : 0 < d) :
    n < 2 * binade * (d <<< ((n / d).log2 - 52)) ∧
      ((n / d).log2 - 52 = 0 ∨ binade * (d <<< ((n / d).log2 - 52)) ≤ n) := by
  have hbinade : binade = 2 ^ 52 := rfl
  generalize hs : (n / d).log2 - 52 = s
  rw [Nat.shiftLeft_eq]
  constructor
  · have hlog : n / d < 2 ^ (s + 53) :=
      Nat.lt_log2_self.trans_le (Nat.pow_le_pow_right Nat.two_pos (by omega))
    calc n < 2 ^ (s + 53) * d := (Nat.div_lt_iff_lt_mul hd).mp hlog
      _ = 2 * binade * (d * 2 ^ s) := by rw [hbinade]; ring
  · rcases Nat.eq_zero_or_pos s with h0 | hpos
    · exact .inl h0
    · have hne : n / d ≠ 0 := by
        intro h0
        rw [h0, Nat.log2_zero] at hs
        omega
      have hlog : 2 ^ (s + 52) ≤ n / d := by
        have h := Nat.log2_self_le hne
        rwa [show (n / d).log2 = s + 52 by omega] at h
      refine .inr ?_
      calc binade * (d * 2 ^ s) = 2 ^ (s + 52) * d := by rw [hbinade]; ring
        _ ≤ n := (Nat.le_div_iff_mul_le hd).mp hlog

section Significand

variable {s u : Nat} (hu : u ≤ 2 * binade) (hs : s = 0 ∨ binade ≤ u)
include hu hs

/-- The next magnitude is at least one step up, and two if the significand has carried. -/
theorem le_units_succ : (u + 1) * 2 ^ s ≤ units (s * binade + u + 1) := by
  rcases Nat.lt_or_ge u (2 * binade) with hlt | hge
  · have hs' : s = 0 ∨ binade ≤ u + 1 := hs.imp_right Nat.le_succ_of_le
    rw [Nat.add_assoc, units_eq hlt hs']
  · obtain rfl : u = 2 * binade := Nat.le_antisymm hu hge
    have hb : s * binade + 2 * binade + 1 = (s + 1) * binade + (binade + 1) := by ring
    have hone : binade + 1 ≤ 2 * binade := by norm_num [binade]
    rw [hb, units_eq hone (.inr (Nat.le_succ _))]
    calc (2 * binade + 1) * 2 ^ s ≤ (2 * binade + 2) * 2 ^ s :=
          Nat.mul_le_mul_right _ (Nat.le_succ _)
      _ = (binade + 1) * 2 ^ (s + 1) := by ring

/-- The magnitude before is one step down, unless the significand is a power of two. Then the step
is half as great. -/
theorem units_pred {a : Nat} (ha : a + 1 = s * binade + u) :
    (∃ v, u = v + 1 ∧ units a = v * 2 ^ s) ∨ (0 < s ∧ u = binade) := by
  by_cases hlow : s = 0 ∨ binade < u
  · obtain ⟨v, rfl⟩ : ∃ v, u = v + 1 := by
      refine Nat.exists_eq_succ_of_ne_zero ?_
      rintro rfl
      rcases hlow with rfl | hlow <;> omega
    obtain rfl : a = s * binade + v := by omega
    exact .inl ⟨v, rfl, units_eq (Nat.le_of_succ_le hu) (hlow.imp_right Nat.le_of_lt_succ)⟩
  · exact .inr (by omega)

end Significand

/-- A significand that is a rounded quotient gives the nearest magnitude. -/
theorem isNearest_significand {n d s : Nat} (hd : 0 < d) (hlt : n < 2 * binade * (d <<< s))
    (hge : s = 0 ∨ binade * (d <<< s) ≤ n) :
    IsNearest n d (s * binade + roundDiv n (d <<< s)) := by
  have hD : d <<< s = 2 ^ s * d := by rw [Nat.shiftLeft_eq, Nat.mul_comm]
  have hpos : 0 < d <<< s := by
    rw [hD]
    positivity
  have hspec := roundDiv_spec n hpos
  have hu : roundDiv n (d <<< s) ≤ 2 * binade := roundDiv_le hpos hlt
  have hs : s = 0 ∨ binade ≤ roundDiv n (d <<< s) := hge.imp_right (le_roundDiv hpos)
  generalize roundDiv n (d <<< s) = u at *
  rw [hD] at hspec hge
  have hparity : (s * binade + u) % 2 = u % 2 := by
    rw [binade]
    omega
  have habove : (2 * u + 1) * (2 ^ s * d) ≤
      (units (s * binade + u) + units (s * binade + u + 1)) * d := by
    rw [units_eq hu hs]
    calc (2 * u + 1) * (2 ^ s * d) = (u * 2 ^ s + (u + 1) * 2 ^ s) * d := by ring
      _ ≤ _ := Nat.mul_le_mul_right d (Nat.add_le_add_left (le_units_succ hu hs) _)
  have hbelow (a : Nat) (ha : a + 1 = s * binade + u) :
      (units a + units (s * binade + u)) * d + 2 ^ s * d = 2 * u * (2 ^ s * d) ∨
        (u % 2 = 0 ∧ (units a + units (s * binade + u)) * d ≤ 2 * n) := by
    rcases units_pred hu hs ha with ⟨v, rfl, hv⟩ | ⟨h0, rfl⟩
    · rw [units_eq hu hs, hv]
      exact .inl (by ring)
    · -- the quotient has not been rounded up to a power of two
      have hle : units a + units (s * binade + binade) ≤ 2 * units (s * binade + binade) := by
        have := ha ▸ units_lt_succ a
        omega
      refine .inr ⟨rfl, ?_⟩
      calc (units a + units (s * binade + binade)) * d
          ≤ 2 * units (s * binade + binade) * d := Nat.mul_le_mul_right d hle
        _ = 2 * (binade * (2 ^ s * d)) := by rw [units_eq hu hs]; ring
        _ ≤ 2 * n := Nat.mul_le_mul_left 2 (hge.resolve_left h0.ne')
  refine ⟨hspec.1.1.trans habove, fun a ha => ?_, fun hodd => ⟨?_, fun a ha => ?_⟩⟩
  · rcases hbelow a ha with h | ⟨-, h⟩
    · omega
    · exact h
  · exact (hspec.2 (hparity ▸ hodd)).1.trans_le habove
  · have hstrict := (hspec.2 (hparity ▸ hodd)).2
    rcases hbelow a ha with h | ⟨h, -⟩ <;> omega

/-- **Rounding gives the nearest magnitude**, unless that is beyond infinity. -/
theorem nearest_spec (n : Nat) {d : Nat} (hd : 0 < d) :
    ∃ b, IsNearest (n <<< 1074) d b ∧ nearest n d = min b infinityMagnitude := by
  obtain ⟨hlt, hge⟩ := scale_spec (n <<< 1074) hd
  exact ⟨_, isNearest_significand hd hlt hge, rfl⟩

/-! ### Levels -/

theorem unit_pos : 0 < unit := zpow_pos two_pos _

theorem level_lt {a b : Nat} : level a < level b ↔ a < b := by
  rw [level, level, mul_lt_mul_iff_left₀ unit_pos, Nat.cast_lt, units_strictMono.lt_iff_lt]

theorem level_le {a b : Nat} : level a ≤ level b ↔ a ≤ b := by
  rw [← not_lt, level_lt, Nat.not_lt]

theorem level_zero : level 0 = 0 := by
  rw [level, units_zero, Nat.cast_zero, zero_mul]

theorem level_one : level 1 = unit := by
  rw [level, show units 1 = 1 from rfl, Nat.cast_one, one_mul]

/-- The value of a significand that is `s` binades above the lowest. -/
theorem level_eq {s u : Nat} (hu : u ≤ 2 * binade) (hs : binade ≤ u) :
    level (s * binade + u) = u * 2 ^ ((s : ℤ) - 1074) := by
  rw [level, units_eq hu (.inr hs), unit, Nat.cast_mul, Nat.cast_pow, Nat.cast_ofNat, mul_assoc,
    ← zpow_natCast, ← zpow_add₀ two_ne_zero, sub_eq_add_neg]

/-- The greatest double and `2^1024`. -/
theorem level_infinity :
    level (infinityMagnitude - 1) + level infinityMagnitude = 2 * (2 ^ 1024 - 2 ^ 970) := by
  have hmax : infinityMagnitude - 1 = 2045 * binade + (2 * binade - 1) := rfl
  have hinf : infinityMagnitude = 2046 * binade + binade := rfl
  have hbinade : (binade : ℚ) = 2 ^ 52 := by norm_num [binade]
  have h2 : (2 : ℚ) ^ (((2045 : ℕ) : ℤ) - 1074) = 2 * 2 ^ 970 := by
    rw [show ((2045 : ℕ) : ℤ) - 1074 = ((970 + 1 : ℕ) : ℤ) from rfl, zpow_natCast, pow_succ']
  have h4 : (2 : ℚ) ^ (((2046 : ℕ) : ℤ) - 1074) = 4 * 2 ^ 970 := by
    rw [show ((2046 : ℕ) : ℤ) - 1074 = ((970 + 2 : ℕ) : ℤ) from rfl, zpow_natCast, pow_add,
      mul_comm, show (2 : ℚ) ^ 2 = 4 by norm_num]
  have h54 : (2 : ℚ) ^ 1024 = 2 ^ 54 * 2 ^ 970 := by rw [← pow_add]
  rw [hmax, hinf, level_eq (by norm_num [binade]) (by norm_num [binade]),
    level_eq (by norm_num [binade]) le_rfl, h2, h4, h54, Nat.cast_sub (by norm_num [binade]),
    Nat.cast_mul, hbinade]
  generalize (2 : ℚ) ^ 970 = t
  push_cast
  ring

section Quotient

variable {n d m : Nat}

theorem shiftLeft_mul_zpow (n s : Nat) : ((n <<< s : ℕ) : ℚ) * 2 ^ (-(s : ℤ)) = n := by
  rw [Nat.shiftLeft_eq, Nat.cast_mul, Nat.cast_pow, Nat.cast_ofNat, zpow_neg, zpow_natCast]
  exact mul_inv_cancel_right₀ (pow_ne_zero s two_ne_zero) _

/-- A quotient in units. -/
theorem two_mul_div_eq : (2 : ℚ) * (n / d) = (2 * (n <<< 1074) : ℕ) * unit / d := by
  have hn : ((n <<< 1074 : ℕ) : ℚ) * unit = n := shiftLeft_mul_zpow n 1074
  rw [Nat.cast_mul, mul_assoc, hn, Nat.cast_ofNat, mul_div_assoc]

variable (hd : 0 < d)
include hd

theorem two_mul_div_le_iff : (2 : ℚ) * (n / d) ≤ m * unit ↔ 2 * (n <<< 1074) ≤ m * d := by
  have hd' : (0 : ℚ) < d := Nat.cast_pos.mpr hd
  rw [two_mul_div_eq, div_le_iff₀ hd', mul_right_comm, mul_le_mul_iff_left₀ unit_pos]
  exact_mod_cast Iff.rfl

theorem le_two_mul_div_iff : m * unit ≤ (2 : ℚ) * (n / d) ↔ m * d ≤ 2 * (n <<< 1074) := by
  have hd' : (0 : ℚ) < d := Nat.cast_pos.mpr hd
  rw [two_mul_div_eq, le_div_iff₀ hd', mul_right_comm, mul_le_mul_iff_left₀ unit_pos]
  exact_mod_cast Iff.rfl

end Quotient

/-! ### The nearest double -/

/-- Of two numbers the lesser one is not further away from what lies before their middle, and is as
far only from the middle. -/
theorem abs_sub_le_of_lt {p r q : ℚ} (h : p < r) (hq : 2 * q ≤ p + r) :
    |p - q| ≤ |r - q| ∧ (|p - q| = |r - q| → 2 * q = p + r) := by
  have hr : |r - q| = r - q := abs_of_pos (by linarith)
  rw [hr]
  rcases abs_cases (p - q) with ⟨hp, -⟩ | ⟨hp, -⟩
  · exact ⟨by linarith, fun _ => by linarith⟩
  · exact ⟨by linarith, fun _ => by linarith⟩

/-- The same of the greater one. -/
theorem abs_sub_le_of_gt {p r q : ℚ} (h : r < p) (hq : p + r ≤ 2 * q) :
    |p - q| ≤ |r - q| ∧ (|p - q| = |r - q| → 2 * q = p + r) := by
  have hneg := abs_sub_le_of_lt (p := -p) (r := -r) (q := -q) (neg_lt_neg h) (by linarith)
  rw [neg_sub_neg, neg_sub_neg, abs_sub_comm q p, abs_sub_comm q r] at hneg
  exact ⟨hneg.1, fun he => by linarith [hneg.2 he]⟩

namespace IsNearest

variable {n d b : Nat} (h : IsNearest (n <<< 1074) d b) (hd : 0 < d)
include h hd

theorem level_above : (2 : ℚ) * (n / d) ≤ level b + level (b + 1) := by
  rw [level, level, ← add_mul, ← Nat.cast_add]
  exact (two_mul_div_le_iff hd).mpr h.above

theorem level_below {a : Nat} (ha : a + 1 = b) : level a + level b ≤ (2 : ℚ) * (n / d) := by
  rw [level, level, ← add_mul, ← Nat.cast_add]
  exact (le_two_mul_div_iff hd).mpr (h.below a ha)

/-- An odd magnitude is not nearest to a middle. -/
theorem level_odd (hodd : b % 2 = 1) : (2 : ℚ) * (n / d) ≠ level b + level (b + 1) ∧
    ∀ a, a + 1 = b → level a + level b ≠ (2 : ℚ) * (n / d) := by
  constructor
  · refine ne_of_lt ?_
    rw [level, level, ← add_mul, ← Nat.cast_add, ← not_le, le_two_mul_div_iff hd, not_le]
    exact (h.odd hodd).1
  · refine fun a ha => ne_of_lt ?_
    rw [level, level, ← add_mul, ← Nat.cast_add, ← not_le, two_mul_div_le_iff hd, not_le]
    exact (h.odd hodd).2 a ha

/-- No magnitude is nearer, and one is as near only if the nearest is even. -/
theorem closest (a : Nat) : |level b - n / d| ≤ |level a - n / d| ∧
    (|level b - n / d| = |level a - n / d| → a = b ∨ b % 2 = 0) := by
  have hodd : b % 2 = 0 ∨ b % 2 = 1 := Nat.mod_two_eq_zero_or_one b
  rcases Nat.lt_trichotomy b a with hlt | rfl | hgt
  · have habove := h.level_above hd
    have hle : level (b + 1) ≤ level a := level_le.mpr hlt
    obtain ⟨hfar, htie⟩ := abs_sub_le_of_lt (level_lt.mpr hlt)
      (habove.trans (add_le_add_right hle _))
    refine ⟨hfar, fun he => .inr (hodd.resolve_right fun h1 => (h.level_odd hd h1).1 ?_)⟩
    linarith [htie he]
  · exact ⟨le_rfl, fun _ => .inl rfl⟩
  · obtain ⟨c, rfl⟩ : ∃ c, b = c + 1 := Nat.exists_eq_succ_of_ne_zero (by omega)
    have hbelow := h.level_below hd rfl
    have hle : level a ≤ level c := level_le.mpr (Nat.le_of_lt_succ hgt)
    obtain ⟨hfar, htie⟩ := abs_sub_le_of_gt (q := n / d) (level_lt.mpr hgt) (by linarith)
    refine ⟨hfar, fun he => .inr (hodd.resolve_right fun h1 => (h.level_odd hd h1).2 c rfl ?_)⟩
    linarith [htie he]

/-- A negative value is not nearer than zero. -/
theorem closest_neg (a : Nat) : |level b - n / d| ≤ |-level a - n / d| ∧
    (|level b - n / d| = |-level a - n / d| → -level a = level b ∨ b % 2 = 0) := by
  have hq : (0 : ℚ) ≤ n / d := by positivity
  have hzero := level_zero
  have ha : level 0 ≤ level a := level_le.mpr (Nat.zero_le a)
  obtain ⟨hfar, htie⟩ := h.closest hd 0
  rw [hzero, zero_sub, abs_neg, abs_of_nonneg hq] at hfar htie
  have hneg : |-level a - n / d| = level a + n / d := by
    rw [← neg_add', abs_neg]
    exact abs_of_nonneg (by linarith)
  rw [hneg]
  refine ⟨by linarith, fun he => ?_⟩
  have h0 : level a = 0 := by linarith
  refine (htie (by linarith)).imp_left ?_
  rintro rfl
  rw [h0, hzero, neg_zero]

/-- The nearest magnitude is finite below the middle between the greatest double and `2^1024`. -/
theorem lt_infinity_iff : b < infinityMagnitude ↔ (n / d : ℚ) < 2 ^ 1024 - 2 ^ 970 := by
  have hinf := level_infinity
  generalize (2 : ℚ) ^ 1024 - 2 ^ 970 = t at hinf ⊢
  constructor
  · intro hlt
    have habove := h.level_above hd
    have hle : level b ≤ level (infinityMagnitude - 1) := level_le.mpr (Nat.le_sub_one_of_lt hlt)
    have hle' : level (b + 1) ≤ level infinityMagnitude := level_le.mpr hlt
    by_contra hge
    -- then the quotient is the middle itself, and the magnitude is the odd one before it
    obtain rfl : b = infinityMagnitude - 1 := by
      refine Nat.le_antisymm (Nat.le_sub_one_of_lt hlt) (level_le.mp ?_)
      linarith
    exact (h.level_odd hd rfl).1 (by linarith)
  · intro hlt
    by_contra hge
    obtain ⟨c, rfl⟩ : ∃ c, b = c + 1 := Nat.exists_eq_succ_of_ne_zero fun h0 =>
      hge (h0 ▸ by decide)
    have hbelow := h.level_below hd rfl
    have hle : level (infinityMagnitude - 1) ≤ level c := level_le.mpr (by omega)
    have hle' : level infinityMagnitude ≤ level (c + 1) := level_le.mpr (by omega)
    linarith

/-- The nearest magnitude is zero up to one half of the least positive double. -/
theorem eq_zero_iff : b = 0 ↔ (n / d : ℚ) ≤ 2 ^ (-1075 : ℤ) := by
  have hunit : unit = 2 * 2 ^ (-1075 : ℤ) := by
    rw [unit, show (-1074 : ℤ) = 1 + -1075 from rfl, zpow_add₀ two_ne_zero, zpow_one]
  rw [← level_one] at hunit
  generalize (2 : ℚ) ^ (-1075 : ℤ) = t at hunit ⊢
  have hzero := level_zero
  constructor
  · rintro rfl
    have habove := h.level_above hd
    rw [Nat.zero_add] at habove
    linarith
  · intro hle
    by_contra hne
    obtain ⟨c, rfl⟩ := Nat.exists_eq_succ_of_ne_zero hne
    have hbelow := h.level_below hd rfl
    have hone : level 1 ≤ level (c + 1) := level_le.mpr (Nat.le_add_left 1 c)
    have hc : level 0 ≤ level c := level_le.mpr (Nat.zero_le c)
    obtain rfl : c = 0 := Nat.le_zero.mp (level_le.mp (by linarith))
    exact (h.level_odd hd rfl).2 0 rfl (by linarith)

end IsNearest

/-! ### Rounding to doubles -/

theorem value?_ofMagnitude {b : Nat} (hb : b < infinityMagnitude) :
    value? (ofMagnitude false b) = some (level b) := by
  rw [value?_eq, magnitude_ofMagnitude hb.le, isNegative_ofMagnitude hb.le, if_pos hb,
    if_neg Bool.false_ne_true]

/-- A double with a value has a finite magnitude. -/
theorem exists_level {x : Float} {v : ℚ} (h : value? x = some v) :
    ∃ a < infinityMagnitude, magnitude x = a ∧
      (isNegative x = false ∧ v = level a ∨ isNegative x = true ∧ v = -level a) := by
  rw [value?_eq] at h
  split at h
  · next hfin =>
    refine ⟨_, hfin, rfl, ?_⟩
    cases hneg : isNegative x <;> rw [hneg] at h <;> cases h
    · exact .inl ⟨rfl, rfl⟩
    · exact .inr ⟨rfl, rfl⟩
  · cases h

/-- `q`, which is not negative, is rounded to `x`: the nearest double, of two equally near the one
with the even significand, or infinity if `q` is not below the middle between the greatest double
and `2^1024`. -/
structure Rounds (q : ℚ) (x : Float) : Prop where
  positive : isNegative x = false
  nearest : q < 2 ^ 1024 - 2 ^ 970 → ∃ v, value? x = some v ∧ ∀ y w, value? y = some w →
    |v - q| ≤ |w - q| ∧ (|v - q| = |w - q| → w = v ∨ magnitude x % 2 = 0)
  infinite : 2 ^ 1024 - 2 ^ 970 ≤ q → x = infinity

/-- The nearest magnitude, or infinity, is what a ratio is rounded to. -/
theorem IsNearest.rounds {n d b : Nat} (h : IsNearest (n <<< 1074) d b) (hd : 0 < d) :
    Rounds (n / d) (ofMagnitude false (min b infinityMagnitude)) := by
  refine ⟨isNegative_ofMagnitude (Nat.min_le_right _ _), fun hlt => ?_, fun hge => ?_⟩
  · have hfin := (h.lt_infinity_iff hd).mpr hlt
    rw [Nat.min_eq_left hfin.le, magnitude_ofMagnitude hfin.le]
    refine ⟨_, value?_ofMagnitude hfin, fun y w hw => ?_⟩
    obtain ⟨a, -, -, ⟨-, rfl⟩ | ⟨-, rfl⟩⟩ := exists_level hw
    · obtain ⟨hfar, htie⟩ := h.closest hd a
      exact ⟨hfar, fun he => (htie he).imp_left (congrArg level)⟩
    · exact h.closest_neg hd a
  · have hinf : infinityMagnitude ≤ b := Nat.not_lt.mp ((h.lt_infinity_iff hd).not.mpr hge.not_gt)
    rw [Nat.min_eq_right hinf]
    rfl

/-- **Rounding is correct.** -/
theorem rounds_nearest (n : Nat) {d : Nat} (hd : 0 < d) :
    Rounds (n / d) (ofMagnitude false (nearest n d)) := by
  obtain ⟨b, hb, hmin⟩ := nearest_spec n hd
  exact hmin ▸ hb.rounds hd

/-- A finite magnitude is what its own value is rounded to. -/
theorem rounds_level {b : Nat} (hb : b < infinityMagnitude) :
    Rounds (level b) (ofMagnitude false b) := by
  refine ⟨isNegative_ofMagnitude hb.le, fun _ => ⟨_, value?_ofMagnitude hb, fun y w _ => ?_⟩,
    fun hge => ?_⟩
  · rw [sub_self, abs_zero]
    exact ⟨abs_nonneg _, fun h => .inl (sub_eq_zero.mp (abs_eq_zero.mp h.symm))⟩
  · have hle : level b ≤ level (infinityMagnitude - 1) := level_le.mpr (Nat.le_sub_one_of_lt hb)
    have hlt : level (infinityMagnitude - 1) < level infinityMagnitude := level_lt.mpr (by decide)
    have hinf := level_infinity
    generalize (2 : ℚ) ^ 1024 - 2 ^ 970 = t at hinf hge
    linarith

theorem nearest_le_infinity (n d : Nat) : nearest n d ≤ infinityMagnitude := Nat.min_le_right _ _

/-- What is rounded to zero is no greater than one half of the least positive double. -/
theorem nearest_eq_zero_iff (n : Nat) {d : Nat} (hd : 0 < d) :
    ofMagnitude false (nearest n d) = zero ↔ (n / d : ℚ) ≤ 2 ^ (-1075 : ℤ) := by
  obtain ⟨b, hb, hmin⟩ := nearest_spec n hd
  rw [← hb.eq_zero_iff hd]
  constructor
  · intro h
    have hmag := congrArg magnitude h
    rw [zero, magnitude_ofMagnitude (nearest_le_infinity n d),
      magnitude_ofMagnitude (Nat.zero_le _), hmin] at hmag
    exact (Nat.min_eq_zero_iff.mp hmag).resolve_right (by decide)
  · rintro rfl
    rw [hmin, Nat.zero_min]
    rfl

namespace Rounds

variable {q : ℚ} {x y : Float}

/-- What is rounded to infinity is not below the middle between the greatest double and `2^1024`. -/
theorem eq_infinity_iff (h : Rounds q x) : x = infinity ↔ 2 ^ 1024 - 2 ^ 970 ≤ q := by
  refine ⟨fun hx => ?_, h.infinite⟩
  by_contra hlt
  obtain ⟨v, hv, -⟩ := h.nearest (not_le.mp hlt)
  obtain ⟨a, ha, hmag, -⟩ := exists_level hv
  rw [hx, infinity, magnitude_ofMagnitude le_rfl] at hmag
  exact ha.ne hmag.symm

theorem closest (h : Rounds q x) (hq : q < 2 ^ 1024 - 2 ^ 970) :
    magnitude x < infinityMagnitude ∧ ∀ y w, value? y = some w →
      |level (magnitude x) - q| ≤ |w - q| ∧
        (|level (magnitude x) - q| = |w - q| → w = level (magnitude x) ∨ magnitude x % 2 = 0) := by
  obtain ⟨v, hv, hn⟩ := h.nearest hq
  obtain ⟨a, ha, rfl, ⟨-, rfl⟩ | ⟨hneg, -⟩⟩ := exists_level hv
  · exact ⟨ha, hn⟩
  · rw [h.positive] at hneg
    cases hneg

theorem magnitude_le (hx : Rounds q x) (hy : Rounds q y) (hq : q < 2 ^ 1024 - 2 ^ 970) :
    magnitude y ≤ magnitude x := by
  obtain ⟨hfx, hnx⟩ := hx.closest hq
  obtain ⟨hfy, hny⟩ := hy.closest hq
  have hvx : value? x = some (level (magnitude x)) := by
    rw [value?_eq, if_pos hfx, hx.positive, if_neg Bool.false_ne_true]
  have hvy : value? y = some (level (magnitude y)) := by
    rw [value?_eq, if_pos hfy, hy.positive, if_neg Bool.false_ne_true]
  obtain ⟨hle, htx⟩ := hnx y _ hvy
  obtain ⟨hge, hty⟩ := hny x _ hvx
  have htie := le_antisymm hle hge
  by_contra hlt
  have hlevel := level_lt.mpr (Nat.lt_of_not_le hlt)
  -- both are even, so that there is a double between them, which is nearer
  have hex := (htx htie).resolve_left hlevel.ne'
  have hey := (hty htie.symm).resolve_left hlevel.ne
  have hbetween : magnitude x + 1 < magnitude y := by omega
  have hnear := (hny _ _ (value?_ofMagnitude (hbetween.trans hfy))).1
  have h1 := level_lt.mpr (Nat.lt_succ_self (magnitude x))
  have h2 := level_lt.mpr hbetween
  have hmiddle : 2 * q = level (magnitude x) + level (magnitude y) := by
    rcases abs_eq_abs.mp htie with he | he <;> linarith
  have hnearer : |level (magnitude x + 1) - q| < level (magnitude y) - q :=
    abs_lt.mpr ⟨by linarith, by linarith⟩
  exact ((le_abs_self _).trans hnear).not_gt hnearer

/-- **What a number is rounded to is determined.** -/
theorem unique (hx : Rounds q x) (hy : Rounds q y) : x = y := by
  rcases lt_or_ge q (2 ^ 1024 - 2 ^ 970) with hq | hq
  · exact eq_of_magnitude (hx.positive.trans hy.positive.symm)
      (Nat.le_antisymm (hy.magnitude_le hx hq) (hx.magnitude_le hy hq))
  · rw [hx.infinite hq, hy.infinite hq]

end Rounds

end Reckoner.Binary64
