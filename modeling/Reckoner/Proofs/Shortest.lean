import Reckoner.Binary64.Text
import Reckoner.Proofs.Kinds

/-!
# The shortest decimal

The search looks for a decimal that reads back as a magnitude, on finer and finer grids of multiples
of a power of ten. Whether a decimal reads back is what the rounding of its exact value is
(`readsBack_iff_rounds`), so that nothing after it depends on how the ends of the interval are
computed. All numbers that are rounded to one double lie together (`Rounds.between`). Therefore a
grid on which any decimal reads back has one next to the value (`onGrid?_eq_none_iff`), and the
finest grid has one for sure (`exists_onGrid?_finest`).

What is found is on the coarsest grid that has one (`shortest_spec`). It also has the fewest digits
(`isShortest_shortest`): a decimal with fewer digits on the same grid or a finer one lies below the
first power of ten up to the one that is found, and that power of ten is on a coarser grid.
-/

namespace Reckoner.Binary64

variable {b : Nat} {q r s : ℚ} {x : Float}

/-! ### What is rounded to one double -/

/-- Up to the middle the lesser one of two numbers is nearer. -/
theorem le_middle_of_abs_sub_le {p r q : ℚ} (h : p < r) (hle : |p - q| ≤ |r - q|) :
    2 * q ≤ p + r := by
  have hsq := sq_le_sq.mpr hle
  nlinarith

/-- From the middle on the greater one of two numbers is nearer. -/
theorem middle_le_of_abs_sub_le {p r q : ℚ} (h : r < p) (hle : |p - q| ≤ |r - q|) :
    p + r ≤ 2 * q := by
  have hsq := sq_le_sq.mpr hle
  nlinarith

/-- **The numbers that are rounded to one double lie together.** -/
theorem Rounds.between (hq : Rounds q x) (hr : Rounds r x) (hqs : q ≤ s) (hsr : s ≤ r) :
    Rounds s x := by
  refine ⟨hq.positive, fun hs => ?_, fun hs => hr.infinite (hs.trans hsr)⟩
  have hqt := hqs.trans_lt hs
  have hrt : r < 2 ^ 1024 - 2 ^ 970 := by
    by_contra hge
    exact hqt.not_ge (hq.eq_infinity_iff.mp (hr.infinite (not_lt.mp hge)))
  obtain ⟨v, hv, hnq⟩ := hq.nearest hqt
  obtain ⟨u, hu, hnr⟩ := hr.nearest hrt
  obtain rfl : v = u := Option.some.inj (hv.symm.trans hu)
  refine ⟨v, hv, fun y w hw => ?_⟩
  obtain ⟨hlq, htq⟩ := hnq y w hw
  obtain ⟨hlr, htr⟩ := hnr y w hw
  rcases lt_trichotomy v w with h | rfl | h
  · have hmiddle := le_middle_of_abs_sub_le h hlr
    obtain ⟨hle, htie⟩ := abs_sub_le_of_lt (q := s) h (by linarith)
    refine ⟨hle, fun he => ?_⟩
    obtain rfl : s = r := by linarith [htie he]
    exact htr he
  · exact ⟨le_rfl, fun _ => .inl rfl⟩
  · have hmiddle := middle_le_of_abs_sub_le h hlq
    obtain ⟨hle, htie⟩ := abs_sub_le_of_gt (q := s) h (by linarith)
    refine ⟨hle, fun he => ?_⟩
    obtain rfl : s = q := by linarith [htie he]
    exact htq he

/-- A ratio is rounded to a finite magnitude exactly if that is the nearest one. -/
theorem rounds_iff_isNearest {n d : Nat} (hd : 0 < d) (hb : b < infinityMagnitude) :
    Rounds (n / d) (ofMagnitude false b) ↔ IsNearest (n <<< 1074) d b := by
  constructor
  · intro h
    obtain ⟨a, ha, -⟩ := nearest_spec n hd
    have hmin := (ofMagnitude_inj (Nat.min_le_right _ _) hb.le).mp ((ha.rounds hd).unique h)
    obtain rfl : a = b := by omega
    exact ha
  · intro h
    have hr := h.rounds hd
    rwa [Nat.min_eq_left hb.le] at hr

/-! ### Decimals that read back -/

/-- The value of a decimal. -/
def Power.value (p : Power) : ℚ := p.coefficient * 10 ^ p.exponent

theorem Power.value_eq (c : Nat) (k : Int) :
    Power.value ⟨c, k⟩ = (c * Nat.pow 10 k.toNat : ℕ) / (Nat.pow 10 (-k).toNat : ℕ) := by
  have hk : (10 : ℚ) ^ k = 10 ^ k.toNat / 10 ^ (-k).toNat := by
    rw [← zpow_natCast, ← zpow_natCast, ← zpow_sub₀ (by norm_num), Int.toNat_sub_toNat_neg]
  rw [value, hk, Nat.pow_eq, Nat.pow_eq, Nat.cast_mul, Nat.cast_pow, Nat.cast_pow, mul_div_assoc]
  rfl

theorem readsBack_iff_isNearest {n d : Nat} (hb : 0 < b) :
    readsBack b (2 * n) d ↔ IsNearest n d b := by
  have hpred {a : Nat} (ha : a + 1 = b) : a = b - 1 := by omega
  unfold readsBack
  rcases Nat.mod_two_eq_zero_or_one b with heven | hodd
  · simp only [heven, if_true, Bool.and_eq_true, decide_eq_true_eq]
    refine ⟨fun h => ⟨h.2, fun a ha => ?_, fun h1 => ?_⟩, fun h => ⟨?_, h.above⟩⟩
    · rw [hpred ha]
      exact h.1
    · rw [heven] at h1
      cases h1
    · exact h.below _ (Nat.sub_add_cancel hb)
  · simp only [hodd, one_ne_zero, if_false, Bool.and_eq_true, decide_eq_true_eq]
    refine ⟨fun h => ⟨h.2.le, fun a ha => ?_, fun _ => ⟨h.2, fun a ha => ?_⟩⟩, fun h => ⟨?_, ?_⟩⟩
    · rw [hpred ha]
      exact h.1.le
    · rw [hpred ha]
      exact h.1
    · exact (h.odd hodd).2 _ (Nat.sub_add_cancel hb)
    · exact (h.odd hodd).1

theorem mul_shiftLeft_succ (c m e : Nat) : c * (m <<< (e + 1)) = 2 * ((c * m) <<< e) := by
  rw [Nat.shiftLeft_eq, Nat.shiftLeft_eq, pow_succ]
  ring

/-- A decimal reads back as a magnitude exactly if it is rounded to it. -/
theorem readsBack_iff_rounds (hb : 0 < b) (hfin : b < infinityMagnitude) (c : Nat) (k : Int) :
    readsBack b (c * (Nat.pow 10 k.toNat <<< 1075)) (Nat.pow 10 (-k).toNat) ↔
      Rounds (Power.value ⟨c, k⟩) (ofMagnitude false b) := by
  have hd : 0 < Nat.pow 10 (-k).toNat := Nat.pow_pos (by decide)
  rw [Power.value_eq, rounds_iff_isNearest hd hfin, ← readsBack_iff_isNearest hb,
    mul_shiftLeft_succ _ _ 1074]

/-! ### The search -/

theorem shiftLeft_pos {m : Nat} (h : 0 < m) (e : Nat) : 0 < m <<< e := by
  rw [Nat.shiftLeft_eq]
  exact Nat.mul_pos h (Nat.two_pow_pos e)

theorem value_le_level_iff {c : Nat} {k : Int} : Power.value ⟨c, k⟩ ≤ level b ↔
    c * (Nat.pow 10 k.toNat <<< 1075) ≤ 2 * units b * Nat.pow 10 (-k).toNat := by
  have hd : 0 < Nat.pow 10 (-k).toNat := Nat.pow_pos (by decide)
  rw [mul_shiftLeft_succ _ _ 1074, ← two_mul_div_le_iff hd, ← Power.value_eq, Nat.cast_mul,
    Nat.cast_ofNat, mul_assoc, ← level, mul_le_mul_iff_right₀ two_pos]

theorem value_le_value {c c' : Nat} (h : c ≤ c') (k : Int) :
    Power.value ⟨c, k⟩ ≤ Power.value ⟨c', k⟩ :=
  mul_le_mul_of_nonneg_right (Nat.cast_le.mpr h) (zpow_nonneg (by norm_num) k)

section Search

variable (hb : 0 < b) (hfin : b < infinityMagnitude)
include hb hfin

theorem rounds_of_onGrid? {k : Int} {p : Power} (h : onGrid? b k = some p) :
    p.exponent = k ∧ Rounds p.value (ofMagnitude false b) := by
  obtain ⟨c, -, hc⟩ := List.exists_of_findSome?_eq_some h
  split at hc
  · next hreads =>
    cases hc
    exact ⟨rfl, (readsBack_iff_rounds hb hfin c k).mp hreads⟩
  · cases hc

/-- If any multiple of `10^k` reads back, one next to the value does. -/
theorem onGrid?_eq_none_iff {k : Int} :
    onGrid? b k = none ↔ ∀ c, ¬ Rounds (Power.value ⟨c, k⟩) (ofMagnitude false b) := by
  have hsearch : onGrid? b k = none ↔
      let step := Nat.pow 10 k.toNat <<< 1075
      let value := 2 * units b * Nat.pow 10 (-k).toNat
      ∀ c ∈ [roundDiv value step, value / step, value / step + 1],
        ¬ Rounds (Power.value ⟨c, k⟩) (ofMagnitude false b) := by
    simp only [onGrid?, List.findSome?_eq_none_iff, readsBack_iff_rounds hb hfin,
      ite_eq_right_iff, reduceCtorEq, imp_false]
  rw [hsearch]
  refine ⟨fun h c hc => ?_, fun h c _ => h c⟩
  have hstep : 0 < Nat.pow 10 k.toNat <<< 1075 := shiftLeft_pos (Nat.pow_pos (by decide)) _
  rcases Nat.lt_or_ge (2 * units b * Nat.pow 10 (-k).toNat / (Nat.pow 10 k.toNat <<< 1075)) c
    with hlt | hle
  · refine h _ (by simp) ((rounds_level hfin).between hc (not_le.mp ?_).le (value_le_value hlt k))
    exact value_le_level_iff.not.mpr ((Nat.div_lt_iff_lt_mul hstep).mp (Nat.lt_succ_self _)).not_ge
  · refine h _ (by simp) (hc.between (rounds_level hfin) (value_le_value hle k) ?_)
    exact value_le_level_iff.mpr (Nat.div_mul_le_self _ _)

omit hfin in
/-- What is less than one unit below the value reads back. -/
theorem readsBack_of_near {n d : Nat} (hd : 0 < d) (hle : n ≤ 2 * units b * d)
    (hlt : 2 * units b * d < n + d) : readsBack b n d := by
  have hbelow : (units (b - 1) + 1) * d ≤ units b * d :=
    Nat.mul_le_mul_right d (units_strictMono (Nat.sub_lt hb one_pos))
  have habove : (units b + 1) * d ≤ units (b + 1) * d :=
    Nat.mul_le_mul_right d (units_lt_succ b)
  simp only [Nat.mul_assoc, Nat.add_mul, Nat.one_mul] at *
  unfold readsBack
  simp only [Nat.add_mul]
  split <;> simp only [Bool.and_eq_true, decide_eq_true_eq] <;> omega

/-- The finest grid is finer than a unit. -/
theorem exists_onGrid?_finest : ∃ p, onGrid? b (-324) = some p := by
  by_contra hnone
  have hno := (onGrid?_eq_none_iff hb hfin).mp (Option.eq_none_iff_forall_ne_some.mpr fun p hp =>
    hnone ⟨p, hp⟩)
  have hfine : Nat.pow 10 (-324 : ℤ).toNat <<< 1075 ≤ Nat.pow 10 (-(-324 : ℤ)).toNat := by
    decide +kernel
  have hstep : 0 < Nat.pow 10 (-324 : ℤ).toNat <<< 1075 :=
    shiftLeft_pos (Nat.pow_pos (by decide)) _
  refine hno _ ((readsBack_iff_rounds hb hfin _ _).mp
    (readsBack_of_near hb (hstep.trans_le hfine) (Nat.div_mul_le_self _ _) ?_))
  exact (Nat.lt_div_mul_add hstep).trans_le (Nat.add_le_add_left hfine _)

/-- The search finds a decimal that reads back, and none does on a coarser grid from the first one
on. -/
theorem shortestFrom_spec (n : Nat) :
    Rounds (shortestFrom b n).value (ofMagnitude false b) ∧
      ∀ k, (shortestFrom b n).exponent < k → k < (n : ℤ) - 323 →
        ∀ c, ¬ Rounds (Power.value ⟨c, k⟩) (ofMagnitude false b) := by
  induction n with
  | zero =>
    obtain ⟨p, hp⟩ := exists_onGrid?_finest hb hfin
    obtain ⟨hexp, hreads⟩ := rounds_of_onGrid? hb hfin hp
    rw [shortestFrom, hp, Option.getD_some, hexp]
    exact ⟨hreads, fun k hlt hge => by omega⟩
  | succ n ih =>
    rw [shortestFrom]
    rcases hp : onGrid? b (n - 323) with _ | p
    · refine ⟨ih.1, fun k hlt hge => ?_⟩
      rcases eq_or_ne k (n - 323) with rfl | hne
      · exact (onGrid?_eq_none_iff hb hfin).mp hp
      · exact ih.2 k hlt (by omega)
    · obtain ⟨hexp, hreads⟩ := rounds_of_onGrid? hb hfin hp
      rw [Option.getD_some, hexp]
      exact ⟨hreads, fun k hlt hge => by omega⟩

end Search

theorem cast_pow_le_cast_pow {a m n e : Nat} (h : Nat.pow a m ≤ Nat.pow n e) :
    (a : ℚ) ^ m ≤ (n : ℚ) ^ e := by
  exact_mod_cast h

theorem two_pow_1024_le : (2 : ℚ) ^ 1024 ≤ 10 ^ 310 := by
  have h : Nat.pow 2 1024 ≤ Nat.pow 10 310 := by decide +kernel
  simpa only [Nat.cast_ofNat] using cast_pow_le_cast_pow h

theorem coefficient_pos_of_rounds (hb : 0 < b) (hfin : b < infinityMagnitude) {p : Power}
    (h : Rounds p.value (ofMagnitude false b)) : 0 < p.coefficient := by
  refine Nat.pos_of_ne_zero fun h0 => hb.ne' ?_
  have hzero : p.value = level 0 := by
    rw [Power.value, h0, Nat.cast_zero, zero_mul, level_zero]
  exact (ofMagnitude_inj hfin.le (Nat.zero_le _)).mp
    (h.unique (hzero ▸ rounds_level (hb.trans hfin)))

/-- A decimal that reads back as a finite magnitude is not on a grid beyond the first one. -/
theorem exponent_lt_of_rounds (hb : 0 < b) (hfin : b < infinityMagnitude) {c : Nat} {k : Int}
    (h : Rounds (Power.value ⟨c, k⟩) (ofMagnitude false b)) : k < 310 := by
  by_contra hge
  have hc : 0 < c := coefficient_pos_of_rounds hb hfin h
  have hvalue : (10 : ℚ) ^ 310 ≤ Power.value ⟨c, k⟩ :=
    calc (10 : ℚ) ^ 310 = 10 ^ ((310 : ℕ) : ℤ) := (zpow_natCast _ _).symm
      _ ≤ 10 ^ k := zpow_le_zpow_right₀ (by norm_num) (not_lt.mp hge)
      _ ≤ Power.value ⟨c, k⟩ :=
        le_mul_of_one_le_left (zpow_nonneg (by norm_num) k) (Nat.one_le_cast.mpr hc)
  have hinf := h.infinite ((sub_le_self _ (by positivity)).trans (two_pow_1024_le.trans hvalue))
  exact hfin.ne ((ofMagnitude_inj hfin.le le_rfl).mp hinf)

/-- **The search ends with a decimal that reads back, on the coarsest grid that has one.** -/
theorem shortest_spec (hb : 0 < b) (hfin : b < infinityMagnitude) :
    Rounds (shortest b).value (ofMagnitude false b) ∧
      ∀ k c, (shortest b).exponent < k → ¬ Rounds (Power.value ⟨c, k⟩) (ofMagnitude false b) := by
  obtain ⟨hreads, hcoarse⟩ := shortestFrom_spec hb hfin 633
  refine ⟨hreads, fun k c hk hc => hcoarse k hk ?_ c hc⟩
  exact exponent_lt_of_rounds hb hfin hc

/-! ### Digits -/

namespace Power

variable {p p' : Power}

theorem length_digits_pos (p : Power) : 0 < p.digits.length := Nat.length_toDigits_pos

theorem coefficient_lt (p : Power) : p.coefficient < 10 ^ p.digits.length :=
  (Nat.length_toDigits_le_iff (by decide) p.length_digits_pos).mp le_rfl

/-- The first digit is not zero. -/
theorem le_coefficient (hp : 0 < p.coefficient) : 10 ^ (p.digits.length - 1) ≤ p.coefficient := by
  rcases Nat.eq_zero_or_pos (p.digits.length - 1) with h0 | hpos
  · rw [h0]
    exact hp
  · by_contra hlt
    have hle := (Nat.length_toDigits_le_iff (by decide) hpos).mpr (not_le.mp hlt)
    have := p.length_digits_pos
    unfold digits at *
    omega

theorem value_lt (p : Power) : p.value < 10 ^ (p.leading + 1) := by
  have h : (p.coefficient : ℚ) < 10 ^ p.digits.length := mod_cast p.coefficient_lt
  have hleading : p.leading + 1 = p.digits.length + p.exponent := by
    rw [leading]
    omega
  rw [hleading, zpow_add₀ (by norm_num), zpow_natCast]
  exact mul_lt_mul_of_pos_right h (zpow_pos (by norm_num) _)

theorem le_value (hp : 0 < p.coefficient) : 10 ^ p.leading ≤ p.value := by
  have h : (10 : ℚ) ^ (p.digits.length - 1) ≤ p.coefficient := mod_cast le_coefficient hp
  have hleading : p.leading = (p.digits.length - 1 : ℕ) + p.exponent := by
    have := p.length_digits_pos
    rw [leading]
    omega
  rw [hleading, zpow_add₀ (by norm_num), zpow_natCast]
  exact mul_le_mul_of_nonneg_right h (zpow_nonneg (by norm_num) _)

end Power

/-- `p` is a shortest decimal of `x`: it is read as `x`, and none with fewer digits is. -/
structure IsShortest (p : Power) (x : Float) : Prop where
  reads : Rounds p.value x.abs
  least : ∀ p' : Power, Rounds p'.value x.abs → p.digits.length ≤ p'.digits.length

/-- A decimal of fewer digits that reads back lies below one on a coarser grid, a power of ten. -/
theorem isShortest_shortest (hx : 0 < magnitude x) (hfin : magnitude x < infinityMagnitude) :
    IsShortest (shortest (magnitude x)) x := by
  have habs : x.abs = ofMagnitude false (magnitude x) := abs_eq (le_infinity_iff.mp hfin.le)
  obtain ⟨hreads, hcoarse⟩ := shortest_spec hx hfin
  generalize shortest (magnitude x) = p at hreads hcoarse
  refine ⟨habs ▸ hreads, fun p' hp' => ?_⟩
  rw [habs] at hp'
  by_contra hlt
  have hexp : p'.exponent ≤ p.exponent := not_lt.mp fun h => hcoarse _ _ h hp'
  have hpos := p'.length_digits_pos
  have hleading : p.leading = p.exponent + p.digits.length - 1 := rfl
  have hleading' : p'.leading = p'.exponent + p'.digits.length - 1 := rfl
  have hten : Power.value ⟨1, p.leading⟩ = 10 ^ p.leading := by
    rw [Power.value, Nat.cast_one, one_mul]
  refine hcoarse p.leading 1 (by omega) (hp'.between hreads ?_ ?_)
  · calc p'.value ≤ 10 ^ (p'.leading + 1) := p'.value_lt.le
      _ ≤ 10 ^ p.leading := zpow_le_zpow_right₀ (by norm_num) (by omega)
      _ = _ := hten.symm
  · exact hten.trans_le (Power.le_value (coefficient_pos_of_rounds hx hfin hreads))

end Reckoner.Binary64
