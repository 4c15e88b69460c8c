import Reckoner.Arithmetic.Double
import Reckoner.Proofs.Parity

/-!
# The power of doubles

A machine refuses a power of finite doubles that is infinite or undefined, and of the two it says
which (`Machine.PowersAs`). What it has refused is put together again from the signs of the operands
and the parity of the exponent. Against the power of IEEE 754 (`IsPower`) this is right for any two
doubles (`Machine.pow_isPower`): an overflow has the sign of the exact power, which is negative for
a negative base with an odd exponent only, and the base of a pole is zero.

The powers of IEEE 754 are described by the zero bases, the undefined powers and the signs. How a
power is rounded is left open.
-/

namespace Reckoner

open Binary64

namespace Binary64

/-- `P` is the power of IEEE 754 for finite operands, and for a zero base, in what is not a matter
of rounding. -/
structure IsPower (P : Float → Float → Float) : Prop where
  one {x y} : value? y = some 0 → P x y = Binary64.one
  /-- A zero base with a finite positive exponent. -/
  vanishing {x y w} : value? x = some 0 → value? y = some w → 0 < w →
    P x y = if IsOdd y then x else zero
  /-- A zero base with a negative exponent, the infinite one included. -/
  pole {x y} : value? x = some 0 → y < zero →
    P x y = if IsOdd y then copySign infinity x else infinity
  undefined {x y v w} : value? x = some v → v < 0 → value? y = some w → (∀ n : ℤ, w ≠ n) →
    (P x y).isNaN
  /-- A power with a whole exponent has the sign of the exact one. -/
  whole {x y v} {n : ℤ} : value? x = some v → v ≠ 0 → value? y = some (n : ℚ) →
    ¬ (P x y).isNaN ∧ (isNegative (P x y) ↔ v ^ n < 0)
  positive {x y v w} : value? x = some v → 0 < v → value? y = some w →
    ¬ (P x y).isNaN ∧ isNegative (P x y) = false

/-! ### Signs and infinities -/

variable {x y : Float} {v w : ℚ}

theorem isInf_ofMagnitude (negative : Bool) : (ofMagnitude negative infinityMagnitude).isInf :=
  isInf_iff.mpr (magnitude_ofMagnitude le_rfl)

theorem copySign_infinity (x : Float) :
    copySign infinity x = ofMagnitude (isNegative x) infinityMagnitude := by
  rw [copySign, infinity, magnitude_ofMagnitude le_rfl]

/-- The exact power is negative for a negative base with an odd exponent only. -/
theorem zpow_neg_iff_odd (hv : v ≠ 0) (n : ℤ) : v ^ n < 0 ↔ v < 0 ∧ Odd n := by
  rcases Int.even_or_odd n with hn | hn
  · exact iff_of_false (hn.zpow_pos hv).not_gt fun h => Int.not_odd_iff_even.mpr hn h.2
  · rw [hn.zpow_neg_iff, and_iff_left hn]

namespace IsPower

variable {P : Float → Float → Float} (hP : IsPower P)
include hP

/-- A power of zero with a finite exponent is infinite if the exponent is negative. -/
theorem isInf_zero_base (hx : value? x = some 0) (hy : value? y = some w) :
    ¬ (P x y).isNaN ∧ ((P x y).isInf ↔ y < zero) := by
  have hlt := lt_zero_iff_of_value hy
  rcases lt_or_ge w 0 with hw | hw
  · have hinf : P x y = ofMagnitude (IsOdd y && isNegative x) infinityMagnitude := by
      rw [hP.pole hx (hlt.mpr hw), copySign_infinity, infinity]
      by_cases hodd : IsOdd y <;> simp [hodd]
    rw [hinf]
    exact ⟨not_isNaN_ofMagnitude le_rfl, iff_of_true (isInf_ofMagnitude _) (hlt.mpr hw)⟩
  · obtain ⟨u, hu⟩ : ∃ u, value? (P x y) = some u := by
      rcases hw.eq_or_lt with rfl | hpos
      · rw [hP.one hy]
        exact exists_value_iff.mpr (by decide +kernel)
      · rw [hP.vanishing hx hy hpos]
        split
        · exact ⟨0, hx⟩
        · exact ⟨0, value?_eq_zero_iff.mpr (by decide +kernel)⟩
    obtain ⟨hnan, hinf⟩ := number_of_value hu
    rw [hlt]
    exact ⟨hnan, iff_of_false hinf hw.not_gt⟩

/-- A power is negative for a negative base with an odd exponent only. -/
theorem isNegative_iff (hx : value? x = some v) (hv : v ≠ 0) (hy : value? y = some w)
    (h : ¬ (P x y).isNaN) : isNegative (P x y) ↔ x < zero ∧ IsOdd y := by
  rw [lt_zero_iff_of_value hx]
  by_cases hw : ∃ n : ℤ, w = n
  · obtain ⟨n, rfl⟩ := hw
    rw [(hP.whole hx hv hy).2, zpow_neg_iff_odd hv, isOdd_iff_of_value hy]
  · have hpos : 0 < v := by
      rcases hv.lt_or_gt with hneg | hpos
      · exact absurd (hP.undefined hx hneg hy fun n hn => hw ⟨n, hn⟩) h
      · exact hpos
    rw [(hP.positive hx hpos hy).2]
    exact iff_of_false Bool.false_ne_true fun hlt => hlt.1.not_gt hpos

end IsPower

/-! ### A power -/

/-- A power of IEEE 754, exact for whole exponents before it is rounded. Of another exponent the
fraction is left out, which does not matter for the sign. -/
def wholePower (x y : Float) : Float :=
  if y == zero then one
  else if x == zero then
    if y < zero then if IsOdd y then copySign infinity x else infinity
    else if IsOdd y then x else zero
  else if x < zero ∧ ¬ 2 ^ 1074 ∣ units (magnitude y) then nan
  else
    let n := units (magnitude y) / 2 ^ 1074
    let power := units (magnitude x) ^ n
    let scale := (2 ^ 1074) ^ n
    ofMagnitude (isNegative x && isOddInteger y)
      (if isNegative y then nearest scale power else nearest power scale)

theorem exists_wholePower (hx : value? x ≠ some 0) (hy : value? y ≠ some 0)
    (h : ¬ (x < zero ∧ ¬ 2 ^ 1074 ∣ units (magnitude y))) : ∃ b ≤ infinityMagnitude,
      wholePower x y = ofMagnitude (isNegative x && isOddInteger y) b := by
  simp only [wholePower, beq_zero_iff_value, if_neg hx, if_neg hy, if_neg h]
  refine ⟨_, ?_, rfl⟩
  split <;> exact nearest_le_infinity _ _

theorem isPower_wholePower : IsPower wholePower where
  one hy := if_pos (beq_zero_iff_value.mpr hy)
  vanishing {x y w} hx hy hw := by
    have hlt := (lt_zero_iff_of_value hy).not.mpr hw.not_gt
    simp only [wholePower, beq_zero_iff_value, hx, hy, Option.some.injEq, hw.ne', hlt, if_false,
      if_true]
  pole {x y} hx hy := by
    have hne : value? y ≠ some 0 := fun h0 => ((lt_zero_iff_of_value h0).mp hy).false
    simp only [wholePower, beq_zero_iff_value, hx, hne, hy, if_false, if_true]
  undefined {x y v w} hx hv hy hw := by
    have hw0 : w ≠ 0 := fun h => hw 0 (h.trans Int.cast_zero.symm)
    have hlt := (lt_zero_iff_of_value hx).mpr hv
    have hdvd : ¬ 2 ^ 1074 ∣ units (magnitude y) := fun h =>
      hw _ (Option.some.inj (hy.symm.trans
        (whole_of_units (lt_infinity_of_value hy) (Nat.div_mul_cancel h).symm)))
    simp only [wholePower, beq_zero_iff_value, hx, hy, Option.some.injEq, hw0, hv.ne, if_false]
    rw [if_pos ⟨hlt, hdvd⟩]
    decide +kernel
  whole {x y v n} hx hv hy := by
    have hx0 : value? x ≠ some 0 := fun h => hv (Option.some.inj (hx.symm.trans h))
    by_cases hy0 : value? y = some 0
    · obtain rfl : n = 0 := Int.cast_injective (Option.some.inj (hy.symm.trans hy0))
      rw [wholePower, if_pos (beq_zero_iff_value.mpr hy0), zpow_zero]
      exact ⟨by decide +kernel, iff_of_false (by decide +kernel) zero_lt_one.not_gt⟩
    · have hdvd : 2 ^ 1074 ∣ units (magnitude y) := ⟨_, (units_of_whole hy).trans (mul_comm _ _)⟩
      obtain ⟨b, hb, h⟩ := exists_wholePower hx0 hy0 fun h => h.2 hdvd
      rw [h, isNegative_ofMagnitude hb, Bool.and_eq_true, isNegative_iff_of_value hx hv,
        isOddInteger_iff, isOdd_iff_of_value hy, zpow_neg_iff_odd hv]
      exact ⟨not_isNaN_ofMagnitude hb, Iff.rfl⟩
  positive {x y v w} hx hv hy := by
    have hx0 : value? x ≠ some 0 := fun h => hv.ne' (Option.some.inj (hx.symm.trans h))
    by_cases hy0 : value? y = some 0
    · rw [wholePower, if_pos (beq_zero_iff_value.mpr hy0)]
      decide +kernel
    · have hlt := (lt_zero_iff_of_value hx).not.mpr hv.not_gt
      have hpos : isNegative x = false :=
        Bool.eq_false_iff.mpr ((isNegative_iff_of_value hx hv.ne').not.mpr hv.not_gt)
      obtain ⟨b, hb, h⟩ := exists_wholePower hx0 hy0 fun h => hlt h.1
      rw [h, isNegative_ofMagnitude hb, hpos]
      exact ⟨not_isNaN_ofMagnitude hb, rfl⟩

end Binary64

namespace Machine

variable {m : Type → Type} {M : Machine m} {P : Float → Float → Float}

/-- The machine has the powers `P`. Of finite doubles it refuses those that are infinite or
undefined; the power of a zero is refused as a pole and not as an overflow. -/
structure PowersAs (M : Machine m) (P : Float → Float → Float) : Prop where
  answers {x y r} : M.power x y = .ok r → r = P x y
  overflows {x y} : M.power x y = .error .overflow ↔
    x.isFinite ∧ y.isFinite ∧ value? x ≠ some 0 ∧ (P x y).isInf
  undefined {x y} : M.power x y = .error .domain ↔
    x.isFinite ∧ y.isFinite ∧ ((P x y).isNaN ∨ (value? x = some 0 ∧ y < zero))

/-- An overflow is infinite, and negative for a negative base with an odd exponent only. -/
theorem pow_of_overflow {x y : Float} (h : M.power x y = .error .overflow) :
    M.pow x y = if x < zero ∧ IsOdd y then -infinity else infinity := by
  rw [pow, h]
  simp [isOddInteger_iff]

theorem pow_of_domain {x y : Float} (h : M.power x y = .error .domain) :
    M.pow x y = if value? x = some 0 then if IsOdd y then copySign infinity x else infinity
      else nan := by
  rw [pow, h]
  simp [isOddInteger_iff, beq_zero_iff_value]

/-- The powers `P`, refused as the machine at hand refuses its own. -/
def refusing (P : Float → Float → Float) (x y : Float) : Except PowerRefusal Float :=
  let r := P x y
  if x.isFinite && y.isFinite then
    if r.isNaN then .error .domain
    else if r.isInf then .error (if x == zero then .domain else .overflow)
    else .ok r
  else .ok r

theorem powersAs_of_refusing (hP : IsPower P) (hM : M.power = refusing P) : M.PowersAs P where
  answers {x y r} h := by
    rw [hM, refusing] at h
    split at h
    · split at h
      · cases h
      · split at h <;> cases h
        rfl
    · cases h
      rfl
  overflows {x y} := by
    have hnan : (P x y).isInf → ¬ (P x y).isNaN := not_isNaN_of_isInf
    simp only [hM, refusing, Bool.and_eq_true, beq_zero_iff_value]
    split_ifs with hf hn hi hx <;> simp_all
  undefined {x y} := by
    have hnan : (P x y).isInf → ¬ (P x y).isNaN := not_isNaN_of_isInf
    have hpole (hx : value? x = some 0) (hf : y.isFinite) : (P x y).isInf ↔ y < zero :=
      let ⟨_, hy⟩ := exists_value_iff.mpr hf
      (hP.isInf_zero_base hx hy).2
    simp only [hM, refusing, Bool.and_eq_true, beq_zero_iff_value]
    split_ifs with hf hn hi hx <;> simp_all

/-- If the power of the type of doubles is that of IEEE 754, the machine at hand has its powers. -/
theorem here_powersAs (h : IsPower Float.pow) : here.PowersAs Float.pow :=
  powersAs_of_refusing h rfl

/-- **The power is that of IEEE 754** for any two doubles. -/
theorem pow_isPower (hP : IsPower P) (hM : M.PowersAs P) (x y : Float) :
    M.pow x y = P x y ∧
    (M.power x y = .error .overflow →
      M.pow x y = if x < zero ∧ IsOdd y then -infinity else infinity) ∧
    (value? x = some 0 → y < zero →
      M.pow x y = if IsOdd y then copySign infinity x else infinity) ∧
    (∀ v w, value? x = some v → v < 0 → value? y = some w → (∀ n : ℤ, w ≠ n) →
      M.pow x y = nan) := by
  have hpow : M.pow x y = P x y := by
    rcases hpower : M.power x y with ⟨⟨⟩⟩ | r
    · obtain ⟨hxf, hyf, hx, hinf⟩ := hM.overflows.mp hpower
      obtain ⟨v, hv⟩ := exists_value_iff.mpr hxf
      obtain ⟨w, hw⟩ := exists_value_iff.mpr hyf
      rw [pow_of_overflow hpower, eq_infinity hinf]
      refine if_congr (hP.isNegative_iff hv ?_ hw (not_isNaN_of_isInf hinf)).symm rfl rfl
      rintro rfl
      exact hx hv
    · obtain ⟨-, hyf, hdomain⟩ := hM.undefined.mp hpower
      obtain ⟨w, hw⟩ := exists_value_iff.mpr hyf
      rw [pow_of_domain hpower]
      split
      · next hx =>
        have hlt := (hdomain.resolve_left (hP.isInf_zero_base hx hw).1).2
        rw [hP.pole hx hlt]
      · next hx => rw [eq_nan (hdomain.resolve_right fun h => hx h.1)]
    · rw [pow, hpower, hM.answers hpower]
  refine ⟨hpow, pow_of_overflow, fun hx hy => ?_, fun v w hx hv hy hw => ?_⟩
  · rw [hpow, hP.pole hx hy]
  · rw [hpow, eq_nan (hP.undefined hx hv hy hw)]

/-- The third power of `-2^1023` overflows to the negative infinity. -/
theorem pow_isPower_overflow :
    let M : Machine Id := { here with power := refusing wholePower }
    let x := ofMagnitude true (2046 * binade)
    M.power x (ofInt 3) = .error .overflow ∧ M.pow x (ofInt 3) = wholePower x (ofInt 3) ∧
      M.pow x (ofInt 3) = -infinity := by
  intro M x
  have hM : M.PowersAs wholePower := powersAs_of_refusing isPower_wholePower rfl
  have hpower : M.power x (ofInt 3) = .error .overflow := by decide +kernel
  obtain ⟨hpow, hoverflow, -⟩ := pow_isPower isPower_wholePower hM x (ofInt 3)
  exact ⟨hpower, hpow, (hoverflow hpower).trans (if_pos (by decide +kernel))⟩

end Machine

end Reckoner
