import Mathlib
import Reckoner.Binary64

/-!
# The values of doubles

The bits of a double are a sign, an exponent of eleven bits and a fraction of 52 (`fields`), and
what they stand for is what the type of doubles unpacks them to. So the exact value of a double
(`value?`) is defined without the magnitude. `value?_eq` says that it is the number of units of the
magnitude, with the sign.

A magnitude that is no greater than that of infinity can be put into a double and is found there
again (`magnitude_ofMagnitude`). The units grow with the magnitude (`units_strictMono`), since each
magnitude is a number of binades with a significand on top (`exists_significand`), and one more in
the significand is one step up also where it carries (`units_eq`).
-/

namespace Reckoner.Binary64

open Float.Model (UnpackedFloat Format)
open Float.Model.UnpackedFloat

/-! ### Fields -/

/-- The bits of a double, by its sign, its exponent and its fraction. -/
def fields (s : Sign) (e : BitVec 11) (f : BitVec 52) : BitVec 64 :=
  packComponents Format.binary64 s e f

variable {s : Sign} {e : BitVec 11} {f : BitVec 52}

theorem toNat_fields :
    (fields s e f).toNat = s.toBitVec.toNat * signBit + (e.toNat * binade + f.toNat) := by
  rw [fields, packComponents, BitVec.toNat_append, ← Nat.shiftLeft_add_eq_or_of_lt f.isLt,
    BitVec.toNat_append, ← Nat.shiftLeft_add_eq_or_of_lt e.isLt, Nat.shiftLeft_eq, Nat.shiftLeft_eq,
    signBit, binade]
  omega

/-- Any bits are fields. -/
theorem exists_fields (b : BitVec 64) : ∃ s e f, b = fields s e f :=
  ⟨_, _, _, (@packComponents_unpackSign_unpackExponent_unpackMantissa Format.binary64 b).symm⟩

theorem toNat_of_fields {u : UInt64} (h : u.toBitVec = fields s e f) :
    u.toNat = s.toBitVec.toNat * signBit + (e.toNat * binade + f.toNat) :=
  (congrArg BitVec.toNat h).trans toNat_fields

theorem unpackSign_fields :
    Sign.ofBitVec (@unpackSign Format.binary64 (packComponents Format.binary64 s e f)) = s := by
  rw [unpackSign_packComponents, Sign.ofBitVec_toBitVec]

theorem unpack_infinity :
    UnpackedFloat.unpack Format.binary64 (fields s (-1#11) 0#52) = .infinity s := by
  simp only [UnpackedFloat.unpack, fields, unpackMantissa_packComponents,
    unpackExponent_packComponents, unpackSign_fields, if_true]

theorem unpack_notANumber (hf : f ≠ 0#52) :
    UnpackedFloat.unpack Format.binary64 (fields s (-1#11) f) = .notANumber := by
  simp only [UnpackedFloat.unpack, fields, unpackMantissa_packComponents,
    unpackExponent_packComponents, if_true, if_neg hf]

theorem unpack_zero : UnpackedFloat.unpack Format.binary64 (fields s 0#11 0#52) = .zero s := by
  simp only [UnpackedFloat.unpack, fields, unpackMantissa_packComponents,
    unpackExponent_packComponents, unpackSign_fields]
  rfl

theorem unpack_subnormal (hf : f ≠ 0#52) (hpos : 0 < f.toNat) :
    UnpackedFloat.unpack Format.binary64 (fields s 0#11 f) = .finite s f.toNat (-1074) hpos := by
  simp only [UnpackedFloat.unpack, fields, unpackMantissa_packComponents,
    unpackExponent_packComponents, unpackSign_fields]
  rw [if_neg (by decide), if_pos trivial, dif_neg hf]
  rfl

theorem unpack_normal (h0 : e ≠ 0#11) (h1 : e ≠ -1#11) (hpos : 0 < 2 ^ 52 + f.toNat) :
    UnpackedFloat.unpack Format.binary64 (fields s e f) =
      .finite s (2 ^ 52 + f.toNat) (e.toNat - 1075) hpos := by
  have hsig : (1#1 ++ f).toNat = 2 ^ 52 + f.toNat := by
    rw [BitVec.toNat_append, ← Nat.shiftLeft_add_eq_or_of_lt f.isLt]
    simp
  simp only [UnpackedFloat.unpack, fields, unpackMantissa_packComponents,
    unpackExponent_packComponents, unpackSign_fields, hsig]
  rw [if_neg h1, if_neg h0]
  rfl

/-- Bits that do not stand for not-a-number are those of what they stand for. -/
theorem pack_unpack_fields (h : e = -1#11 → f = 0#52) :
    UnpackedFloat.pack Format.binary64 (UnpackedFloat.unpack Format.binary64 (fields s e f)) =
      fields s e f := by
  have hnan : @isNaNBits Format.binary64 (fields s e f) = false := by
    unfold isNaNBits fields
    rw [unpackExponent_packComponents, unpackMantissa_packComponents]
    exact decide_eq_false fun hn => hn.2 (h hn.1)
  rw [pack_unpack _ (by decide), hnan, if_neg Bool.false_ne_true]

/-! ### Sign and magnitude -/

/-- The bits of a double are its sign bit and its magnitude. -/
theorem toNat_toBits (x : Float) :
    x.toBits.toNat = (if isNegative x then signBit else 0) + magnitude x := by
  have hlt : x.toBits.toNat < 2 * signBit := x.toBits.toBitVec.isLt
  rw [magnitude]
  by_cases h : isNegative x
  · rw [if_pos h]
    have hle : signBit ≤ x.toBits.toNat := of_decide_eq_true h
    rw [Nat.mod_eq_sub_mod hle, Nat.mod_eq_of_lt (by omega), Nat.add_sub_cancel' hle]
  · rw [if_neg h, Nat.zero_add, Nat.mod_eq_of_lt]
    exact Nat.lt_of_not_le fun hle => h (decide_eq_true hle)

theorem eq_of_magnitude {x y : Float} (hs : isNegative x = isNegative y)
    (hm : magnitude x = magnitude y) : x = y := by
  apply Float.toBits_inj.mp
  apply UInt64.toNat_inj.mp
  rw [toNat_toBits, toNat_toBits, hs, hm]

/-- Bits that do not stand for not-a-number are kept. -/
theorem toBits_ofBits {u : UInt64} (h : u.toNat % signBit ≤ infinityMagnitude) :
    (Float.ofBits u).toBits = u := by
  obtain ⟨s, e, f, hu⟩ := exists_fields u.toBitVec
  have hf : e = -1#11 → f = 0#52 := by
    rintro rfl
    rw [toNat_of_fields hu, show (-1#11).toNat = 2047 from rfl] at h
    apply BitVec.eq_of_toNat_eq
    show f.toNat = 0
    have hlt := f.isLt
    simp only [signBit, infinityMagnitude, binade] at h
    omega
  show UInt64.ofBitVec (UnpackedFloat.pack Format.binary64
    (UnpackedFloat.unpack Format.binary64 u.toBitVec)) = u
  rw [hu, pack_unpack_fields hf, ← hu]

variable {negative : Bool} {b : Nat}

theorem toNat_toBits_ofMagnitude (hb : b ≤ infinityMagnitude) :
    (ofMagnitude negative b).toBits.toNat = if negative then signBit + b else b := by
  have hlt : (if negative then signBit + b else b) < 2 ^ 64 ∧
      (if negative then signBit + b else b) % signBit = b := by
    simp only [infinityMagnitude, signBit, binade] at hb ⊢
    split <;> omega
  rw [ofMagnitude, toBits_ofBits] <;> rw [UInt64.toNat_ofNat_of_lt' hlt.1]
  rwa [hlt.2]

theorem magnitude_ofMagnitude (hb : b ≤ infinityMagnitude) :
    magnitude (ofMagnitude negative b) = b := by
  rw [magnitude, toNat_toBits_ofMagnitude hb]
  simp only [infinityMagnitude, signBit, binade] at hb ⊢
  split <;> omega

theorem isNegative_ofMagnitude (hb : b ≤ infinityMagnitude) :
    isNegative (ofMagnitude negative b) = negative := by
  rw [isNegative, toNat_toBits_ofMagnitude hb]
  simp only [infinityMagnitude, signBit, binade] at hb ⊢
  cases negative
  · exact decide_eq_false (by simp; omega)
  · exact decide_eq_true (by simp)

/-! ### Units -/

/-- A significand of up to 53 bits, `s` binades above the lowest. Only there it may have fewer. -/
theorem units_eq {s u : Nat} (hu : u ≤ 2 * binade) (hs : s = 0 ∨ binade ≤ u) :
    units (s * binade + u) = u * 2 ^ s := by
  have hpos : 0 < binade := by decide
  unfold units
  rcases Nat.lt_or_ge u (2 * binade) with hlt | hge
  · by_cases hb : s * binade + u < 2 * binade
    · have h0 : s = 0 := by
        rcases hs with hs | hs
        · exact hs
        · by_contra hne
          have := Nat.le_mul_of_pos_left binade (Nat.pos_of_ne_zero hne)
          omega
      rw [if_pos hb, h0, Nat.zero_mul, Nat.zero_add, Nat.pow_zero, Nat.mul_one]
    · have hle : binade ≤ u := by
        rcases hs with rfl | hs
        · omega
        · exact hs
      obtain ⟨r, rfl⟩ := Nat.exists_eq_add_of_le hle
      have hdiv : s * binade + (binade + r) = r + binade * (s + 1) := by ring
      rw [if_neg hb, hdiv, Nat.add_mul_div_left _ _ hpos, Nat.add_mul_mod_self_left,
        Nat.div_eq_of_lt (by omega), Nat.mod_eq_of_lt (by omega), Nat.shiftLeft_eq, Nat.zero_add,
        Nat.add_sub_cancel]
  · -- the significand has carried into the next binade
    obtain rfl : u = 2 * binade := Nat.le_antisymm hu hge
    have hdiv : s * binade + 2 * binade = binade * (s + 2) := by ring
    rw [if_neg (by omega), hdiv, Nat.mul_div_cancel_left _ hpos, Nat.mul_mod_right,
      Nat.shiftLeft_eq, Nat.add_zero, show s + 2 - 1 = s + 1 from rfl, Nat.pow_succ]
    ring

/-- Every magnitude has a significand. -/
theorem exists_significand (b : Nat) :
    ∃ s u, b = s * binade + u ∧ u < 2 * binade ∧ (s = 0 ∨ binade ≤ u) := by
  have hmod : b % binade < binade := Nat.mod_lt _ (by decide)
  have hdiv := Nat.div_add_mod b binade
  rcases hq : b / binade with _ | s
  · refine ⟨0, b, by omega, ?_, .inl rfl⟩
    rw [hq] at hdiv
    omega
  · refine ⟨s, binade + b % binade, ?_, by omega, .inr (Nat.le_add_right _ _)⟩
    rw [hq, Nat.mul_succ, Nat.mul_comm] at hdiv
    omega

theorem units_lt_succ (b : Nat) : units b < units (b + 1) := by
  obtain ⟨s, u, rfl, hu, hs⟩ := exists_significand b
  have hs' : s = 0 ∨ binade ≤ u + 1 := hs.imp_right Nat.le_succ_of_le
  rw [units_eq hu.le hs, Nat.add_assoc, units_eq hu hs']
  exact Nat.mul_lt_mul_of_pos_right (Nat.lt_succ_self u) (Nat.two_pow_pos s)

theorem units_strictMono : StrictMono units := strictMono_nat_of_lt_succ units_lt_succ

/-! ### Values -/

/-- The value of the least positive double. -/
def unit : ℚ := 2 ^ (-1074 : ℤ)

/-- The value of a double, if it is finite: its significand to scale, with its sign. -/
def value? (x : Float) : Option ℚ :=
  match UnpackedFloat.unpack Format.binary64 x.toBits.toBitVec with
  | .finite s significand exponent _ => some (s.apply significand * 2 ^ exponent)
  | .zero _ => some 0
  | .infinity _ | .notANumber => none

/-- The value of a finite magnitude. -/
def level (b : Nat) : ℚ := units b * unit

theorem level_subnormal (f : BitVec 52) : level f.toNat = f.toNat * 2 ^ (-1074 : ℤ) := by
  have hf : f.toNat ≤ 2 * binade := f.isLt.le.trans (by decide)
  have hunits : units (0 * binade + f.toNat) = f.toNat * 2 ^ 0 := units_eq hf (.inl rfl)
  rw [Nat.zero_mul, Nat.zero_add, Nat.pow_zero, Nat.mul_one] at hunits
  rw [level, hunits, unit]

theorem level_normal (h0 : e ≠ 0#11) (f : BitVec 52) :
    level (e.toNat * binade + f.toNat) = (2 ^ 52 + f.toNat : ℕ) * 2 ^ ((e.toNat : ℤ) - 1075) := by
  have hf : binade + f.toNat ≤ 2 * binade := by
    have : f.toNat < binade := f.isLt
    omega
  obtain ⟨s, hs⟩ : ∃ s, e.toNat = s + 1 :=
    Nat.exists_eq_succ_of_ne_zero fun he => h0 (BitVec.eq_of_toNat_eq he)
  have hb : e.toNat * binade + f.toNat = s * binade + (binade + f.toNat) := by
    rw [hs, Nat.succ_mul, Nat.add_assoc]
  have hexp : (e.toNat : ℤ) - 1075 = (s : ℤ) + (-1074) := by omega
  rw [level, hb, units_eq hf (.inr (Nat.le_add_right _ _)), hexp, zpow_add₀ two_ne_zero,
    zpow_natCast, unit, Nat.cast_mul, Nat.cast_pow, mul_assoc]
  rfl

theorem isNegative_of_fields {x : Float} (h : x.toBits.toBitVec = fields s e f) :
    isNegative x = (s == .negative) := by
  have he := e.isLt
  have hf := f.isLt
  rw [isNegative, toNat_of_fields h]
  cases s
  · exact decide_eq_true (Nat.le_add_right_of_le (Nat.le_of_eq (Nat.one_mul _).symm))
  · have hs : Sign.positive.toBitVec.toNat = 0 := rfl
    refine decide_eq_false ?_
    rw [hs]
    simp only [signBit, binade]
    omega

theorem magnitude_of_fields {x : Float} (h : x.toBits.toBitVec = fields s e f) :
    magnitude x = e.toNat * binade + f.toNat := by
  have he := e.isLt
  have hf := f.isLt
  rw [magnitude, toNat_of_fields h, Nat.mul_add_mod_self_right]
  apply Nat.mod_eq_of_lt
  simp only [signBit, binade]
  omega

/-- The magnitudes of infinities and of what is not a number have the greatest exponent. -/
theorem lt_infinity_of_fields {x : Float} (h : x.toBits.toBitVec = fields s e f) :
    magnitude x < infinityMagnitude ↔ e ≠ -1#11 := by
  have he := e.isLt
  have hf := f.isLt
  have hmax : e = -1#11 ↔ e.toNat = 2047 := BitVec.toNat_inj.symm
  rw [magnitude_of_fields h, Ne, hmax]
  simp only [infinityMagnitude, binade]
  omega

theorem apply_mul (s : Sign) (n : Nat) (p : ℚ) :
    (s.apply n : ℚ) * p = if s == .negative then -(n * p) else n * p := by
  cases s
  · rw [if_pos (by rfl), Sign.apply, Int.cast_neg, Int.cast_natCast, neg_mul]
  · rw [if_neg (by decide), Sign.apply, Int.cast_natCast]

/-- The value of a double is that of its magnitude, with its sign. -/
theorem value?_eq (x : Float) : value? x =
    if magnitude x < infinityMagnitude then
      some (if isNegative x then - level (magnitude x) else level (magnitude x))
    else none := by
  obtain ⟨s, e, f, hx⟩ := exists_fields x.toBits.toBitVec
  have hfin := lt_infinity_of_fields hx
  rw [isNegative_of_fields hx]
  unfold value?
  rw [hx]
  by_cases h1 : e = -1#11
  · rw [if_neg (hfin.not.mpr (not_not.mpr h1)), h1]
    by_cases hf : f = 0#52
    · rw [hf, unpack_infinity]
    · rw [unpack_notANumber hf]
  rw [if_pos (hfin.mpr h1), magnitude_of_fields hx]
  by_cases h0 : e = 0#11
  · subst h0
    rw [BitVec.toNat_ofNat, Nat.zero_mod, Nat.zero_mul, Nat.zero_add, level_subnormal]
    by_cases hf : f = 0#52
    · rw [hf, unpack_zero]
      simp
    · rw [unpack_subnormal hf (Nat.pos_of_ne_zero fun h => hf (BitVec.eq_of_toNat_eq h)),
        ← apply_mul]
  · rw [unpack_normal h0 h1 (by omega), level_normal h0, ← apply_mul]

end Reckoner.Binary64
