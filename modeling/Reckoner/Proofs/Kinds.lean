import Reckoner.Proofs.Rounding

/-!
# Kinds of doubles

A double is zero, finite, infinite or no number, and its magnitude tells which (`unpacks`). So what
the type of doubles says of a double, and how it compares with zero, can be told from its sign and
its magnitude. The negation of a double has the other sign and the same magnitude, except that there
is only one double that is no number, and that is its own negation.
-/

namespace Reckoner.Binary64

open Float.Model (UnpackedFloat Format)
open Float.Model.UnpackedFloat

/-- What bits are unpacked to, by the magnitude that they have without their sign. -/
theorem unpack_fields (e : BitVec 11) (f : BitVec 52) :
    let b := e.toNat * binade + f.toNat
    (b = 0 ∧ ∀ s, UnpackedFloat.unpack Format.binary64 (fields s e f) = .zero s) ∨
    (0 < b ∧ b < infinityMagnitude ∧ ∃ significand exponent pos, ∀ s,
      UnpackedFloat.unpack Format.binary64 (fields s e f) = .finite s significand exponent pos) ∨
    (b = infinityMagnitude ∧
      ∀ s, UnpackedFloat.unpack Format.binary64 (fields s e f) = .infinity s) ∨
    (infinityMagnitude < b ∧
      ∀ s, UnpackedFloat.unpack Format.binary64 (fields s e f) = .notANumber) := by
  have hpos : f ≠ 0#52 → 0 < f.toNat := fun hf =>
    Nat.pos_of_ne_zero fun h => hf (BitVec.eq_of_toNat_eq h)
  have hlt : f.toNat < binade := f.isLt
  by_cases h1 : e = -1#11
  · subst h1
    by_cases hf : f = 0#52
    · subst hf
      exact .inr (.inr (.inl ⟨rfl, fun s => unpack_infinity⟩))
    · exact .inr (.inr (.inr ⟨Nat.lt_add_of_pos_right (hpos hf), fun s => unpack_notANumber hf⟩))
  have hmax : e.toNat ≠ 2047 := fun h => h1 (BitVec.eq_of_toNat_eq h)
  have hle := e.isLt
  by_cases h0 : e = 0#11
  · subst h0
    by_cases hf : f = 0#52
    · subst hf
      exact .inl ⟨rfl, fun s => unpack_zero⟩
    · refine .inr (.inl ⟨Nat.add_pos_right _ (hpos hf), ?_, _, _, hpos hf, fun s =>
        unpack_subnormal hf (hpos hf)⟩)
      simp only [infinityMagnitude, binade] at hlt ⊢
      omega
  · have hne : e.toNat ≠ 0 := fun h => h0 (BitVec.eq_of_toNat_eq h)
    refine .inr (.inl ⟨?_, ?_, _, _, Nat.add_pos_left (by decide) _, fun s =>
      unpack_normal h0 h1 _⟩)
    all_goals
      simp only [infinityMagnitude, binade] at hlt ⊢
      omega

/-- What a double of a given sign and magnitude is unpacked to. -/
inductive Unpacks (x : Float) : UnpackedFloat → Prop where
  | zero {s} : magnitude x = 0 → isNegative x = (s == .negative) → Unpacks x (.zero s)
  | finite {s significand exponent pos} : 0 < magnitude x → magnitude x < infinityMagnitude →
      isNegative x = (s == .negative) → Unpacks x (.finite s significand exponent pos)
  | infinity {s} : magnitude x = infinityMagnitude → isNegative x = (s == .negative) →
      Unpacks x (.infinity s)
  | notANumber : infinityMagnitude < magnitude x → Unpacks x .notANumber

theorem unpacks (x : Float) : Unpacks x x.toModel.unpack := by
  obtain ⟨s, e, f, hx⟩ := exists_fields x.toBits.toBitVec
  have hs := isNegative_of_fields hx
  have hm := magnitude_of_fields hx
  show Unpacks x (UnpackedFloat.unpack Format.binary64 x.toBits.toBitVec)
  obtain ⟨hb, hu⟩ | ⟨hb, hfin, m, q, pos, hu⟩ | ⟨hb, hu⟩ | ⟨hb, hu⟩ := unpack_fields e f <;>
    rw [hx, hu]
  · exact .zero (hm.trans hb) hs
  · exact .finite (hm ▸ hb) (hm ▸ hfin) hs
  · exact .infinity (hm.trans hb) hs
  · exact .notANumber (hm ▸ hb)

/-! ### Kinds -/

variable {x y : Float} {s : Sign} {e : BitVec 11} {f : BitVec 52}

theorem isNaN_iff : x.isNaN ↔ infinityMagnitude < magnitude x := by
  show x.toModel.unpack.isNaN ↔ _
  have h := unpacks x
  generalize x.toModel.unpack = u at h ⊢
  cases h <;> simp [isNaN] <;> omega

theorem le_infinity_iff : magnitude x ≤ infinityMagnitude ↔ ¬ x.isNaN := by
  rw [isNaN_iff, not_lt]

theorem isInf_iff : x.isInf ↔ magnitude x = infinityMagnitude := by
  show x.toModel.unpack.isInf ↔ _
  have h := unpacks x
  have hpos : 0 < infinityMagnitude := by decide
  generalize x.toModel.unpack = u at h ⊢
  cases h <;> simp [isInf] <;> omega

theorem isFinite_iff : x.isFinite ↔ magnitude x < infinityMagnitude := by
  show x.toModel.unpack.isFinite ↔ _
  have h := unpacks x
  have hpos : 0 < infinityMagnitude := by decide
  generalize x.toModel.unpack = u at h ⊢
  cases h <;> simp [isFinite] <;> omega

theorem beq_zero_iff : x == zero ↔ magnitude x = 0 := by
  show x.toModel.unpack.beq (.zero .positive) ↔ _
  have h := unpacks x
  have hpos : 0 < infinityMagnitude := by decide
  generalize x.toModel.unpack = u at h ⊢
  cases h with
  | zero => simpa [UnpackedFloat.beq, UnpackedFloat.compare]
  | @finite s => cases s <;> simp [UnpackedFloat.beq, UnpackedFloat.compare] <;> omega
  | @infinity s => cases s <;> simp [UnpackedFloat.beq, UnpackedFloat.compare] <;> omega
  | notANumber => simp [UnpackedFloat.beq, UnpackedFloat.compare]; omega

theorem lt_zero_iff :
    x < zero ↔ isNegative x ∧ 0 < magnitude x ∧ magnitude x ≤ infinityMagnitude := by
  have hlt : x < zero ↔ x.toModel.unpack.lt (.zero .positive) := decide_eq_true_iff
  rw [hlt]
  have h := unpacks x
  have hpos : 0 < infinityMagnitude := by decide
  generalize x.toModel.unpack = u at h ⊢
  cases h with
  | zero hm hs => simp [UnpackedFloat.lt, UnpackedFloat.compare, hm]
  | @finite s _ _ _ hm hfin hs =>
    cases s <;> simp [UnpackedFloat.lt, UnpackedFloat.compare, hs, hm, hfin.le]
  | @infinity s hm hs =>
    cases s <;> simp [UnpackedFloat.lt, UnpackedFloat.compare, hs, hm, hpos]
  | notANumber hm => simp [UnpackedFloat.lt, UnpackedFloat.compare]; omega

/-- There is one double that is no number. -/
theorem eq_nan (h : x.isNaN) : x = nan := by
  obtain ⟨s, e, f, hx⟩ := exists_fields x.toBits.toBitVec
  have hlt := isNaN_iff.mp h
  have h1 : e = -1#11 := by
    by_contra h1
    exact ((lt_infinity_of_fields hx).mpr h1).not_gt hlt
  have hf : f ≠ 0#52 := by
    rintro rfl
    rw [magnitude_of_fields hx, h1] at hlt
    exact hlt.ne rfl
  have hbits : x.toBits.toBitVec = packedNaN Format.binary64 := by
    refine x.toModel.valid.eq_packedNaN ?_ ?_
    · exact (congrArg unpackExponent hx).trans (unpackExponent_packComponents.trans h1)
    · exact fun h0 => hf (unpackMantissa_packComponents.symm.trans
        ((congrArg unpackMantissa hx).symm.trans h0))
  exact Float.toBits_inj.mp (UInt64.toBitVec_inj.mp hbits)

theorem isFinite_of_number (h : ¬ x.isNaN) (hi : ¬ x.isInf) : x.isFinite := by
  rw [isNaN_iff] at h
  rw [isInf_iff] at hi
  rw [isFinite_iff]
  omega

theorem not_isNaN_of_isInf (h : x.isInf) : ¬ x.isNaN := fun hn =>
  (isNaN_iff.mp hn).ne' (isInf_iff.mp h)

/-- The fields of a number. -/
theorem exists_fields_of_number (h : ¬ x.isNaN) : ∃ s e f,
    x.toBits.toBitVec = fields s e f ∧ (e = -1#11 → f = 0#52) := by
  obtain ⟨s, e, f, hx⟩ := exists_fields x.toBits.toBitVec
  refine ⟨s, e, f, hx, ?_⟩
  rintro rfl
  rw [isNaN_iff, magnitude_of_fields hx, Nat.not_lt] at h
  exact BitVec.eq_of_toNat_eq (Nat.eq_zero_of_le_zero (Nat.le_of_add_le_add_left h))

/-- A double that is a number is its magnitude with its sign. -/
theorem eq_ofMagnitude (h : ¬ x.isNaN) : x = ofMagnitude (isNegative x) (magnitude x) := by
  have hle : magnitude x ≤ infinityMagnitude := le_infinity_iff.mpr h
  exact eq_of_magnitude (isNegative_ofMagnitude hle).symm (magnitude_ofMagnitude hle).symm

theorem not_isNaN_ofMagnitude {negative : Bool} {b : Nat} (hb : b ≤ infinityMagnitude) :
    ¬ (ofMagnitude negative b).isNaN := by
  rwa [← le_infinity_iff, magnitude_ofMagnitude hb]

theorem ofMagnitude_inj {negative : Bool} {b a : Nat} (hb : b ≤ infinityMagnitude)
    (ha : a ≤ infinityMagnitude) : ofMagnitude negative b = ofMagnitude negative a ↔ b = a := by
  refine ⟨fun h => ?_, congrArg _⟩
  rw [← magnitude_ofMagnitude hb, h, magnitude_ofMagnitude ha]

theorem eq_infinity (h : x.isInf) : x = if isNegative x then -infinity else infinity := by
  rw [eq_ofMagnitude (not_isNaN_of_isInf h), isInf_iff.mp h, isNegative_ofMagnitude le_rfl]
  cases isNegative x <;> decide +kernel

/-! ### Values -/

theorem value?_eq_zero_iff : value? x = some 0 ↔ magnitude x = 0 := by
  have hlevel : level (magnitude x) = 0 ↔ magnitude x = 0 := by
    rw [← level_zero]
    exact ⟨fun h => Nat.le_zero.mp (level_le.mp h.le), congrArg level⟩
  rw [value?_eq]
  split
  · cases isNegative x <;> simp [hlevel]
  · next h =>
    refine ⟨nofun, fun h0 => absurd ?_ h⟩
    rw [h0]
    decide

theorem beq_zero_iff_value : x == zero ↔ value? x = some 0 :=
  beq_zero_iff.trans value?_eq_zero_iff.symm

theorem exists_value_iff : (∃ v, value? x = some v) ↔ x.isFinite := by
  rw [isFinite_iff, value?_eq]
  split <;> simp [*]

theorem lt_infinity_of_value {v : ℚ} (h : value? x = some v) : magnitude x < infinityMagnitude :=
  isFinite_iff.mp (exists_value_iff.mp ⟨v, h⟩)

/-- What has a value is neither infinite nor no number. -/
theorem number_of_value {v : ℚ} (h : value? x = some v) : ¬ x.isNaN ∧ ¬ x.isInf := by
  rw [isNaN_iff, isInf_iff]
  exact ⟨(lt_infinity_of_value h).not_gt, (lt_infinity_of_value h).ne⟩

theorem abs_of_value {v : ℚ} (h : value? x = some v) : |v| = level (magnitude x) := by
  obtain ⟨a, -, rfl, ⟨-, rfl⟩ | ⟨-, rfl⟩⟩ := exists_level h
  · exact abs_of_nonneg (level_zero ▸ level_le.mpr (Nat.zero_le _))
  · rw [abs_neg]
    exact abs_of_nonneg (level_zero ▸ level_le.mpr (Nat.zero_le _))

theorem lt_zero_iff_of_value {v : ℚ} (h : value? x = some v) : x < zero ↔ v < 0 := by
  rw [lt_zero_iff]
  obtain ⟨a, ha, rfl, ⟨hs, rfl⟩ | ⟨hs, rfl⟩⟩ := exists_level h
  · have hle : level 0 ≤ level (magnitude x) := level_le.mpr (Nat.zero_le _)
    rw [level_zero] at hle
    simp [hs, hle.not_gt]
  · rw [neg_neg_iff_pos, ← level_zero, level_lt]
    simp [hs, ha.le]

theorem isNegative_iff_of_value {v : ℚ} (h : value? x = some v) (hv : v ≠ 0) :
    isNegative x ↔ v < 0 := by
  have hm : 0 < magnitude x :=
    Nat.pos_of_ne_zero fun h0 => hv (Option.some.inj (h.symm.trans (value?_eq_zero_iff.mpr h0)))
  rw [← lt_zero_iff_of_value h, lt_zero_iff]
  exact ⟨fun hs => ⟨hs, hm, (lt_infinity_of_value h).le⟩, And.left⟩

/-! ### Signs -/

/-- An operation that changes signs only does so with a number. -/
theorem exists_sign_of_number (op : UnpackedFloat → UnpackedFloat) (g : Sign → Sign)
    (hop : ∀ s e f, op (UnpackedFloat.unpack Format.binary64 (fields s e f)) =
      UnpackedFloat.unpack Format.binary64 (fields (g s) e f)) (h : ¬ x.isNaN) :
    ∃ s, isNegative x = (s == .negative) ∧
      Float.ofModel (.pack (op x.toModel.unpack)) =
        ofMagnitude (g s == .negative) (magnitude x) := by
  obtain ⟨s, e, f, hx, hf⟩ := exists_fields_of_number h
  have hbits :
      (Float.ofModel (.pack (op x.toModel.unpack))).toBits.toBitVec = fields (g s) e f := by
    show UnpackedFloat.pack Format.binary64
      (op (UnpackedFloat.unpack Format.binary64 x.toBits.toBitVec)) = _
    rw [hx, hop, pack_unpack_fields hf]
  have hle : magnitude x ≤ infinityMagnitude := le_infinity_iff.mpr h
  refine ⟨s, isNegative_of_fields hx, eq_of_magnitude ?_ ?_⟩
  · rw [isNegative_of_fields hbits, isNegative_ofMagnitude hle]
  · rw [magnitude_of_fields hbits, magnitude_ofMagnitude hle, magnitude_of_fields hx]

/-- A number without its sign. -/
theorem abs_eq (h : ¬ x.isNaN) : x.abs = ofMagnitude false (magnitude x) := by
  obtain ⟨s, -, habs⟩ := exists_sign_of_number .abs (fun _ => .positive)
    (fun s e f => by
      obtain ⟨-, hu⟩ | ⟨-, -, m, q, pos, hu⟩ | ⟨-, hu⟩ | ⟨-, hu⟩ := unpack_fields e f <;>
      · rw [hu, hu]
        rfl) h
  exact habs

theorem abs_of_isNaN (h : x.isNaN) : x.abs = x := by
  rw [eq_nan h]
  decide +kernel

theorem magnitude_abs (x : Float) : magnitude x.abs = magnitude x := by
  by_cases h : x.isNaN
  · rw [abs_of_isNaN h]
  · rw [abs_eq h, magnitude_ofMagnitude (le_infinity_iff.mpr h)]

/-- The negation of a number has the other sign and the same magnitude. -/
theorem neg_eq (h : ¬ x.isNaN) : -x = ofMagnitude (!isNegative x) (magnitude x) := by
  obtain ⟨s, hs, hneg⟩ := exists_sign_of_number .neg (-·)
    (fun s e f => by
      obtain ⟨-, hu⟩ | ⟨-, -, m, q, pos, hu⟩ | ⟨-, hu⟩ | ⟨-, hu⟩ := unpack_fields e f <;>
      · rw [hu, hu]
        rfl) h
  rw [hs]
  cases s <;> exact hneg

theorem neg_of_isNaN (h : x.isNaN) : -x = x := by
  rw [eq_nan h]
  decide +kernel

theorem isNegative_neg (h : ¬ x.isNaN) : isNegative (-x) = !isNegative x := by
  rw [neg_eq h, isNegative_ofMagnitude (le_infinity_iff.mpr h)]

theorem magnitude_neg (x : Float) : magnitude (-x) = magnitude x := by
  by_cases h : x.isNaN
  · rw [neg_of_isNaN h]
  · rw [neg_eq h, magnitude_ofMagnitude (le_infinity_iff.mpr h)]

theorem abs_neg_eq (x : Float) : (-x).abs = x.abs := by
  by_cases h : x.isNaN
  · rw [neg_of_isNaN h]
  · have hneg : ¬ (-x).isNaN := by rwa [isNaN_iff, magnitude_neg, ← isNaN_iff]
    rw [abs_eq hneg, abs_eq h, magnitude_neg]

theorem isNaN_neg : (-x).isNaN ↔ x.isNaN := by
  rw [isNaN_iff, isNaN_iff, magnitude_neg]

theorem isInf_neg : (-x).isInf ↔ x.isInf := by
  rw [isInf_iff, isInf_iff, magnitude_neg]

theorem value?_neg_eq_zero_iff : value? (-x) = some 0 ↔ value? x = some 0 := by
  rw [value?_eq_zero_iff, value?_eq_zero_iff, magnitude_neg]

theorem value?_neg (x : Float) : value? (-x) = (value? x).map (-·) := by
  by_cases h : x.isNaN
  · have hnone : value? x = none := by
      rw [value?_eq, if_neg (isNaN_iff.mp h).not_gt]
    rw [neg_of_isNaN h, hnone]
    rfl
  · rw [value?_eq, value?_eq, magnitude_neg, isNegative_neg h]
    split
    · cases isNegative x <;> simp
    · rfl

end Reckoner.Binary64
