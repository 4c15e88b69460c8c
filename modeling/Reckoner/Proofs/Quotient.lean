import Reckoner.Arithmetic.Double
import Reckoner.Proofs.Kinds

/-!
# The quotient of doubles

What the quotient of two doubles is by IEEE 754 is said by `IsQuotient`: in which cases it is no
number, and else its sign, the infinities and zeros among the quotients, and that the quotient of
two finite doubles is rounded correctly. There is one such quotient (`isQuotient_divide`,
`IsQuotient.unique`), and it changes its sign with each of the operands (`IsQuotient.neg_left`,
`IsQuotient.neg_right`).

A machine need only divide by what is not zero. The quotient by zero is put together from the signs
of the operands, and the machine is not asked (`Machine.quotient_isQuotient`).
-/

namespace Reckoner

open Binary64

namespace Binary64

/-- `z` is the quotient of `x` and `y` by IEEE 754. -/
structure IsQuotient (x y z : Float) : Prop where
  undefined : z.isNaN ↔ x.isNaN ∨ y.isNaN ∨ (x.isInf ∧ y.isInf) ∨
    (value? x = some 0 ∧ value? y = some 0)
  sign : ¬ z.isNaN → isNegative z = (isNegative x ^^ isNegative y)
  infinite : ¬ z.isNaN → x.isInf ∨ value? y = some 0 → z.isInf
  vanishing : ¬ z.isNaN → y.isInf → value? z = some 0
  rounded {v w : ℚ} : value? x = some v → value? y = some w → w ≠ 0 → Rounds |v / w| z.abs

variable {x y z : Float}

namespace IsQuotient

/-- **There is one quotient.** -/
theorem unique {z' : Float} (h : IsQuotient x y z) (h' : IsQuotient x y z') : z = z' := by
  have hnan : z.isNaN ↔ z'.isNaN := h.undefined.trans h'.undefined.symm
  by_cases hz : z.isNaN
  · rw [eq_nan hz, eq_nan (hnan.mp hz)]
  have hz' : ¬ z'.isNaN := hnan.not.mp hz
  refine eq_of_magnitude ((h.sign hz).trans (h'.sign hz').symm) ?_
  by_cases hinf : x.isInf ∨ value? y = some 0
  · rw [isInf_iff.mp (h.infinite hz hinf), isInf_iff.mp (h'.infinite hz' hinf)]
  by_cases hy : y.isInf
  · rw [value?_eq_zero_iff.mp (h.vanishing hz hy), value?_eq_zero_iff.mp (h'.vanishing hz' hy)]
  -- both operands are finite now, and the divisor is not zero
  rw [h.undefined, not_or, not_or] at hz
  rw [not_or] at hinf
  obtain ⟨v, hv⟩ := exists_value_iff.mpr (isFinite_of_number hz.1 hinf.1)
  obtain ⟨w, hw⟩ := exists_value_iff.mpr (isFinite_of_number hz.2.1 hy)
  have hne : w ≠ 0 := fun h0 => hinf.2 (h0 ▸ hw)
  have habs := (h.rounded hv hw hne).unique (h'.rounded hv hw hne)
  rw [← magnitude_abs z, habs, magnitude_abs]

/-- The quotient changes its sign with the first operand. -/
theorem neg_left (h : IsQuotient x y z) : IsQuotient (-x) y (-z) where
  undefined := by
    rw [isNaN_neg, isNaN_neg, isInf_neg, value?_neg_eq_zero_iff]
    exact h.undefined
  sign hz := by
    rw [isNaN_neg] at hz
    rw [isNegative_neg hz, isNegative_neg fun hx => hz (h.undefined.mpr (.inl hx)), h.sign hz,
      Bool.not_xor]
  infinite hz := by
    rw [isNaN_neg] at hz
    rw [isInf_neg, isInf_neg]
    exact h.infinite hz
  vanishing hz := by
    rw [isNaN_neg] at hz
    rw [value?_neg_eq_zero_iff]
    exact h.vanishing hz
  rounded {v w} hv hw hne := by
    rw [value?_neg, Option.map_eq_some_iff] at hv
    obtain ⟨u, hu, rfl⟩ := hv
    rw [abs_neg_eq, neg_div, abs_neg]
    exact h.rounded hu hw hne

/-- The quotient changes its sign with the second operand. -/
theorem neg_right (h : IsQuotient x y z) : IsQuotient x (-y) (-z) where
  undefined := by
    rw [isNaN_neg, isNaN_neg, isInf_neg, value?_neg_eq_zero_iff]
    exact h.undefined
  sign hz := by
    rw [isNaN_neg] at hz
    rw [isNegative_neg hz, isNegative_neg fun hy => hz (h.undefined.mpr (.inr (.inl hy))),
      h.sign hz, Bool.xor_not]
  infinite hz := by
    rw [isNaN_neg] at hz
    rw [isInf_neg, value?_neg_eq_zero_iff]
    exact h.infinite hz
  vanishing hz := by
    rw [isNaN_neg] at hz
    rw [isInf_neg, value?_neg_eq_zero_iff]
    exact h.vanishing hz
  rounded {v w} hv hw hne := by
    rw [value?_neg, Option.map_eq_some_iff] at hw
    obtain ⟨u, hu, rfl⟩ := hw
    rw [abs_neg_eq, div_neg, abs_neg]
    exact h.rounded hv hu (neg_ne_zero.mp hne)

end IsQuotient

/-! ### A quotient of any two doubles -/

theorem abs_ofMagnitude {negative : Bool} {b : Nat} (hb : b ≤ infinityMagnitude) :
    (ofMagnitude negative b).abs = ofMagnitude false b := by
  rw [abs_eq (not_isNaN_ofMagnitude hb), magnitude_ofMagnitude hb]

theorem units_pos_of_value {w : ℚ} (h : value? x = some w) (hne : w ≠ 0) :
    0 < units (magnitude x) := by
  rw [← units_zero, units_strictMono.lt_iff_lt]
  refine Nat.pos_of_ne_zero fun h0 => hne ?_
  exact Option.some.inj (h.symm.trans (value?_eq_zero_iff.mpr h0))

/-- The quotient by IEEE 754, found by rounding the exact ratio of the magnitudes. -/
def divide (x y : Float) : Float :=
  if x.isNaN ∨ y.isNaN ∨ (x.isInf ∧ y.isInf) ∨ (x == zero ∧ y == zero) then nan
  else
    ofMagnitude (isNegative x ^^ isNegative y)
      (if x.isInf ∨ y == zero then infinityMagnitude
      else if y.isInf then 0
      else nearest (units (magnitude x)) (units (magnitude y)))

/-- **There is a quotient.** -/
theorem isQuotient_divide (x y : Float) : IsQuotient x y (divide x y) := by
  unfold divide
  simp only [beq_zero_iff_value]
  split
  · next h =>
    have hnan : nan.isNaN := by decide +kernel
    refine ⟨iff_of_true hnan h, fun hz => absurd hnan hz, fun hz => absurd hnan hz,
      fun hz => absurd hnan hz, fun {v w} hv hw hne => ?_⟩
    rw [hw, Option.some.injEq] at h
    have hx := number_of_value hv
    have hy := number_of_value hw
    tauto
  · next h =>
    generalize hb : (if x.isInf ∨ value? y = some 0 then infinityMagnitude
      else if y.isInf then 0 else nearest (units (magnitude x)) (units (magnitude y))) = b
    have hle : b ≤ infinityMagnitude := by
      rw [← hb]
      split
      · exact le_rfl
      · split
        · exact Nat.zero_le _
        · exact nearest_le_infinity _ _
    refine ⟨iff_of_false (not_isNaN_ofMagnitude hle) h, fun _ => isNegative_ofMagnitude hle,
      fun _ hinf => ?_, fun _ hinf => ?_, fun {v w} hv hw hne => ?_⟩
    · rw [isInf_iff, magnitude_ofMagnitude hle, ← hb, if_pos hinf]
    · have hfin : ¬ (x.isInf ∨ value? y = some 0) := by
        rintro (hx | hy)
        · exact h (.inr (.inr (.inl ⟨hx, hinf⟩)))
        · exact (number_of_value hy).2 hinf
      rw [value?_eq_zero_iff, magnitude_ofMagnitude hle, ← hb, if_neg hfin, if_pos hinf]
    · have hfin : ¬ (x.isInf ∨ value? y = some 0) := by
        rw [hw, Option.some.injEq]
        exact not_or.mpr ⟨(number_of_value hv).2, hne⟩
      rw [if_neg hfin, if_neg (number_of_value hw).2] at hb
      rw [abs_ofMagnitude hle, ← hb, abs_div, abs_of_value hv, abs_of_value hw, level, level,
        mul_div_mul_right _ _ unit_pos.ne']
      exact rounds_nearest _ (units_pos_of_value hw hne)

/-! ### The quotient by zero -/

/-- An infinity with the sign of `x`, times one with the sign of `y`. -/
theorem copySign_infinity_mul (x y : Float) : copySign infinity x * copySign one y =
    ofMagnitude (isNegative x ^^ isNegative y) infinityMagnitude := by
  unfold copySign
  cases isNegative x <;> cases isNegative y <;> decide +kernel

/-- The quotient by zero is put together from the signs. -/
theorem isQuotient_zero (hy : value? y = some 0) :
    IsQuotient x y (if x == zero || x.isNaN then nan
      else copySign infinity x * copySign one y) := by
  have hzero : y == zero := beq_zero_iff_value.mpr hy
  have hundefined : (x.isNaN ∨ y.isNaN ∨ (x.isInf ∧ y.isInf) ∨ (x == zero ∧ y == zero)) ↔
      x == zero ∨ x.isNaN := by
    have hnumber := number_of_value hy
    tauto
  have hdivide := isQuotient_divide x y
  simp only [divide, hundefined, if_pos (Or.inr hzero)] at hdivide
  simpa only [copySign_infinity_mul, Bool.or_eq_true] using hdivide

end Binary64

namespace Machine

theorem quotient_of_zero {m : Type → Type} [Monad m] (M : Machine m) {y : Float}
    (hy : value? y = some 0) (x : Float) :
    M.quotient x y = pure (if x == zero || x.isNaN then nan
      else copySign infinity x * copySign one y) :=
  if_pos (beq_zero_iff_value.mpr hy)

variable {ε : Type} {M : Machine (Except ε)}

theorem quotient_of_ne_zero {y : Float} (hy : value? y ≠ some 0) (x : Float) :
    M.quotient x y = M.divide x y :=
  if_neg fun h => hy (beq_zero_iff_value.mp h)

/-- The machine divides by what is not zero as IEEE 754 has it. -/
def Divides (M : Machine (Except ε)) : Prop :=
  ∀ x y, value? y ≠ some 0 → ∃ z, M.divide x y = .ok z ∧ IsQuotient x y z

theorem Divides.exists_quotient (h : M.Divides) (x y : Float) :
    ∃ z, M.quotient x y = .ok z ∧ IsQuotient x y z := by
  by_cases hy : value? y = some 0
  · exact ⟨_, M.quotient_of_zero hy x, isQuotient_zero hy⟩
  · rw [quotient_of_ne_zero hy]
    exact h x y hy

/-- **The quotient is that of IEEE 754** for any two doubles. By zero it is the same on every
machine, so none is asked for it: it is no number if the dividend is zero or none, and else infinite
with both signs. The negation of an operand negates the quotient. -/
theorem quotient_isQuotient (hM : M.Divides) (x y : Float) :
    ∃ z, M.quotient x y = .ok z ∧ IsQuotient x y z ∧
      (value? y = some 0 →
        (∀ (m : Type → Type) [Monad m] (N : Machine m), N.quotient x y = pure z) ∧
        (value? x = some 0 ∨ x.isNaN → z.isNaN) ∧
        (value? x ≠ some 0 → ¬ x.isNaN →
          z.isInf ∧ isNegative z = (isNegative x ^^ isNegative y))) ∧
      M.quotient (-x) y = .ok (-z) ∧ M.quotient x (-y) = .ok (-z) := by
  obtain ⟨z, hz, hq⟩ := hM.exists_quotient x y
  obtain ⟨l, hl, hql⟩ := hM.exists_quotient (-x) y
  obtain ⟨r, hr, hqr⟩ := hM.exists_quotient x (-y)
  refine ⟨z, hz, hq, fun hy => ⟨fun m _ N => ?_, fun hx => ?_, fun hx hnan => ?_⟩, ?_, ?_⟩
  · rw [M.quotient_of_zero hy] at hz
    rw [N.quotient_of_zero hy, ← Except.ok.inj hz]
  · exact hq.undefined.mpr (hx.elim (fun h => .inr (.inr (.inr ⟨h, hy⟩))) .inl)
  · have hznan : ¬ z.isNaN := by
      have hnumber := number_of_value hy
      rw [hq.undefined]
      tauto
    exact ⟨hq.infinite hznan (.inr hy), hq.sign hznan⟩
  · rw [hl, hql.unique hq.neg_left]
  · rw [hr, hqr.unique hq.neg_right]

/-- A machine that refuses to divide by zero. Only its division is of interest. -/
def dividing : Machine (Except Unit) where
  divide x y := if y == zero then .error () else .ok (Binary64.divide x y)
  sqrt _ := .error ()
  log _ := .error ()
  sin _ := .error ()
  cos _ := .error ()
  power _ _ := .error .domain

theorem dividing_divides : dividing.Divides := fun x y hy =>
  ⟨_, if_neg fun h => hy (beq_zero_iff_value.mp h), isQuotient_divide x y⟩

/-- The quotient of one and negative zero is the negative infinity. -/
theorem quotient_isQuotient_negative_zero :
    value? (-zero) = some 0 ∧ ∃ z, dividing.quotient one (-zero) = .ok z ∧ z = -infinity ∧
      dividing.quotient (-one) (-zero) = .ok (-z) ∧
        dividing.quotient one (-(-zero)) = .ok (-z) := by
  have hzero : value? (-zero) = some 0 := value?_eq_zero_iff.mpr (by decide +kernel)
  obtain ⟨z, hz, -, -, hneg⟩ := quotient_isQuotient dividing_divides one (-zero)
  refine ⟨hzero, z, hz, ?_, hneg⟩
  rw [dividing.quotient_of_zero hzero] at hz
  rw [← Except.ok.inj hz]
  decide +kernel

end Machine

end Reckoner
