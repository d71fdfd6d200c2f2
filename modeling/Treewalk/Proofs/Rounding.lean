import Mathlib

/-!
# Rounding to a double

A number that is not negative is approximated by an integer with two more bits, which tell
on which side of the middle to the next integer it lies (`Lies`). Shifting the integer to
the right keeps this (`Lies.shiftRight`), so the bits are enough to round at the exponent
that a double has for the number, and the double found is the nearest of all, with an even
mantissa if there are two (`roundsTo_roundWithAccuracy`). How large an exponent may be is not
looked at here.
-/

namespace Treewalk.Rounding

open Float.Model Float.Model.UnpackedFloat

/-! ## Residual bits -/

/-- Where a number lies between `m` and `m + 1`. -/
inductive Lies (m : Nat) (y : ℚ) : Accuracy → Prop
  | exact : y = m → Lies m y .exact
  | below : m < y → y < m + 1 / 2 → Lies m y (.inexact .lt)
  | half : y = m + 1 / 2 → Lies m y (.inexact .eq)
  | above : m + 1 / 2 < y → y < m + 1 → Lies m y (.inexact .gt)

/-- `r` is the integer nearest to `y`, or the even one of two. -/
structure IsNearest (r : Nat) (y : ℚ) : Prop where
  le : |y - r| ≤ 1 / 2
  even : |y - r| = 1 / 2 → r % 2 = 0

section

variable {m : Nat} {y : ℚ} {acc : Accuracy}

theorem Lies.bounds (h : Lies m y acc) : (m : ℚ) ≤ y ∧ y < m + 1 := by
  cases h <;> constructor <;> linarith

theorem isNearest_of_lt {r : Nat} (hlow : -(1 / 2) < y - r) (hhigh : y - r < 1 / 2) :
    IsNearest r y := by
  have hlt : |y - r| < 1 / 2 := abs_lt.mpr ⟨hlow, hhigh⟩
  exact ⟨hlt.le, fun h => absurd h hlt.ne⟩

theorem Lies.isNearest (h : Lies m y acc) : IsNearest (acc.roundToNearestEven m) y := by
  cases h with
  | exact h => exact isNearest_of_lt (by rw [h]; simp [Accuracy.roundToNearestEven]) (by
      rw [h]
      simp [Accuracy.roundToNearestEven])
  | below hlow hhigh =>
    refine isNearest_of_lt ?_ ?_ <;> simp only [Accuracy.roundToNearestEven] <;> linarith
  | above hlow hhigh =>
    refine isNearest_of_lt ?_ ?_ <;> simp only [Accuracy.roundToNearestEven] <;> push_cast <;>
      linarith
  | half h =>
    -- of the two neighbours the even one is taken
    have hround : Accuracy.roundToNearestEven m (.inexact .eq) = m + m % 2 := rfl
    rw [hround, h]
    rcases Nat.mod_two_eq_zero_or_one m with hm | hm
    · refine ⟨?_, fun _ => by omega⟩
      rw [hm, Nat.add_zero, add_sub_cancel_left]
      norm_num
    · refine ⟨?_, fun _ => by omega⟩
      rw [hm]
      push_cast
      norm_num [abs_le]

theorem shiftRightOne_even (k : Nat) (r s : Bool) :
    ExtendedMantissa.shiftRightOne ⟨2 * k, r, s⟩ = ⟨k, false, r || s⟩ := by
  simp [ExtendedMantissa.shiftRightOne]

theorem shiftRightOne_odd (k : Nat) (r s : Bool) :
    ExtendedMantissa.shiftRightOne ⟨2 * k + 1, r, s⟩ = ⟨k, true, r || s⟩ := by
  simp [ExtendedMantissa.shiftRightOne]
  omega

theorem Lies.shiftRightOne {em : ExtendedMantissa} (h : Lies em.mantissa y em.accuracy) :
    Lies em.shiftRightOne.mantissa (y / 2) em.shiftRightOne.accuracy := by
  obtain ⟨m, r, s⟩ := em
  obtain ⟨k, rfl | rfl⟩ := Nat.even_or_odd' m
  · rw [shiftRightOne_even]
    cases r <;> cases s <;> cases h <;> push_cast at *
    · exact .exact (by linarith)
    all_goals exact .below (by linarith) (by linarith)
  · rw [shiftRightOne_odd]
    cases r <;> cases s <;> cases h <;> push_cast at *
    · exact .half (by linarith)
    all_goals exact .above (by linarith) (by linarith)

theorem Lies.shiftRight {em : ExtendedMantissa} (h : Lies em.mantissa y em.accuracy) (n : Nat) :
    Lies (em >>> n).mantissa (y / 2 ^ n) (em >>> n).accuracy := by
  induction n with
  | zero =>
    rw [pow_zero, div_one]
    exact h
  | succ n ih =>
    rw [pow_succ, ← div_div]
    exact ih.shiftRightOne

end

/-! ## The nearest of all doubles -/

/-- Mantissa and exponent as a double has them, however large the exponent. -/
structure Canonical (m : Nat) (e : Int) : Prop where
  lt : m < 2 ^ 53
  le : -1074 ≤ e
  normal : e = -1074 ∨ 2 ^ 52 ≤ m

/-- `m * 2 ^ e` is what a number rounds to: no double is nearer, and if another is as near
the mantissa is even. -/
structure Rounds (x : ℚ) (m : Nat) (e : Int) : Prop extends Canonical m e where
  nearest : ∀ (a : Nat) (b : Int), a < 2 ^ 53 → -1074 ≤ b → |x - m * 2 ^ e| ≤ |x - a * 2 ^ b|
  even : ∀ (a : Nat) (b : Int), a < 2 ^ 53 → -1074 ≤ b → |x - m * 2 ^ e| = |x - a * 2 ^ b| →
    (m * 2 ^ e : ℚ) = a * 2 ^ b ∨ m % 2 = 0

section

variable {r : Nat} {x y : ℚ} {e : Int}

theorem IsNearest.le_of_nat (h : IsNearest r y) (j : Nat) :
    |y - r| ≤ |y - j| ∧ (|y - r| = |y - j| → r = j ∨ r % 2 = 0) := by
  by_cases hj : r = j
  · subst hj
    exact ⟨le_rfl, fun _ => .inl rfl⟩
  · have hone : (1 : ℚ) ≤ |(r : ℚ) - j| := by
      have hint : (1 : ℤ) ≤ |(r : ℤ) - j| := Int.one_le_abs (by omega)
      exact_mod_cast hint
    have htriangle : |(r : ℚ) - j| ≤ |y - j| + |y - r| := by
      have habs := abs_sub_le (r : ℚ) y j
      rw [abs_sub_comm (r : ℚ) y] at habs
      linarith
    have hle := h.le
    refine ⟨by linarith, fun heq => .inr (h.even ?_)⟩
    linarith

theorem two_zpow_pos (e : Int) : (0 : ℚ) < 2 ^ e :=
  zpow_pos (by norm_num) e

theorem two_zpow_add (k : Nat) (e : Int) : (2 : ℚ) ^ (k + e) = 2 ^ k * 2 ^ e := by
  rw [zpow_add₀ (by norm_num), zpow_natCast]

theorem abs_sub_mul_zpow (x : ℚ) (m : ℚ) (e : Int) :
    |x - m * 2 ^ e| = |x / 2 ^ e - m| * 2 ^ e := by
  have hpos := two_zpow_pos e
  rw [← abs_of_pos hpos, ← abs_mul, abs_of_pos hpos, sub_mul, div_mul_cancel₀ _ hpos.ne']

/-- A number that is rounded at exponent `e` has no nearer double at any exponent. -/
theorem IsNearest.le_of_double (h : IsNearest r (x / 2 ^ e))
    (hlow : e = -1074 ∨ 2 ^ 52 ≤ x / 2 ^ e) {a : Nat} {b : Int} (ha : a < 2 ^ 53) (hb : -1074 ≤ b) :
    |x - r * 2 ^ e| ≤ |x - a * 2 ^ b| ∧
      (|x - r * 2 ^ e| = |x - a * 2 ^ b| → (r * 2 ^ e : ℚ) = a * 2 ^ b ∨ r % 2 = 0) := by
  have hpos := two_zpow_pos e
  rw [abs_sub_mul_zpow x r e]
  by_cases hbe : e ≤ b
  · -- the other double is a multiple of the same power
    obtain ⟨n, rfl⟩ := Int.le.dest hbe
    have ha' : (a * 2 ^ (e + n) : ℚ) = (a * 2 ^ n : Nat) * 2 ^ e := by
      rw [zpow_add₀ (by norm_num), zpow_natCast]
      push_cast
      ring
    obtain ⟨hle, heven⟩ := h.le_of_nat (a * 2 ^ n)
    rw [ha', abs_sub_mul_zpow]
    refine ⟨mul_le_mul_of_nonneg_right hle hpos.le, fun heq => ?_⟩
    refine (heven (mul_right_cancel₀ hpos.ne' heq)).imp_left fun hr => ?_
    rw [hr]
  · -- it is too small to be as near as the least number of this binade
    have hx := hlow.resolve_left (by omega)
    rw [le_div_iff₀ hpos] at hx
    have hb' : (2 : ℚ) ^ b ≤ 2 ^ (e - 1) := zpow_le_zpow_right₀ (by norm_num) (by omega)
    have hlt : (a * 2 ^ b : ℚ) < 2 ^ 52 * 2 ^ e := by
      have ha' : (a : ℚ) < 2 ^ 53 := by exact_mod_cast ha
      calc (a * 2 ^ b : ℚ) < 2 ^ 53 * 2 ^ b := mul_lt_mul_of_pos_right ha' (two_zpow_pos b)
        _ ≤ 2 ^ 53 * 2 ^ (e - 1) := by gcongr
        _ = 2 ^ 52 * 2 ^ e := by rw [zpow_sub_one₀ (by norm_num)]; ring
    have hstrict : |x / 2 ^ e - r| * 2 ^ e < |x - a * 2 ^ b| := by
      have hnearest := mul_le_mul_of_nonneg_right (h.le_of_nat (2 ^ 52)).1 hpos.le
      rw [← abs_sub_mul_zpow x ((2 ^ 52 : Nat) : ℚ)] at hnearest
      rw [Nat.cast_pow, Nat.cast_ofNat] at hnearest
      rw [abs_of_nonneg (a := x - 2 ^ 52 * 2 ^ e) (by linarith)] at hnearest
      rw [abs_of_nonneg (a := x - a * 2 ^ b) (by linarith)]
      linarith
    exact ⟨hstrict.le, fun heq => absurd heq hstrict.ne⟩

theorem IsNearest.rounds (h : IsNearest r (x / 2 ^ e)) (he : -1074 ≤ e)
    (hlow : e = -1074 ∨ 2 ^ 52 ≤ x / 2 ^ e) (hr : r < 2 ^ 53) : Rounds x r e := by
  refine ⟨⟨hr, he, hlow.imp_right fun hx => ?_⟩, fun a b ha hb => (h.le_of_double hlow ha hb).1,
    fun a b ha hb => (h.le_of_double hlow ha hb).2⟩
  -- an integer below the least of the binade is not as near
  by_contra hlt
  have hr' : (r : ℚ) + 1 ≤ 2 ^ 52 := by exact_mod_cast Nat.lt_of_not_le hlt
  have hle := (abs_le.mp h.le).2
  linarith

theorem IsNearest.rounds_carry (h : IsNearest (2 ^ 53) (x / 2 ^ e)) (he : -1074 ≤ e)
    (hlow : e = -1074 ∨ 2 ^ 52 ≤ x / 2 ^ e) : Rounds x (2 ^ 52) (e + 1) := by
  have hvalue : ((2 ^ 52 : Nat) : ℚ) * 2 ^ (e + 1) = (2 ^ 53 : Nat) * 2 ^ e := by
    rw [zpow_add_one₀ (by norm_num)]
    push_cast
    ring
  refine ⟨⟨by norm_num, by omega, .inr le_rfl⟩, fun a b ha hb => ?_, fun _ _ _ _ _ => .inr rfl⟩
  rw [hvalue]
  exact (h.le_of_double hlow ha hb).1

end

/-! ## The model's rounding -/

/-- What a number rounds to, as a float that is not packed yet. -/
inductive RoundsTo (x : ℚ) : UnpackedFloat → Prop
  | zero : Rounds x 0 (-1074) → RoundsTo x (.zero .positive)
  | finite {m : Nat} {e : Int} (hm : 0 < m) : Rounds x m e → RoundsTo x (.finite .positive m e hm)

section

variable {x : ℚ} {m : Nat} {e : Int} {acc : Accuracy}

theorem targetExponent_eq (t : Int) :
    Format.binary64.targetExponent t = max (t - 53) (-1074) := rfl

theorem lies_ofMantissaAndAccuracy {y : ℚ} (h : Lies m y acc) :
    Lies (ExtendedMantissa.ofMantissaAndAccuracy m acc).mantissa y
      (ExtendedMantissa.ofMantissaAndAccuracy m acc).accuracy := by
  cases h with
  | exact h => exact .exact h
  | below hlow hhigh => exact .below hlow hhigh
  | half h => exact .half h
  | above hlow hhigh => exact .above hlow hhigh

theorem lt_two_zpow (h : Lies m (x / 2 ^ e) acc) : x < 2 ^ totalExponent m e := by
  have hpos := two_zpow_pos e
  have hlt := (div_lt_iff₀ hpos).mp h.bounds.2
  have hm : (m + 1 : ℚ) ≤ 2 ^ (m.log2 + 1) := by exact_mod_cast Nat.lt_log2_self
  have htotal : (2 : ℚ) ^ totalExponent m e = 2 ^ (m.log2 + 1) * 2 ^ e := by
    rw [← two_zpow_add, totalExponent]
    norm_cast
  rw [htotal]
  exact hlt.trans_le (mul_le_mul_of_nonneg_right hm hpos.le)

theorem two_zpow_le (h : Lies m (x / 2 ^ e) acc) (hm : m ≠ 0) :
    2 ^ (totalExponent m e - 1) ≤ x := by
  have hpos := two_zpow_pos e
  have hle := (le_div_iff₀ hpos).mp h.bounds.1
  have hm : (2 ^ m.log2 : ℚ) ≤ m := by exact_mod_cast Nat.log2_self_le hm
  have htotal : (2 : ℚ) ^ (totalExponent m e - 1) = 2 ^ m.log2 * 2 ^ e := by
    rw [← two_zpow_add, totalExponent, show (m.log2 : Int) + 1 + e - 1 = m.log2 + e by ring]
  rw [htotal]
  exact (mul_le_mul_of_nonneg_right hm hpos.le).trans hle

/-- The first shift leaves a number to be rounded at the exponent that a double has for it. -/
theorem isNearest_shift (h : Lies m (x / 2 ^ e) acc)
    (he : e ≤ Format.binary64.targetExponent (totalExponent m e)) :
    let shifted := shiftToTargetExponent Format.binary64 m e acc
    IsNearest shifted.1.roundedMantissa (x / 2 ^ shifted.2) ∧ -1074 ≤ shifted.2 ∧
      (shifted.2 = -1074 ∨ 2 ^ 52 ≤ x / 2 ^ shifted.2) ∧ shifted.1.roundedMantissa ≤ 2 ^ 53 := by
  obtain ⟨n, hn⟩ := Int.le.dest he
  have hshift : shiftToTargetExponent Format.binary64 m e acc =
      (ExtendedMantissa.ofMantissaAndAccuracy m acc >>> n, e + n) := by
    have hamount : (Format.binary64.targetExponent (totalExponent m e) - e).toNat = n := by omega
    rw [shiftToTargetExponent, shiftToExponent, hamount]
  have hlies := (lies_ofMantissaAndAccuracy h).shiftRight n
  rw [div_div, ← zpow_natCast, ← zpow_add₀ (by norm_num)] at hlies
  rw [targetExponent_eq] at hn
  have hpos := two_zpow_pos (e + n)
  have hnearest := hlies.isNearest
  simp only [hshift]
  refine ⟨hnearest, by omega, ?_, ?_⟩
  · by_cases hmin : e + n = -1074
    · exact .inl hmin
    · -- a number that is not subnormal has all bits of its mantissa
      have hm : m ≠ 0 := by
        rintro rfl
        simp only [totalExponent, Nat.log2_zero] at hn
        omega
      have hle := two_zpow_le h hm
      rw [le_div_iff₀ hpos]
      rw [show totalExponent m e - 1 = (52 : Nat) + (e + n) by omega, two_zpow_add] at hle
      exact .inr hle
  · have hlt : x / 2 ^ (e + n) < 2 ^ 53 := by
      rw [div_lt_iff₀ hpos]
      rw [← two_zpow_add]
      exact (lt_two_zpow h).trans_le (zpow_le_zpow_right₀ (by norm_num) (by omega))
    have hle := (abs_le.mp hnearest.le).1
    have hround : (ExtendedMantissa.ofMantissaAndAccuracy m acc >>> n).roundedMantissa =
        (ExtendedMantissa.ofMantissaAndAccuracy m acc >>> n).accuracy.roundToNearestEven
          (ExtendedMantissa.ofMantissaAndAccuracy m acc >>> n).mantissa := rfl
    rw [← hround] at hle
    have hlt' : ((ExtendedMantissa.ofMantissaAndAccuracy m acc >>> n).roundedMantissa : ℚ) <
        2 ^ 53 + 1 := by linarith
    exact Nat.le_of_lt_succ (by exact_mod_cast hlt')

theorem shift_of_lt (hm : m < 2 ^ 53) (he : -1074 ≤ e) :
    shiftToTargetExponent Format.binary64 m e .exact = (⟨m, false, false⟩, e) := by
  have hlog : m.log2 < 53 := by
    by_cases h : m = 0
    · simp [h]
    · exact (Nat.log2_lt h).mpr hm
  have hamount : (Format.binary64.targetExponent (totalExponent m e) - e).toNat = 0 := by
    rw [targetExponent_eq, totalExponent]
    omega
  rw [shiftToTargetExponent, shiftToExponent, hamount]
  simp only [Nat.cast_zero, add_zero]
  rfl

theorem shift_carry (he : -1074 ≤ e) :
    shiftToTargetExponent Format.binary64 (2 ^ 53) e .exact = (⟨2 ^ 52, false, false⟩, e + 1) := by
  have hamount : (Format.binary64.targetExponent (totalExponent (2 ^ 53) e) - e).toNat = 1 := by
    rw [targetExponent_eq, totalExponent, Nat.log2_two_pow]
    omega
  rw [shiftToTargetExponent, shiftToExponent, hamount]
  rfl

theorem roundsTo_roundWithAccuracy (h : Lies m (x / 2 ^ e) acc)
    (he : e ≤ Format.binary64.targetExponent (totalExponent m e)) :
    RoundsTo x (roundWithAccuracy Format.binary64 .positive m e acc) := by
  obtain ⟨hnearest, hmin, hlow, hle⟩ := isNearest_shift h he
  rw [roundWithAccuracy]
  generalize shiftToTargetExponent Format.binary64 m e acc = shifted at *
  obtain ⟨em, e⟩ := shifted
  simp only at *
  rcases Nat.lt_or_eq_of_le hle with hlt | heq
  · rw [shift_of_lt hlt hmin]
    have hrounds := hnearest.rounds hmin hlow hlt
    simp only
    split
    · rename_i hzero
      rw [hzero] at hrounds
      obtain rfl : e = -1074 := hrounds.normal.resolve_right (by norm_num)
      exact .zero hrounds
    · exact .finite _ hrounds
  · rw [heq] at hnearest ⊢
    rw [shift_carry hmin]
    exact .finite _ (hnearest.rounds_carry hmin hlow)

end

end Treewalk.Rounding
