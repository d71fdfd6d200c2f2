import Treewalk.Decimal.Shortest
import Treewalk.Proofs.Rounding

/-!
# The double nearest to a number

`Nearest` says which double stands for a number that is not negative, in terms of the values
of all doubles alone. What the number rounds to while exponents are not bounded gives that
double when it is packed (`nearest_of_roundsTo`), and there is only one (`Nearest.unique`).
-/

namespace Treewalk.Decimal

open Float.Model Float.Model.UnpackedFloat
open Rounding

def Magnitude.value (size : Magnitude) : ℚ :=
  size.mantissa * 2 ^ size.exponent

/-- None of the finite doubles `m * 2 ^ e` is nearer to the number, and if another is as near
the mantissa is even. -/
def Closest (q : ℚ) (size : Magnitude) : Prop :=
  ∀ (m : Nat) (e : Int), m < 2 ^ 53 → -1074 ≤ e → e ≤ 971 →
    |q - size.value| ≤ |q - m * 2 ^ e| ∧
      (|q - size.value| = |q - m * 2 ^ e| → size.value = m * 2 ^ e ∨ size.mantissa % 2 = 0)

/-- The double that a number which is not negative rounds to. It is infinite from half a step
past the largest finite double on. -/
inductive Nearest (q : ℚ) (x : Float) : Prop
  | finite (size : Magnitude) : Parts.ofFloat x = .finite false size →
    q < 2 ^ 1024 - 2 ^ 970 → Closest q size → Nearest q x
  | infinite : Parts.ofFloat x = .infinite false → 2 ^ 1024 - 2 ^ 970 ≤ q → Nearest q x

/-! ## Bits -/

theorem toNat_packComponents (exponent : BitVec 11) (mantissa : BitVec 52) :
    (packComponents Format.binary64 .positive exponent mantissa).toNat =
      exponent.toNat * 2 ^ 52 + mantissa.toNat := by
  rw [packComponents, BitVec.toNat_append, BitVec.toNat_append,
    ← Nat.shiftLeft_add_eq_or_of_lt mantissa.isLt]
  simp [Sign.toBitVec, Nat.shiftLeft_eq]

/-- What the bits of a double say that is not negative. -/
theorem ofBits_fields {biased fraction : Nat} (hb : biased < 2048) (hf : fraction < 2 ^ 52) :
    Parts.ofBits (biased * 2 ^ 52 + fraction) =
      if biased = 2047 then if fraction = 0 then .infinite false else .nan
      else if biased = 0 then .finite false ⟨fraction, -1074, false⟩
      else .finite false
        ⟨fraction + 2 ^ 52, (biased : Int) - 1075, decide (fraction = 0 ∧ 1 < biased)⟩ := by
  have hnegative : decide (Nat.pow 2 63 ≤ biased * 2 ^ 52 + fraction) = false :=
    decide_eq_false (by simp only [Nat.pow_eq]; omega)
  have hbiased : (biased * 2 ^ 52 + fraction) / Nat.pow 2 52 % 2048 = biased := by
    simp only [Nat.pow_eq]
    omega
  have hfraction : (biased * 2 ^ 52 + fraction) % Nat.pow 2 52 = fraction := by
    simp only [Nat.pow_eq]
    omega
  simp only [Parts.ofBits, hnegative, hbiased, hfraction]
  rfl

/-- The double with a mantissa and an exponent, or an infinite one. -/
def packed (u : UnpackedFloat) : Float :=
  .ofModel (Float.Model.pack u)

theorem ofFloat_packed (u : UnpackedFloat) :
    Parts.ofFloat (packed u) = Parts.ofBits (UnpackedFloat.pack Format.binary64 u).toNat := rfl

section

variable {x : ℚ} {m : Nat} {e : Int}

theorem ofFloat_zero :
    Parts.ofFloat (packed (.zero .positive)) = .finite false ⟨0, -1074, false⟩ := by
  rw [ofFloat_packed, UnpackedFloat.pack, packedZero, toNat_packComponents]
  exact ofBits_fields (by decide) (by decide)

theorem pack_finite (hm : 0 < m) (he : e ≤ 971) :
    UnpackedFloat.pack Format.binary64 (.finite .positive m e hm) =
      packComponents Format.binary64 .positive
        (if m.log2 + 1 = 53 then BitVec.ofNat 11 (e + 1075).toNat else 0) (BitVec.ofNat 52 m) := by
  have hbias : ¬ 2 ^ 11 ≤ (e + 1023 + 52).toNat + 1 := by omega
  have hsum : e + 1023 + 52 = e + 1075 := by omega
  rw [← hsum, apply_ite (packComponents Format.binary64 .positive · _)]
  exact if_neg hbias

theorem ofFloat_infinite (hm : 0 < m) (he : 972 ≤ e) :
    Parts.ofFloat (packed (.finite .positive m e hm)) = .infinite false := by
  have hbias : 2 ^ 11 ≤ (e + 1023 + 52).toNat + 1 := by omega
  have hpack : UnpackedFloat.pack Format.binary64 (.finite .positive m e hm) =
      packedInfinity Format.binary64 .positive := if_pos hbias
  rw [ofFloat_packed, hpack, packedInfinity, toNat_packComponents]
  exact ofBits_fields (by decide) (by decide)

theorem ofFloat_finite (hm : 0 < m) (hr : Rounds x m e) (he : e ≤ 971) :
    ∃ tight, Parts.ofFloat (packed (.finite .positive m e hm)) = .finite false ⟨m, e, tight⟩ := by
  have hlt := hr.lt
  have hmin := hr.le
  rw [ofFloat_packed, pack_finite hm he]
  by_cases hnormal : 2 ^ 52 ≤ m
  · have hlog : m.log2 = 52 := (Nat.log2_eq_iff hm.ne').mpr ⟨hnormal, hlt⟩
    have hbiased : (BitVec.ofNat 11 (e + 1075).toNat).toNat = (e + 1075).toNat := by
      rw [BitVec.toNat_ofNat]
      omega
    have hfraction : (BitVec.ofNat 52 m).toNat = m - 2 ^ 52 := by
      rw [BitVec.toNat_ofNat]
      omega
    rw [hlog, if_pos rfl, toNat_packComponents, hbiased, hfraction,
      ofBits_fields (by omega) (by omega), if_neg (by omega), if_neg (by omega),
      Nat.sub_add_cancel hnormal, show ((e + 1075).toNat : Int) - 1075 = e by omega]
    exact ⟨_, rfl⟩
  · obtain rfl := hr.normal.resolve_right hnormal
    have hlog : m.log2 < 52 := (Nat.log2_lt hm.ne').mpr (Nat.lt_of_not_le hnormal)
    have hfraction : (BitVec.ofNat 52 m).toNat = m := by
      rw [BitVec.toNat_ofNat]
      omega
    rw [if_neg (by omega), toNat_packComponents, hfraction]
    exact ⟨false, ofBits_fields (by decide) (by omega)⟩

end

/-! ## The largest double -/

section

variable {x : ℚ} {m : Nat} {e : Int}

theorem two_zpow_971 : (2 : ℚ) ^ (971 : Int) = 2 * 2 ^ 970 := by
  rw [show (971 : Int) = (1 : Nat) + (970 : Nat) from rfl, two_zpow_add, zpow_natCast, pow_one]

theorem two_zpow_972 : (2 : ℚ) ^ (972 : Int) = 4 * 2 ^ 970 := by
  rw [show (972 : Int) = (2 : Nat) + (970 : Nat) from rfl, two_zpow_add, zpow_natCast]
  norm_num

theorem two_pow_1024 : (2 ^ 1024 : ℚ) = 2 ^ 54 * 2 ^ 970 := by
  rw [← pow_add]

/-- A number that rounds to a double with an exponent in the range is not half a step past
the largest double: `2 ^ 1024` would be nearer, or as near and even. -/
theorem lt_threshold (h : Rounds x m e) (he : e ≤ 971) : x < 2 ^ 1024 - 2 ^ 970 := by
  have hu : (0 : ℚ) < 2 ^ 970 := by positivity
  have hpower : (2 : ℚ) ^ e ≤ 2 ^ (971 : Int) := zpow_le_zpow_right₀ (by norm_num) he
  have hnearest := h.nearest (2 ^ 52) 972 (by norm_num) (by norm_num)
  have heven := h.even (2 ^ 52) 972 (by norm_num) (by norm_num)
  have hlt := h.lt
  rw [two_zpow_971] at hpower
  rw [two_zpow_972] at hnearest heven
  rw [two_pow_1024]
  generalize (2 : ℚ) ^ 970 = u at *
  generalize hv : (m * 2 ^ e : ℚ) = v at *
  have hle : v ≤ m * (2 * u) := hv ▸ mul_le_mul_of_nonneg_left hpower (Nat.cast_nonneg m)
  by_contra hx
  have hm : (m : ℚ) ≤ 2 ^ 53 - 1 := by
    have hm' : (m : ℚ) + 1 ≤ 2 ^ 53 := by exact_mod_cast hlt
    linarith
  have hle' : v ≤ (2 ^ 53 - 1) * (2 * u) := hle.trans (mul_le_mul_of_nonneg_right hm (by linarith))
  push_cast at hnearest heven
  rw [abs_of_pos (a := x - v) (by linarith)] at hnearest heven
  rcases le_total (2 ^ 54 * u) x with hlarge | hsmall
  · rw [abs_of_nonneg (by linarith)] at hnearest
    linarith
  · rw [abs_sub_comm, abs_of_nonneg (by linarith)] at hnearest heven
    have hodd : m = 2 ^ 53 - 1 := by
      by_contra hne
      have hm2 : m + 2 ≤ 2 ^ 53 := by omega
      have hm3 : (m : ℚ) + 2 ≤ 2 ^ 53 := by exact_mod_cast hm2
      have hle2 := mul_le_mul_of_nonneg_right hm3 (by linarith : 0 ≤ 2 * u)
      linarith
    rcases heven (by linarith) with heq | hmod
    · linarith
    · omega

theorem threshold_le (h : Rounds x m e) (he : 972 ≤ e) : 2 ^ 1024 - 2 ^ 970 ≤ x := by
  have hu : (0 : ℚ) < 2 ^ 970 := by positivity
  have hpower : (2 : ℚ) ^ (972 : Int) ≤ 2 ^ e := zpow_le_zpow_right₀ (by norm_num) he
  have hnearest := h.nearest (2 ^ 53 - 1) 971 (by norm_num) (by norm_num)
  have hnormal : (2 ^ 52 : ℚ) ≤ m := by exact_mod_cast h.normal.resolve_left (by omega)
  rw [two_zpow_971] at hnearest
  rw [two_zpow_972] at hpower
  rw [two_pow_1024]
  generalize (2 : ℚ) ^ 970 = u at *
  have hle : 2 ^ 52 * (4 * u) ≤ m * 2 ^ e :=
    mul_le_mul hnormal hpower (by linarith) (Nat.cast_nonneg m)
  generalize (m * 2 ^ e : ℚ) = v at *
  by_contra hx
  rw [show ((2 ^ 53 - 1 : Nat) : ℚ) = 2 ^ 53 - 1 by norm_num, abs_sub_comm x v,
    abs_of_nonneg (a := v - x) (by linarith)] at hnearest
  rcases abs_cases (x - (2 ^ 53 - 1) * (2 * u)) with ⟨habs, -⟩ | ⟨habs, -⟩
  · linarith
  · linarith

end

theorem nearest_of_roundsTo {x : ℚ} {u : UnpackedFloat} (h : RoundsTo x u) :
    Nearest x (packed u) := by
  cases h with
  | zero h =>
    refine .finite _ ofFloat_zero (lt_threshold h (by decide)) fun m e hm hmin _ => ?_
    exact ⟨h.nearest m e hm hmin, h.even m e hm hmin⟩
  | @finite m e hm h =>
    by_cases he : e ≤ 971
    · obtain ⟨tight, hparts⟩ := ofFloat_finite hm h he
      refine .finite _ hparts (lt_threshold h he) fun m e hm hmin _ => ?_
      exact ⟨h.nearest m e hm hmin, h.even m e hm hmin⟩
    · exact .infinite (ofFloat_infinite hm (by omega)) (threshold_le h (by omega))

/-! ## One double only -/

section

variable {m m' : Nat} {e e' : Int} {tight : Bool} {q : ℚ} {x y : Float}

/-- The bits of a double that is finite and not negative. -/
def bitsOf (m : Nat) (e : Int) : Nat :=
  if m < 2 ^ 52 then m else (e + 1075).toNat * 2 ^ 52 + (m - 2 ^ 52)

theorem canonical_of_ofFloat (h : Parts.ofFloat x = .finite false ⟨m, e, tight⟩) :
    Canonical m e ∧ e ≤ 971 ∧ x.toBits.toNat = bitsOf m e := by
  have hlt := x.toBits.toNat_lt
  simp only [Parts.ofFloat, Parts.ofBits, Nat.pow_eq] at h
  generalize x.toBits.toNat = bits at h hlt ⊢
  split at h
  · split at h <;> cases h
  · split at h <;>
      · simp only [Parts.finite.injEq, Magnitude.mk.injEq, decide_eq_false_iff_not] at h
        obtain ⟨hsign, rfl, rfl, -⟩ := h
        refine ⟨⟨by omega, by omega, by omega⟩, by omega, ?_⟩
        unfold bitsOf
        split <;> omega

theorem toBits_of_infinite (h : Parts.ofFloat x = .infinite false) :
    x.toBits.toNat = 2047 * 2 ^ 52 := by
  have hlt := x.toBits.toNat_lt
  simp only [Parts.ofFloat, Parts.ofBits, Nat.pow_eq] at h
  generalize x.toBits.toNat = bits at h hlt ⊢
  split at h
  · split at h
    · simp only [Parts.infinite.injEq, decide_eq_false_iff_not] at h
      omega
    · cases h
  · split at h <;> cases h

theorem eq_of_toBits (h : x.toBits.toNat = y.toBits.toNat) : x = y :=
  Float.toBits_inj.mp (UInt64.toNat_inj.mp h)

theorem le_of_value_eq (h : Canonical m e) (h' : Canonical m' e')
    (heq : (m * 2 ^ e : ℚ) = m' * 2 ^ e') : e' ≤ e := by
  by_contra hlt
  -- the larger exponent belongs to a mantissa with all its bits
  have hm : (m : ℚ) < 2 ^ 53 := by exact_mod_cast h.lt
  have hm' : (2 ^ 52 : ℚ) ≤ m' := by
    exact_mod_cast h'.normal.resolve_left (by have := h.le; omega)
  have hpower : (2 : ℚ) ^ (e + 1) ≤ 2 ^ e' := zpow_le_zpow_right₀ (by norm_num) (by omega)
  rw [zpow_add_one₀ (by norm_num)] at hpower
  have hpos := two_zpow_pos e
  have hle : (2 ^ 52 * (2 ^ e * 2) : ℚ) ≤ m' * 2 ^ e' :=
    mul_le_mul hm' hpower (by positivity) (Nat.cast_nonneg m')
  have hmul := mul_lt_mul_of_pos_right hm hpos
  linarith

theorem eq_of_value_eq (h : Canonical m e) (h' : Canonical m' e')
    (heq : (m * 2 ^ e : ℚ) = m' * 2 ^ e') : m = m' ∧ e = e' := by
  obtain rfl : e = e' := le_antisymm (le_of_value_eq h' h heq.symm) (le_of_value_eq h h' heq)
  exact ⟨by exact_mod_cast mul_right_cancel₀ (two_zpow_pos e).ne' heq, rfl⟩

/-- Between two doubles with even mantissas there is another. -/
theorem lt_of_even (h : Canonical m e) (h' : Canonical m' e')
    (hlt : (m * 2 ^ e : ℚ) < m' * 2 ^ e') (heven : m % 2 = 0) (heven' : m' % 2 = 0) :
    m + 1 < 2 ^ 53 ∧ ((m + 1 : Nat) * 2 ^ e : ℚ) < m' * 2 ^ e' := by
  have hm := h.lt
  have hnext : Canonical (m + 1) e := ⟨by omega, h.le, h.normal.imp_right Nat.le_succ_of_le⟩
  refine ⟨hnext.lt, lt_of_le_of_ne ?_ fun heq => ?_⟩
  · by_cases he : e ≤ e'
    · obtain ⟨n, rfl⟩ := Int.le.dest he
      have hvalue : (m' * 2 ^ (e + n) : ℚ) = (m' * 2 ^ n : Nat) * 2 ^ e := by
        rw [add_comm, two_zpow_add]
        push_cast
        ring
      rw [hvalue] at hlt ⊢
      have hlt' : m < m' * 2 ^ n := by exact_mod_cast lt_of_mul_lt_mul_right hlt (two_zpow_pos e).le
      have hle : ((m + 1 : Nat) : ℚ) ≤ (m' * 2 ^ n : Nat) := by exact_mod_cast hlt'
      exact mul_le_mul_of_nonneg_right hle (two_zpow_pos e).le
    · -- all doubles of the smaller exponent are below those of the larger
      have hm : (2 ^ 52 : ℚ) ≤ m := by
        exact_mod_cast h.normal.resolve_left (by have := h'.le; omega)
      have hm' : (m' : ℚ) < 2 ^ 53 := by exact_mod_cast h'.lt
      have hpower : (2 : ℚ) ^ (e' + 1) ≤ 2 ^ e := zpow_le_zpow_right₀ (by norm_num) (by omega)
      rw [zpow_add_one₀ (by norm_num)] at hpower
      have hpos := two_zpow_pos e'
      have hle : (2 ^ 52 * (2 ^ e' * 2) : ℚ) ≤ m * 2 ^ e :=
        mul_le_mul hm hpower (by positivity) (Nat.cast_nonneg m)
      have hmul := mul_lt_mul_of_pos_right hm' hpos
      linarith
  · obtain ⟨rfl, -⟩ := eq_of_value_eq hnext h' heq
    omega

theorem abs_sub_lt_of_between {v w u : ℚ} (h : |q - v| = |q - w|) (hv : v < u) (hw : u < w) :
    |q - u| < |q - v| := by
  rcases abs_cases (q - v) with ⟨hqv, hv'⟩ | ⟨hqv, hv'⟩ <;>
    rcases abs_cases (q - w) with ⟨hqw, hw'⟩ | ⟨hqw, hw'⟩ <;>
    rw [hqv, hqw] at h <;> rw [hqv, abs_lt] <;> constructor <;> linarith

theorem Closest.not_lt {s t : Magnitude} (hs : Closest q s) (ht : Closest q t)
    (hcs : Canonical s.mantissa s.exponent) (hes : s.exponent ≤ 971)
    (hct : Canonical t.mantissa t.exponent) (het : t.exponent ≤ 971) : ¬ s.value < t.value := by
  intro hlt
  obtain ⟨hle, heven⟩ := hs t.mantissa t.exponent hct.lt hct.le het
  obtain ⟨hle', heven'⟩ := ht s.mantissa s.exponent hcs.lt hcs.le hes
  have heq : |q - s.value| = |q - t.value| := le_antisymm hle hle'
  obtain ⟨hnext, hbetween⟩ := lt_of_even hcs hct hlt ((heven heq).resolve_left hlt.ne)
    ((heven' heq.symm).resolve_left hlt.ne')
  have hstep : s.value < (s.mantissa + 1 : Nat) * 2 ^ s.exponent := by
    rw [Nat.cast_succ, add_mul, one_mul]
    exact lt_add_of_pos_right _ (two_zpow_pos _)
  have hcloser := abs_sub_lt_of_between heq hstep hbetween
  exact absurd (hs (s.mantissa + 1) s.exponent hnext hcs.le hes).1 (not_le.mpr hcloser)

theorem Nearest.unique (hx : Nearest q x) (hy : Nearest q y) : x = y := by
  cases hx with
  | infinite hx hq =>
    cases hy with
    | infinite hy _ => exact eq_of_toBits (by rw [toBits_of_infinite hx, toBits_of_infinite hy])
    | finite t _ hq' _ => exact absurd hq (not_le.mpr hq')
  | finite s hx hq hs =>
    cases hy with
    | infinite _ hq' => exact absurd hq' (not_le.mpr hq)
    | finite t hy _ ht =>
      obtain ⟨hcs, hes, hbits⟩ := canonical_of_ofFloat hx
      obtain ⟨hct, het, hbits'⟩ := canonical_of_ofFloat hy
      have hvalue : s.value = t.value := le_antisymm
        (not_lt.mp (ht.not_lt hs hct het hcs hes)) (not_lt.mp (hs.not_lt ht hcs hes hct het))
      obtain ⟨hm, he⟩ := eq_of_value_eq hcs hct hvalue
      exact eq_of_toBits (by rw [hbits, hbits', hm, he])

end

end Treewalk.Decimal
