import Treewalk.Proofs.Nearest

/-!
# The double of a decimal numeral

A decimal numeral denotes a quotient by a power of ten. It is read by dividing two doubles
if both sides of the quotient are doubles, and in exact arithmetic otherwise. Either way the
result is the double nearest to the quotient (`nearest_ofScientific`).
-/

namespace Treewalk.Decimal

open Float.Model Float.Model.UnpackedFloat
open Rounding

/-! ## Quotients -/

theorem lies_quotient (n : Nat) {d : Nat} (hd : 0 < d) :
    Lies (n / d) (n / d) (accuracyOfFraction (n % d) d) := by
  have hd' : (0 : ℚ) < d := by exact_mod_cast hd
  have hlt : ((n % d : Nat) : ℚ) < d := by exact_mod_cast Nat.mod_lt n hd
  have hquotient : (n / d : ℚ) = (n / d : Nat) + (n % d : Nat) / d := by
    have hmod : (n : ℚ) = d * (n / d : Nat) + (n % d : Nat) := by
      exact_mod_cast (Nat.div_add_mod n d).symm
    rw [hmod, add_div, mul_div_cancel_left₀ _ hd'.ne']
  rw [hquotient]
  generalize n % d = r at *
  unfold accuracyOfFraction
  split
  · rename_i hzero
    exact .exact (by simp [hzero])
  · rename_i hne
    have hpos : (0 : ℚ) < r := by exact_mod_cast Nat.pos_of_ne_zero hne
    have hfraction : (0 : ℚ) < r / d := div_pos hpos hd'
    have hone : (r / d : ℚ) < 1 := (div_lt_one hd').mpr hlt
    rcases lt_trichotomy (2 * r) d with hcompare | hcompare | hcompare
    · rw [compare_lt_iff_lt.mpr hcompare]
      have hhalf : (r / d : ℚ) < 1 / 2 := by
        rw [div_lt_div_iff₀ hd' (by norm_num)]
        have hcast : (2 * r : ℚ) < d := by exact_mod_cast hcompare
        linarith
      exact .below (by linarith) (by linarith)
    · rw [compare_eq_iff_eq.mpr hcompare]
      have hhalf : (r / d : ℚ) = 1 / 2 := by
        rw [div_eq_div_iff hd'.ne' (by norm_num)]
        have hcast : (2 * r : ℚ) = d := by exact_mod_cast hcompare
        linarith
      exact .half (by rw [hhalf])
    · rw [compare_gt_iff_gt.mpr hcompare]
      have hhalf : (1 / 2 : ℚ) < r / d := by
        rw [div_lt_div_iff₀ (by norm_num) hd']
        have hcast : (d : ℚ) < 2 * r := by exact_mod_cast hcompare
        linarith
      exact .above (by linarith) (by linarith)

section

variable {m₁ m₂ : Nat} {e₁ e₂ : Int}

/-- The quotient has all bits of a mantissa, unless it is subnormal. -/
theorem le_targetExponent_quotient {s : Nat} {e : Int} (h₁ : 0 < m₁) (h₂ : 0 < m₂)
    (hs : e₁ = e₂ + (s + e))
    (he : e ≤ Format.binary64.targetExponent (totalExponent m₁ e₁ - totalExponent m₂ e₂)) :
    e ≤ Format.binary64.targetExponent (totalExponent (m₁ <<< s / m₂) e) := by
  rw [targetExponent_eq] at he ⊢
  by_cases hmin : e ≤ -1074
  · exact le_max_of_le_right hmin
  · simp only [totalExponent] at he ⊢
    have hbits : 53 + m₂.log2 ≤ m₁.log2 + s := by omega
    have hle : 2 ^ 52 * m₂ ≤ m₁ * 2 ^ s := by
      calc 2 ^ 52 * m₂ ≤ 2 ^ 52 * 2 ^ (m₂.log2 + 1) := Nat.mul_le_mul_left _ Nat.lt_log2_self.le
        _ = 2 ^ (53 + m₂.log2) := by rw [← Nat.pow_add]; congr 1; omega
        _ ≤ 2 ^ (m₁.log2 + s) := Nat.pow_le_pow_right (by norm_num) hbits
        _ = 2 ^ m₁.log2 * 2 ^ s := Nat.pow_add ..
        _ ≤ m₁ * 2 ^ s := Nat.mul_le_mul_right _ (Nat.log2_self_le h₁.ne')
    have hquotient : 2 ^ 52 ≤ m₁ <<< s / m₂ := by
      rw [Nat.shiftLeft_eq]
      exact (Nat.le_div_iff_mul_le h₂).mpr hle
    have hlog : 52 ≤ (m₁ <<< s / m₂).log2 :=
      (Nat.le_log2 (by omega)).mpr hquotient
    omega

theorem roundsTo_div (h₁ : 0 < m₁) (h₂ : 0 < m₂) :
    RoundsTo (m₁ * 2 ^ e₁ / (m₂ * 2 ^ e₂)) (UnpackedFloat.div Format.binary64
      (.finite .positive m₁ e₁ h₁) (.finite .positive m₂ e₂ h₂)) := by
  have htarget := min_le_right (e₁ - e₂)
    (Format.binary64.targetExponent (totalExponent m₁ e₁ - totalExponent m₂ e₂))
  have hexponent := min_le_left (e₁ - e₂)
    (Format.binary64.targetExponent (totalExponent m₁ e₁ - totalExponent m₂ e₂))
  rw [UnpackedFloat.div, divCore]
  simp only
  generalize min (e₁ - e₂)
    (Format.binary64.targetExponent (totalExponent m₁ e₁ - totalExponent m₂ e₂)) = e at *
  generalize hs : (e₁ - e₂ - e).toNat = s
  have hs' : e₁ = e₂ + (s + e) := by omega
  refine roundsTo_roundWithAccuracy ?_ (le_targetExponent_quotient h₁ h₂ hs' htarget)
  have hvalue : (m₁ * 2 ^ e₁ / (m₂ * 2 ^ e₂) / 2 ^ e : ℚ) = (m₁ <<< s : Nat) / m₂ := by
    have h₂' : (m₂ : ℚ) ≠ 0 := by exact_mod_cast h₂.ne'
    rw [hs', zpow_add₀ (by norm_num), two_zpow_add, Nat.shiftLeft_eq]
    push_cast
    rw [div_div, div_eq_div_iff (by positivity) h₂']
    ring
  rw [hvalue]
  exact lies_quotient _ h₂

end

/-! ## Doubles that are integers -/

theorem toNat_implicit (mantissa : BitVec 52) :
    (1#1 ++ mantissa).toNat = 2 ^ 52 + mantissa.toNat := by
  rw [BitVec.toNat_append, ← Nat.shiftLeft_add_eq_or_of_lt mantissa.isLt]
  rfl

theorem unpack_packComponents {exponent : BitVec 11} (mantissa : BitVec 52)
    (hmax : exponent ≠ -1#11) (hmin : exponent ≠ 0#11) (hpos : 0 < (1#1 ++ mantissa).toNat) :
    UnpackedFloat.unpack Format.binary64
      (packComponents Format.binary64 .positive exponent mantissa) =
        .finite .positive (1#1 ++ mantissa).toNat (exponent.toNat - 1075) hpos := by
  simp only [UnpackedFloat.unpack, unpackExponent_packComponents, unpackMantissa_packComponents,
    unpackSign_packComponents, if_neg hmax, if_neg hmin]
  rfl

/-- A double that is packed with all bits of its mantissa is unpacked again. -/
theorem unpack_pack {m : Nat} {e : Int} (hm : 0 < m) (hnormal : 2 ^ 52 ≤ m) (hlt : m < 2 ^ 53)
    (hmin : -1074 ≤ e) (hmax : e ≤ 971) : (Float.Model.pack (.finite .positive m e hm)).unpack =
      .finite .positive m e hm := by
  have hlog : m.log2 = 52 := (Nat.log2_eq_iff hm.ne').mpr ⟨hnormal, hlt⟩
  have hexponent : (BitVec.ofNat 11 (e + 1075).toNat).toNat = (e + 1075).toNat := by
    rw [BitVec.toNat_ofNat]
    omega
  have hmantissa : (1#1 ++ BitVec.ofNat 52 m).toNat = m := by
    rw [toNat_implicit, BitVec.toNat_ofNat]
    omega
  have hne : ∀ b : BitVec 11, b.toNat ≠ (e + 1075).toNat → BitVec.ofNat 11 (e + 1075).toNat ≠ b :=
    fun b hb heq => hb (by rw [← heq, hexponent])
  have hunpack : (Float.Model.pack (.finite .positive m e hm)).unpack = UnpackedFloat.unpack
      Format.binary64 (UnpackedFloat.pack Format.binary64 (.finite .positive m e hm)) := rfl
  rw [hunpack, pack_finite hm hmax, hlog, if_pos rfl, unpack_packComponents _
    (hne _ (by rw [show (-1#11).toNat = 2047 from rfl]; omega))
    (hne _ (by rw [show (0#11).toNat = 0 from rfl]; omega)) (by omega)]
  simp only [hmantissa, hexponent, show ((e + 1075).toNat : Int) - 1075 = e by omega]

section

variable {n : Nat}

theorem totalExponent_shiftLeft (hn : 0 < n) (s : Nat) :
    totalExponent (n <<< s) (-s) = totalExponent n 0 := by
  have hlog : (n <<< s).log2 = n.log2 + s := by
    have hlow := Nat.log2_self_le hn.ne'
    have hhigh := @Nat.lt_log2_self n
    have hpos : 0 < 2 ^ s := Nat.two_pow_pos s
    rw [Nat.shiftLeft_eq, Nat.log2_eq_iff (Nat.mul_pos hn hpos).ne', Nat.pow_add,
      show n.log2 + s + 1 = n.log2 + 1 + s by omega, Nat.pow_add]
    exact ⟨Nat.mul_le_mul_right _ hlow, Nat.mul_lt_mul_of_pos_right hhigh hpos⟩
  simp only [totalExponent, hlog]
  push_cast
  ring

theorem roundsTo_ofNat (hn : 0 < n) (hlt : n < 2 ^ 53) :
    RoundsTo n (UnpackedFloat.ofNat Format.binary64 n) := by
  have hlog : n.log2 < 53 := (Nat.log2_lt hn.ne').mpr hlt
  have hround : UnpackedFloat.ofNat Format.binary64 n =
      UnpackedFloat.round Format.binary64 .positive n 0 := by
    rw [UnpackedFloat.ofNat, UnpackedFloat.ofInt, UnpackedFloat.normalize,
      compare_gt_iff_gt.mpr (by exact_mod_cast hn : (0 : Int) < n)]
    rfl
  rw [hround, UnpackedFloat.round, decreaseExponent]
  simp only
  generalize htarget : Format.binary64.targetExponent (totalExponent n 0) = t
  generalize hs : (0 - t).toNat = s
  rw [zero_sub]
  have hshift := totalExponent_shiftLeft hn s
  refine roundsTo_roundWithAccuracy (.exact ?_) ?_
  · rw [zpow_neg, div_inv_eq_mul, zpow_natCast, Nat.shiftLeft_eq]
    push_cast
    rfl
  · rw [hshift, htarget]
    omega

/-- The double of a natural number with at most 53 bits is that number. -/
theorem unpack_ofUInt64 (hn : 0 < n) (hlt : n < 2 ^ 53) :
    ∃ m e hm, (Float.Model.ofUInt64 n.toUInt64).unpack = .finite .positive m e hm ∧
      (m * 2 ^ e : ℚ) = n := by
  have hmodel : Float.Model.ofUInt64 n.toUInt64 =
      Float.Model.pack (UnpackedFloat.ofNat Format.binary64 n) := by
    rw [Float.Model.ofUInt64, UnpackedFloat.ofUInt64, Nat.toUInt64, UInt64.toNat_ofNat']
    congr 2
    omega
  have hexact : ∀ m e, Rounds n m e → (m * 2 ^ e : ℚ) = n := by
    intro m e h
    have hnearest := h.nearest n 0 hlt (by norm_num)
    rw [zpow_zero, mul_one, sub_self, abs_zero, abs_nonpos_iff, sub_eq_zero] at hnearest
    exact hnearest.symm
  have hn' : (1 : ℚ) ≤ n := by exact_mod_cast hn
  have hlt' : (n : ℚ) < 2 ^ 53 := by exact_mod_cast hlt
  have hrounds := roundsTo_ofNat hn hlt
  rw [hmodel]
  generalize UnpackedFloat.ofNat Format.binary64 n = u at hrounds ⊢
  cases hrounds with
  | zero h =>
    have hzero := hexact _ _ h
    rw [Nat.cast_zero, zero_mul] at hzero
    linarith
  | @finite m e hm h =>
    have hvalue := hexact m e h
    refine ⟨m, e, hm, unpack_pack hm ?_ h.lt h.le ?_, hvalue⟩
    · refine h.normal.resolve_left fun he => ?_
      -- the least double that is not subnormal is below one
      have hm' : (m : ℚ) < 2 ^ 53 := by exact_mod_cast h.lt
      have hpower : (2 : ℚ) ^ e ≤ 2 ^ (-53 : Int) := zpow_le_zpow_right₀ (by norm_num) (by omega)
      have hle : (m * 2 ^ e : ℚ) ≤ m * 2 ^ (-53 : Int) :=
        mul_le_mul_of_nonneg_left hpower (Nat.cast_nonneg m)
      norm_num at hle
      linarith
    · by_contra he
      have hm' : (1 : ℚ) ≤ m := by exact_mod_cast hm
      have hpower : (2 : ℚ) ^ (53 : Int) ≤ 2 ^ e := zpow_le_zpow_right₀ (by norm_num) (by omega)
      have hle : (2 : ℚ) ^ e ≤ m * 2 ^ e := le_mul_of_one_le_left (two_zpow_pos e).le hm'
      norm_num at hpower
      linarith

end

/-- The float is a power of ten. -/
def isPowerOfTen (k : Nat) : UnpackedFloat → Bool
  | .finite .positive m e _ => m * 2 ^ e.toNat == 10 ^ k * 2 ^ (-e).toNat
  | _ => false

theorem exists_of_isPowerOfTen {k : Nat} {u : UnpackedFloat} (h : isPowerOfTen k u = true) :
    ∃ m e hm, u = .finite .positive m e hm ∧ (m * 2 ^ e : ℚ) = 10 ^ k := by
  unfold isPowerOfTen at h
  split at h
  · rename_i m e hm
    refine ⟨m, e, hm, rfl, ?_⟩
    have hvalue : (m * 2 ^ e.toNat : ℚ) = 10 ^ k * 2 ^ (-e).toNat := by exact_mod_cast eq_of_beq h
    have he : (2 : ℚ) ^ e = 2 ^ e.toNat / 2 ^ (-e).toNat := by
      rw [← zpow_natCast, ← zpow_natCast, ← zpow_sub₀ (by norm_num), Int.toNat_sub_toNat_neg]
    rw [he, ← mul_div_assoc, hvalue, mul_div_cancel_right₀ _ (by positivity)]
  · cases h

theorem isPowerOfTen_table : ∀ k : Fin Float.exactlyRepresentablePowersOfTen.size,
    isPowerOfTen k (Float.exactlyRepresentablePowersOfTen[k]).toModel.unpack = true := by
  decide +kernel

/-! ## Numerals -/

/-- A number that is less than half of the least double rounds to zero. -/
theorem roundsTo_zero {x : ℚ} (hx : 0 ≤ x) (hlt : x < 2 ^ (-1075 : Int)) :
    RoundsTo x (.zero .positive) := by
  have hpos := two_zpow_pos (-1074)
  have hpower : (2 : ℚ) ^ (-1075 : Int) = 2 ^ (-1074 : Int) * 2⁻¹ :=
    zpow_sub_one₀ (by norm_num) (-1074)
  have hhalf : x / 2 ^ (-1074 : Int) < 1 / 2 := by
    rw [div_lt_iff₀ hpos]
    linarith
  have hnonneg : 0 ≤ x / 2 ^ (-1074 : Int) := div_nonneg hx hpos.le
  have hnearest : IsNearest 0 (x / 2 ^ (-1074 : Int)) :=
    isNearest_of_lt (by rw [Nat.cast_zero]; linarith) (by rw [Nat.cast_zero]; linarith)
  exact .zero (hnearest.rounds le_rfl (.inl rfl) (by norm_num))

section

variable {n k : Nat}

/-- A quotient by so large a power of ten is nearly zero. -/
theorem quotient_lt (hk : 2048 + n.log2 < k) : (n / 10 ^ k : ℚ) < 2 ^ (-1075 : Int) := by
  have hn : (n : ℚ) < 2 ^ (n.log2 + 1) := by exact_mod_cast Nat.lt_log2_self
  have hten : (2 ^ k : ℚ) ≤ 10 ^ k := pow_le_pow_left₀ (by norm_num) (by norm_num) k
  have hpower : (2 ^ (n.log2 + 1) : ℚ) ≤ 2 ^ (-1075 : Int) * 2 ^ k := by
    rw [← zpow_natCast, ← zpow_natCast, ← zpow_add₀ (by norm_num)]
    exact zpow_le_zpow_right₀ (by norm_num) (by push_cast; omega)
  rw [div_lt_iff₀ (by positivity)]
  calc (n : ℚ) < 2 ^ (n.log2 + 1) := hn
    _ ≤ 2 ^ (-1075 : Int) * 2 ^ k := hpower
    _ ≤ 2 ^ (-1075 : Int) * 10 ^ k := mul_le_mul_of_nonneg_left hten (two_zpow_pos _).le

theorem roundsTo_mul (hn : 0 < n <<< 53) (hten : 0 < 10 ^ 0) :
    RoundsTo n (UnpackedFloat.mul Format.binary64 (.finite .positive (n <<< 53) (-53) hn)
      (.finite .positive (10 ^ 0) 0 hten)) := by
  have hlog : 53 ≤ (n <<< 53).log2 := by
    rw [Nat.shiftLeft_eq] at hn ⊢
    exact (Nat.le_log2 hn.ne').mpr (Nat.le_mul_of_pos_left _ (Nat.pos_of_mul_pos_right hn))
  rw [UnpackedFloat.mul, pow_zero, mul_one, add_zero]
  refine roundsTo_roundWithAccuracy (.exact ?_) ?_
  · rw [zpow_neg, div_inv_eq_mul, Nat.shiftLeft_eq]
    push_cast
    rfl
  · rw [targetExponent_eq, totalExponent]
    omega

theorem roundsTo_ofScientific (n k : Nat) :
    RoundsTo (n / 10 ^ k) (UnpackedFloat.ofScientific Format.binary64 n (Int.negOfNat k)) := by
  have hneg : Int.negOfNat k = -k := Int.negOfNat_eq
  have hbits : (2 : Int) ^ Format.binary64.exponentBits = 2048 := rfl
  rw [UnpackedFloat.ofScientific, hneg, hbits]
  split
  · rename_i hzero
    rw [hzero, Nat.cast_zero, zero_div]
    exact roundsTo_zero le_rfl (two_zpow_pos _)
  · rename_i hn
    rw [if_neg (by omega)]
    split
    · rename_i hk
      exact roundsTo_zero (by positivity) (quotient_lt (by omega))
    · split
      · rename_i hk
        obtain rfl : k = 0 := by omega
        rw [pow_zero, div_one]
        exact roundsTo_mul _ _
      · have hdiv := @roundsTo_div n (10 ^ k) 0 0 (Nat.pos_of_ne_zero hn) (by positivity)
        rw [zpow_zero, mul_one, mul_one, Nat.cast_pow, Nat.cast_ofNat] at hdiv
        have hk : (- -(k : Int)).toNat = k := by omega
        simp only [hk]
        exact hdiv

/-- The quotient of two doubles that are a number and a power of ten. -/
theorem nearest_quotient (hn : n < 2 ^ 53) (hk : k < Float.exactlyRepresentablePowersOfTen.size) :
    Nearest (n / 10 ^ k) (n.toUInt64.toFloat / Float.exactlyRepresentablePowersOfTen[k]) := by
  have hdiv : n.toUInt64.toFloat / Float.exactlyRepresentablePowersOfTen[k] =
      packed (UnpackedFloat.div Format.binary64 (Float.Model.ofUInt64 n.toUInt64).unpack
        (Float.exactlyRepresentablePowersOfTen[k]).toModel.unpack) := rfl
  obtain ⟨m₂, e₂, h₂, hten, hvalue₂⟩ := exists_of_isPowerOfTen (isPowerOfTen_table ⟨k, hk⟩)
  rw [hdiv]
  refine nearest_of_roundsTo ?_
  rcases Nat.eq_zero_or_pos n with rfl | hpos
  · have hzero : (Float.Model.ofUInt64 (Nat.toUInt64 0)).unpack = .zero .positive := rfl
    rw [hzero, show (Float.exactlyRepresentablePowersOfTen[k]).toModel.unpack = _ from hten,
      Nat.cast_zero, zero_div]
    exact roundsTo_zero le_rfl (two_zpow_pos _)
  · obtain ⟨m₁, e₁, h₁, hnat, hvalue₁⟩ := unpack_ofUInt64 hpos hn
    have hrounds := @roundsTo_div m₁ m₂ e₁ e₂ h₁ h₂
    rw [hvalue₁, hvalue₂, ← hnat, ← hten] at hrounds
    exact hrounds

end

theorem nearest_ofScientific (n k : Nat) :
    Nearest (n / 10 ^ k) (Float.ofScientific n true k) := by
  rw [Float.ofScientific]
  split
  · rename_i h
    exact nearest_quotient h.1 _
  · exact nearest_of_roundsTo (roundsTo_ofScientific n k)

end Treewalk.Decimal
