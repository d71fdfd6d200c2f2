import Treewalk.Proofs.Nearest

/-!
# The shortest decimal reads back

The numbers that round to a double form an interval (`Range.Contains`), and every number in
it has that double as its nearest (`nearest_of_contains`). The search for the shortest decimal
only ever takes numbers of the interval, and on the grid of seventeen digits there always is
one: there the grid is finer than the doubles, since its first digit is not a zero
(`ten_zpow_places_le`). So whichever decimal is taken stands for the double it was made from
(`nearest_shortest`).
-/

namespace Treewalk.Decimal

open Rounding

/-! ## Values -/

def Digits.value (d : Digits) : ℚ :=
  d.coefficient * 10 ^ d.scale

theorem value_trim (fuel : Nat) (d : Digits) : (d.trim fuel).value = d.value := by
  induction fuel generalizing d with
  | zero => rfl
  | succ fuel ih =>
    rw [Digits.trim]
    split
    · rename_i h
      have hmul : ((d.coefficient / 10 : Nat) : ℚ) * 10 = d.coefficient := by
        exact_mod_cast Nat.div_mul_cancel (Nat.dvd_of_mod_eq_zero h.2)
      rw [ih, Digits.value, Digits.value, ← hmul, zpow_add_one₀ (by norm_num)]
      ring
    · rfl

/-- A power with any exponent, as a quotient of natural powers. -/
theorem zpow_eq_div {b : ℚ} (hb : b ≠ 0) (e : Int) : b ^ e = b ^ e.toNat / b ^ (-e).toNat := by
  rw [← zpow_natCast, ← zpow_natCast, ← zpow_sub₀ hb, Int.toNat_sub_toNat_neg]

theorem ten_zpow_pos (k : Int) : (0 : ℚ) < 10 ^ k :=
  zpow_pos (by norm_num) k

/-! ## The interval of a double -/

/-- The number lies between the ends, which belong to the interval if it is closed. -/
def Range.Contains (r : Range) (q : ℚ) : Prop :=
  if r.closed then r.low ≤ q * r.denominator ∧ q * r.denominator ≤ r.high
  else r.low < q * r.denominator ∧ q * r.denominator < r.high

theorem Range.contains_of_lt {r : Range} {q : ℚ} (hlow : r.low < q * r.denominator)
    (hhigh : q * r.denominator < r.high) : r.Contains q := by
  unfold Contains
  split
  · exact ⟨hlow.le, hhigh.le⟩
  · exact ⟨hlow, hhigh⟩

/-- What is known of the parts of a finite double. -/
structure Magnitude.Proper (size : Magnitude) : Prop
    extends Canonical size.mantissa size.exponent where
  exponent_le : size.exponent ≤ 971
  tight_iff : size.tight = true ↔ size.mantissa = 2 ^ 52 ∧ -1074 < size.exponent

theorem proper_of_ofFloat {x : Float} {size : Magnitude}
    (h : Parts.ofFloat x = .finite false size) : size.Proper := by
  obtain ⟨m, e, tight⟩ := size
  obtain ⟨hcanonical, he, -⟩ := canonical_of_ofFloat h
  refine ⟨hcanonical, he, ?_⟩
  simp only [Parts.ofFloat, Parts.ofBits, Nat.pow_eq] at h
  generalize x.toBits.toNat = bits at h
  split at h
  · split at h <;> cases h
  · split at h <;>
      · simp only [Parts.finite.injEq, Magnitude.mk.injEq] at h
        obtain ⟨-, rfl, rfl, rfl⟩ := h
        simp only [Bool.false_eq_true, decide_eq_true_eq, false_iff]
        omega

section

variable {size : Magnitude} {q : ℚ}

theorem denominator_range (size : Magnitude) :
    (size.range.denominator : ℚ) * 2 ^ size.exponent = 4 * 2 ^ size.exponent.toNat := by
  have hpos : (2 : ℚ) ^ (-size.exponent).toNat ≠ 0 := pow_ne_zero _ (by norm_num)
  rw [zpow_eq_div (by norm_num)]
  simp only [Magnitude.range, Nat.pow_eq]
  push_cast
  field_simp

theorem denominator_pos (size : Magnitude) : (0 : ℚ) < size.range.denominator := by
  simp only [Magnitude.range, Nat.pow_eq]
  positivity

/-- The value of a double, over the denominator of its interval. -/
theorem value_mul_denominator (size : Magnitude) :
    size.value * size.range.denominator = size.range.value := by
  rw [Magnitude.value, mul_assoc, mul_comm (2 ^ size.exponent : ℚ), denominator_range]
  simp only [Magnitude.range, Nat.pow_eq]
  push_cast
  ring

/-- How far below the value the interval begins, in steps between doubles. -/
def Magnitude.below (size : Magnitude) : ℚ :=
  if size.tight then 1 / 4 else 1 / 2

/-- The ends of the interval, in steps between doubles. -/
theorem ends_range (hm : 0 < size.mantissa) :
    (size.range.low : ℚ) =
        (size.mantissa - size.below) * 2 ^ size.exponent * size.range.denominator ∧
      (size.range.high : ℚ) =
        (size.mantissa + 1 / 2) * 2 ^ size.exponent * size.range.denominator := by
  have hsub : ((4 * size.mantissa - (if size.tight then 1 else 2) : Nat) : ℚ) =
      4 * size.mantissa - 4 * size.below := by
    rw [Nat.cast_sub (by split <;> omega), Magnitude.below]
    split <;> norm_num
  constructor <;> rw [mul_assoc, mul_comm (2 ^ size.exponent : ℚ), denominator_range]
  · simp only [Magnitude.range, Nat.pow_eq]
    rw [Nat.cast_mul, hsub]
    push_cast
    ring
  · simp only [Magnitude.range, Nat.pow_eq]
    push_cast
    ring

/-- A number of the interval, in steps between doubles. -/
theorem bounds_of_contains (hm : 0 < size.mantissa) (h : size.range.Contains q) :
    (size.mantissa - size.below ≤ q / 2 ^ size.exponent ∧
      q / 2 ^ size.exponent ≤ size.mantissa + 1 / 2) ∧
    (size.mantissa % 2 = 0 ∨ size.mantissa - size.below < q / 2 ^ size.exponent ∧
      q / 2 ^ size.exponent < size.mantissa + 1 / 2) := by
  have hd := denominator_pos size
  have hp := two_zpow_pos size.exponent
  obtain ⟨hlow, hhigh⟩ := ends_range hm
  have hclosed : size.range.closed = (size.mantissa % 2 == 0) := rfl
  unfold Range.Contains at h
  rw [hlow, hhigh, hclosed] at h
  rw [le_div_iff₀ hp, div_le_iff₀ hp, lt_div_iff₀ hp, div_lt_iff₀ hp]
  split at h
  · rename_i heven
    have h₁ := le_of_mul_le_mul_right h.1 hd
    have h₂ := le_of_mul_le_mul_right h.2 hd
    exact ⟨⟨h₁, h₂⟩, .inl (eq_of_beq heven)⟩
  · have h₁ := lt_of_mul_lt_mul_right h.1 hd.le
    have h₂ := lt_of_mul_lt_mul_right h.2 hd.le
    exact ⟨⟨h₁.le, h₂.le⟩, .inr ⟨h₁, h₂⟩⟩

/-- A number of the interval of a double rounds to it. -/
theorem rounds_of_contains (hs : size.Proper) (hm : 0 < size.mantissa)
    (h : size.range.Contains q) : Rounds q size.mantissa size.exponent := by
  obtain ⟨⟨hlow, hhigh⟩, hodd⟩ := bounds_of_contains hm h
  by_cases htight : size.tight = true
  · obtain ⟨hmantissa, hexponent⟩ := hs.tight_iff.mp htight
    simp only [Magnitude.below, htight, if_true, hmantissa] at hlow hhigh
    push_cast at hlow hhigh
    rw [hmantissa]
    by_cases hbelow : (2 ^ 52 : ℚ) ≤ q / 2 ^ size.exponent
    · refine IsNearest.rounds ⟨?_, fun _ => by norm_num⟩ hs.le (.inr hbelow) (by norm_num)
      push_cast
      rw [abs_le]
      constructor <;> linarith
    · -- below the least mantissa the doubles are twice as dense
      have hhalf : q / 2 ^ (size.exponent - 1) = 2 * (q / 2 ^ size.exponent) := by
        rw [zpow_sub_one₀ (by norm_num)]
        field_simp
      have hnearest : IsNearest (2 ^ 53) (q / 2 ^ (size.exponent - 1)) := by
        refine ⟨?_, fun _ => by norm_num⟩
        rw [hhalf]
        push_cast
        rw [abs_le]
        constructor <;> linarith
      have hcarry := hnearest.rounds_carry (by omega) (.inr (by rw [hhalf]; linarith))
      rwa [sub_add_cancel] at hcarry
  · simp only [Magnitude.below, htight, if_false, Bool.false_eq_true] at hlow hodd
    have hnearest : IsNearest size.mantissa (q / 2 ^ size.exponent) := by
      refine ⟨abs_le.mpr ⟨by linarith, by linarith⟩, fun heq => hodd.resolve_right fun hlt => ?_⟩
      have habs := abs_lt.mpr ⟨(by linarith : -(1 / 2 : ℚ) < q / 2 ^ size.exponent - size.mantissa),
        by linarith⟩
      exact habs.ne heq
    refine hnearest.rounds hs.le (hs.normal.elim .inl fun hnormal => ?_) hs.lt
    by_cases hleast : size.mantissa = 2 ^ 52
    · have hle := hs.le
      have hsubnormal := mt (fun he => hs.tight_iff.mpr ⟨hleast, he⟩) htight
      exact .inl (by omega)
    · have hlarge : (2 ^ 52 + 1 : ℚ) ≤ size.mantissa := by
        exact_mod_cast (by omega : 2 ^ 52 + 1 ≤ size.mantissa)
      exact .inr (by linarith)

theorem rounds_value (hs : size.Proper) : Rounds size.value size.mantissa size.exponent := by
  have hzero : |size.value - size.mantissa * 2 ^ size.exponent| = 0 := by
    rw [Magnitude.value, sub_self, abs_zero]
  refine ⟨hs.toCanonical, fun a b _ _ => ?_, fun a b _ _ heq => .inl ?_⟩
  · rw [hzero]
    exact abs_nonneg _
  · rw [hzero] at heq
    exact sub_eq_zero.mp (abs_eq_zero.mp heq.symm)

end

theorem nearest_of_rounds {x : Float} {size : Magnitude} {q : ℚ}
    (h : Parts.ofFloat x = .finite false size) (hr : Rounds q size.mantissa size.exponent) :
    Nearest q x :=
  .finite size h (lt_threshold hr (proper_of_ofFloat h).exponent_le) fun m e hm hmin _ =>
    ⟨hr.nearest m e hm hmin, hr.even m e hm hmin⟩

/-! ## Grids -/

section

variable {r : Range} {scale : Int}

/-- The test that a multiple of a power of ten has to pass. -/
def Range.inside (r : Range) (scale : Int) (c : Nat) : Bool :=
  if r.closed then
    r.low * Nat.pow 10 (-scale).toNat ≤ c * (r.denominator * Nat.pow 10 scale.toNat) &&
      c * (r.denominator * Nat.pow 10 scale.toNat) ≤ r.high * Nat.pow 10 (-scale).toNat
  else
    r.low * Nat.pow 10 (-scale).toNat < c * (r.denominator * Nat.pow 10 scale.toNat) &&
      c * (r.denominator * Nat.pow 10 scale.toNat) < r.high * Nat.pow 10 (-scale).toNat

theorem inside_iff {c : Nat} : r.inside scale c = true ↔ r.Contains (c * 10 ^ scale) := by
  have hshift : (0 : ℚ) < 10 ^ (-scale).toNat := by positivity
  have hvalue : (c * 10 ^ scale * r.denominator : ℚ) =
      (c * (r.denominator * 10 ^ scale.toNat) : Nat) / 10 ^ (-scale).toNat := by
    rw [zpow_eq_div (by norm_num)]
    push_cast
    ring
  unfold Range.inside Range.Contains
  rw [hvalue, le_div_iff₀ hshift, div_le_iff₀ hshift, lt_div_iff₀ hshift, div_lt_iff₀ hshift]
  simp only [Nat.pow_eq]
  split
  · rw [Bool.and_eq_true, decide_eq_true_eq, decide_eq_true_eq]
    norm_cast
  · rw [Bool.and_eq_true, decide_eq_true_eq, decide_eq_true_eq]
    norm_cast

/-- The multiple of a power of ten at or below the value. -/
def Range.floor (r : Range) (scale : Int) : Nat :=
  r.value * Nat.pow 10 (-scale).toNat / (r.denominator * Nat.pow 10 scale.toNat)

/-- What is found on a grid lies in the interval, and nothing is found only if neither of the
two multiples next to the value does. -/
theorem onGrid?_cases (r : Range) (tie : Tie) (scale : Int) :
    (∃ c : Nat, r.Contains (c * 10 ^ scale) ∧ r.onGrid? tie scale = some ⟨c, scale⟩) ∨
      r.onGrid? tie scale = none ∧ ¬ r.Contains (r.floor scale * 10 ^ scale) ∧
        ¬ r.Contains ((r.floor scale + 1 : Nat) * 10 ^ scale) := by
  simp only [← inside_iff]
  unfold Range.onGrid?
  extract_lets unit shift inside floor twice middle
  have hfloor : inside floor = r.inside scale (r.floor scale) := rfl
  have hnext : inside (floor + 1) = r.inside scale (r.floor scale + 1) := rfl
  cases hf : inside floor with
  | false =>
    cases hn : inside (floor + 1) with
    | false => exact .inr ⟨rfl, by simp [← hfloor, hf], by simp [← hnext, hn]⟩
    | true => exact .inl ⟨_, hnext ▸ hn, rfl⟩
  | true =>
    cases hn : inside (floor + 1) with
    | false => exact .inl ⟨_, hfloor ▸ hf, rfl⟩
    | true =>
      simp only
      split
      · exact .inl ⟨_, hfloor ▸ hf, rfl⟩
      · split
        · exact .inl ⟨_, hnext ▸ hn, rfl⟩
        · cases tie with
          | up => exact .inl ⟨_, hnext ▸ hn, rfl⟩
          | even =>
            simp only
            split
            · exact .inl ⟨_, hfloor ▸ hf, rfl⟩
            · exact .inl ⟨_, hnext ▸ hn, rfl⟩

end

/-! ## Seventeen digits -/

/-- The power of ten lies between a power of two and the next. -/
def Close (n p : Nat) : Prop :=
  Nat.pow 2 n ≤ Nat.pow 10 p ∧ Nat.pow 10 p ≤ Nat.pow 2 (n + 1)

instance (n p : Nat) : Decidable (Close n p) :=
  inferInstanceAs (Decidable (_ ∧ _))

/-- Powers whose exponents are in the ratio of close powers are close. -/
theorem ten_zpow_le_two_zpow {n p : Nat} (hn : n ≠ 0) (hclose : Close n p) {b g : Int}
    (hb : b ≤ n) (hg : n * g ≤ p * b) : (10 : ℚ) ^ g ≤ 2 ^ (b + 1) := by
  obtain ⟨hlow, hhigh⟩ := hclose
  simp only [Nat.pow_eq] at hlow hhigh
  have hlow' : (2 : ℚ) ^ n ≤ 10 ^ p := by exact_mod_cast hlow
  have hhigh' : (10 : ℚ) ^ p ≤ 2 ^ (n + 1) := by exact_mod_cast hhigh
  have hpower : ((10 : ℚ) ^ p) ^ b ≤ 2 ^ (n * (b + 1)) := by
    rcases le_or_gt 0 b with hpos | hneg
    · calc ((10 : ℚ) ^ p) ^ b ≤ (2 ^ (n + 1)) ^ b := zpow_le_zpow_left₀ hpos (by positivity) hhigh'
        _ = 2 ^ ((n + 1 : Nat) * b) := by rw [zpow_mul, zpow_natCast]
        _ ≤ 2 ^ (n * (b + 1)) := zpow_le_zpow_right₀ (by norm_num) (by push_cast; linarith)
    · obtain ⟨c, rfl⟩ := Int.eq_negSucc_of_lt_zero hneg
      calc ((10 : ℚ) ^ p) ^ Int.negSucc c ≤ (2 ^ n) ^ Int.negSucc c := by
            rw [zpow_negSucc, zpow_negSucc]
            gcongr
        _ = 2 ^ (n * Int.negSucc c) := by rw [zpow_mul, zpow_natCast]
        _ ≤ 2 ^ (n * (Int.negSucc c + 1)) := zpow_le_zpow_right₀ (by norm_num) (by linarith)
  rw [← pow_le_pow_iff_left₀ (ten_zpow_pos g).le (two_zpow_pos _).le hn]
  calc ((10 : ℚ) ^ g) ^ n = 10 ^ (n * g) := by rw [← zpow_natCast, ← zpow_mul, mul_comm]
    _ ≤ 10 ^ (p * b) := zpow_le_zpow_right₀ (by norm_num) hg
    _ = (10 ^ p) ^ b := by rw [zpow_mul, zpow_natCast]
    _ ≤ 2 ^ (n * (b + 1)) := hpower
    _ = (2 ^ (b + 1)) ^ n := by rw [← zpow_natCast, ← zpow_mul, mul_comm]

theorem close_powers : Close 100000 30103 := by
  decide +kernel

/-- The decimal exponent that is estimated from binary lengths is at most two too large. -/
theorem ten_zpow_estimate_le {a d : Nat} (ha : 0 < a) (hlarge : a.log2 < 100000) :
    (10 : ℚ) ^ (((a.log2 : Int) - d.log2) * 30103 / 100000 - 2) * d ≤ a := by
  have ha' : (2 : ℚ) ^ (a.log2 : Int) ≤ a := by exact_mod_cast Nat.log2_self_le ha.ne'
  have hd' : (d : ℚ) ≤ 2 ^ ((d.log2 : Int) + 1) := by exact_mod_cast Nat.lt_log2_self.le
  generalize hb : (a.log2 : Int) - d.log2 = b
  generalize hg : b * 30103 / 100000 = g
  have hten : (10 : ℚ) ^ g ≤ 2 ^ (b + 1) :=
    ten_zpow_le_two_zpow (by decide) close_powers (by omega) (by omega)
  calc (10 : ℚ) ^ (g - 2) * d ≤ 10 ^ (g - 2) * 2 ^ ((d.log2 : Int) + 1) := by gcongr
    _ = 10 ^ g / 100 * 2 ^ ((d.log2 : Int) + 1) := by rw [zpow_sub₀ (by norm_num)]; norm_num
    _ ≤ 2 ^ (b + 1) / 100 * 2 ^ ((d.log2 : Int) + 1) := by gcongr
    _ = 4 / 100 * 2 ^ (a.log2 : Int) := by
      rw [show (a.log2 : Int) = b + d.log2 by omega, zpow_add₀ (by norm_num) b d.log2,
        zpow_add_one₀ (by norm_num), zpow_add_one₀ (by norm_num)]
      ring
    _ ≤ a := by linarith [two_zpow_pos (a.log2 : Int)]

/-- What holds below each candidate that is reached holds below the one that is taken. -/
theorem getD_find?_cons {p : Int → Bool} {Q : Int → Prop} {k other : Int} {rest : List Int}
    (hk : Q (k - 1)) (hrest : p k = false → Q ((rest.find? p).getD other - 1)) :
    Q (((k :: rest).find? p).getD other - 1) := by
  cases hp : p k with
  | true =>
    rw [List.find?_cons_of_pos hp]
    exact hk
  | false =>
    rw [List.find?_cons_of_neg (by simp [hp])]
    exact hrest hp

/-- The leading digit of the value is not beyond its place. -/
theorem ten_zpow_places_le {r : Range} (hv : 0 < r.value) (hlarge : r.value.log2 < 100000) :
    (10 : ℚ) ^ (r.places - 1) * r.denominator ≤ r.value := by
  have hestimate := @ten_zpow_estimate_le r.value r.denominator hv hlarge
  unfold Range.places
  extract_lets below binary guess
  have hbelow : ∀ j k, below j = false → j = k → (10 : ℚ) ^ k * r.denominator ≤ r.value := by
    rintro j _ hj rfl
    have hle := Nat.le_of_not_lt (of_decide_eq_false hj)
    simp only [Nat.pow_eq] at hle
    have hle' : (r.denominator * 10 ^ j.toNat : ℚ) ≤ r.value * 10 ^ (-j).toNat := by
      exact_mod_cast hle
    rw [zpow_eq_div (by norm_num), div_mul_eq_mul_div, div_le_iff₀ (by positivity)]
    linarith
  have hfirst : (10 : ℚ) ^ (guess - 1 - 1) * r.denominator ≤ r.value := by
    rwa [sub_sub]
  -- each candidate is reached only if the one before it is not beyond the value
  refine getD_find?_cons (Q := fun k => (10 : ℚ) ^ k * r.denominator ≤ r.value) hfirst fun h₁ => ?_
  refine getD_find?_cons (Q := fun k => (10 : ℚ) ^ k * r.denominator ≤ r.value)
    (hbelow _ _ h₁ rfl) fun h₂ => ?_
  refine getD_find?_cons (Q := fun k => (10 : ℚ) ^ k * r.denominator ≤ r.value)
    (hbelow _ _ h₂ (by omega)) fun h₃ => ?_
  refine getD_find?_cons (Q := fun k => (10 : ℚ) ^ k * r.denominator ≤ r.value)
    (hbelow _ _ h₃ (by omega)) fun h₄ => ?_
  exact hbelow _ _ h₄ (by rw [List.find?_nil, Option.getD_none]; omega)

theorem floor_bounds {r : Range} (hd : 0 < r.denominator) (scale : Int) :
    (r.floor scale * 10 ^ scale * r.denominator : ℚ) ≤ r.value ∧
      (r.value : ℚ) < (r.floor scale + 1) * 10 ^ scale * r.denominator := by
  have hshift : (0 : ℚ) < 10 ^ (-scale).toNat := by positivity
  have hunit : 0 < r.denominator * 10 ^ scale.toNat := by positivity
  have hle : r.floor scale * (r.denominator * 10 ^ scale.toNat) ≤ r.value * 10 ^ (-scale).toNat :=
    Nat.div_mul_le_self _ _
  have hlt : r.value * 10 ^ (-scale).toNat <
      (r.floor scale + 1) * (r.denominator * 10 ^ scale.toNat) := by
    rw [Nat.mul_comm (r.floor scale + 1)]
    exact Nat.lt_mul_div_succ _ hunit
  have hscale : ∀ c : ℚ, c * 10 ^ scale * r.denominator =
      c * (r.denominator * 10 ^ scale.toNat) / 10 ^ (-scale).toNat := by
    intro c
    rw [zpow_eq_div (by norm_num)]
    ring
  rw [hscale, hscale, div_le_iff₀ hshift, lt_div_iff₀ hshift]
  exact_mod_cast And.intro hle hlt

section

variable {size : Magnitude}

theorem contains_of_between (hm : 0 < size.mantissa) {q : ℚ}
    (hlow : (size.mantissa - size.below) * 2 ^ size.exponent < q)
    (hhigh : q < (size.mantissa + 1 / 2) * 2 ^ size.exponent) : size.range.Contains q := by
  have hd := denominator_pos size
  obtain ⟨hl, hh⟩ := ends_range hm
  refine Range.contains_of_lt ?_ ?_
  · rw [hl]
    exact mul_lt_mul_of_pos_right hlow hd
  · rw [hh]
    exact mul_lt_mul_of_pos_right hhigh hd

/-- With seventeen digits one of the two multiples next to the value lies in the interval. -/
theorem contains_finest (hs : size.Proper) (hm : 0 < size.mantissa) {places : Int}
    (hplaces : (10 : ℚ) ^ (places - 1) ≤ size.value) :
    size.range.Contains (size.range.floor (places - 17) * 10 ^ (places - 17)) ∨
      size.range.Contains ((size.range.floor (places - 17) + 1 : Nat) * 10 ^ (places - 17)) := by
  have hd := denominator_pos size
  obtain ⟨hfloor, hnext⟩ := floor_bounds (by exact_mod_cast hd) (places - 17)
  rw [← value_mul_denominator] at hfloor hnext
  have hfloor := le_of_mul_le_mul_right hfloor hd
  have hnext := lt_of_mul_lt_mul_right hnext hd.le
  have hfine : (10 : ℚ) ^ (places - 17) * 10 ^ 16 ≤ size.value := by
    rw [← zpow_natCast, ← zpow_add₀ (by norm_num)]
    exact (by ring : places - 17 + (16 : Nat) = places - 1) ▸ hplaces
  have hmantissa : (size.mantissa : ℚ) ≤ 2 ^ 53 := by exact_mod_cast hs.lt.le
  have hstep := two_zpow_pos size.exponent
  have hvalue : size.value = size.mantissa * 2 ^ size.exponent := rfl
  have hmax := mul_le_mul_of_nonneg_right hmantissa hstep.le
  have hbetween := fun q => @contains_of_between size hm q
  simp only [sub_mul, add_mul, ← hvalue] at hbetween
  rw [← hvalue] at hmax
  rw [Nat.cast_succ]
  generalize (size.range.floor (places - 17) : ℚ) = c at *
  generalize (10 : ℚ) ^ (places - 17) = u at *
  by_cases htight : size.tight = true
  · -- the grid is finer than half a step, so the multiple above is near enough
    have hleast : size.value = 2 ^ 52 * 2 ^ size.exponent := by
      rw [hvalue, (hs.tight_iff.mp htight).1]
      norm_num
    refine .inr (hbetween _ ?_ (by linarith))
    rw [Magnitude.below, if_pos htight]
    linarith
  · rw [Magnitude.below, if_neg htight] at hbetween
    rcases le_total (size.value - c * u) (u / 2) with hnear | hfar
    · exact .inl (hbetween _ (by linarith) (by linarith))
    · exact .inr (hbetween _ (by linarith) (by linarith))

theorem value_range_pos (hm : 0 < size.mantissa) : 0 < size.range.value := by
  simp only [Magnitude.range, Nat.pow_eq]
  positivity

theorem log2_range_lt (hs : size.Proper) : size.range.value.log2 < 100000 := by
  have hlt : size.range.value < 2 ^ (55 + size.exponent.toNat) := by
    have hmantissa : 4 * size.mantissa < 2 ^ 55 := by have := hs.lt; omega
    rw [Nat.pow_add]
    exact Nat.mul_lt_mul_of_pos_right hmantissa (Nat.two_pow_pos _)
  have hexponent := hs.exponent_le
  rcases Nat.eq_zero_or_pos size.range.value with hzero | hpos
  · rw [hzero]
    decide
  · exact ((Nat.log2_lt hpos.ne').mpr hlt).trans (by omega)

/-- The shortest decimal lies in the interval of the double. -/
theorem contains_shortest (hs : size.Proper) (hm : 0 < size.mantissa) (tie : Tie) :
    size.range.Contains (size.shortest tie).value := by
  have hd := denominator_pos size
  have hplaces : (10 : ℚ) ^ (size.range.places - 1) ≤ size.value := by
    have hle := ten_zpow_places_le (value_range_pos hm) (log2_range_lt hs)
    rw [← value_mul_denominator] at hle
    exact le_of_mul_le_mul_right hle hd
  rw [Magnitude.shortest, if_neg hm.ne']
  extract_lets r places hit
  rw [value_trim]
  cases hfound : hit with
  | some d =>
    obtain ⟨n, -, hn⟩ := List.exists_of_findSome?_eq_some hfound
    rcases onGrid?_cases r tie (places - (n + 1)) with ⟨c, hc, hsome⟩ | ⟨hnone, -⟩
    · obtain rfl := Option.some.inj (hsome.symm.trans hn)
      exact hc
    · cases hnone.symm.trans hn
  | none =>
    -- the last grid has a hit
    have hlast := List.findSome?_eq_none_iff.mp hfound 16 (by simp)
    rcases onGrid?_cases r tie (places - 17) with ⟨c, -, hsome⟩ | ⟨-, hfloor, hnext⟩
    · cases hsome.symm.trans hlast
    · exact absurd (contains_finest hs hm hplaces) (not_or.mpr ⟨hfloor, hnext⟩)

end

/-- The shortest decimal of a double has it as its nearest. -/
theorem nearest_shortest {x : Float} {size : Magnitude} (h : Parts.ofFloat x = .finite false size)
    (tie : Tie) : Nearest (size.shortest tie).value x := by
  have hs := proper_of_ofFloat h
  rcases Nat.eq_zero_or_pos size.mantissa with hzero | hpos
  · have hvalue : (size.shortest tie).value = size.value := by
      rw [Magnitude.shortest, if_pos hzero, Magnitude.value, hzero]
      simp [Digits.value]
    rw [hvalue]
    exact nearest_of_rounds h (rounds_value hs)
  · exact nearest_of_rounds h (rounds_of_contains hs hpos (contains_shortest hs hpos tie))

end Treewalk.Decimal
