import Treewalk.Proofs.Lexemes
import Treewalk.Proofs.Shortest
import Treewalk.Tree.Text

/-!
# Numbers in positional notation

Digits around a point are a numeral, and the number it denotes is the one that was written
(`value_positional`). An integral double is written with all of its digits and any other with
its shortest, so the text of a finite double that is not negative is a numeral that is read as
the same double (`denotes_text`).
-/

namespace Treewalk.Decimal

open Lexeme

/-! ## Digits -/

section

variable {whole fraction : List Char}

theorem digits_toString (n : Nat) : Lexeme.Digits (toString n).toList := by
  rw [Nat.toString_eq_repr, Nat.toList_repr]
  exact ⟨Nat.toDigits_ne_nil, fun c hc => Nat.isDigit_of_mem_toDigits (by decide) (by decide) hc⟩

theorem natural_eq_ofDigitChars (ds : List Char) : natural ds = Nat.ofDigitChars 10 ds 0 := by
  rw [← natural_eq, Nat.ofDigitChars_eq_foldl]
  rfl

theorem natural_toString (n : Nat) : natural (toString n).toList = n := by
  rw [natural_eq_ofDigitChars, Nat.toString_eq_repr, Nat.toList_repr, Nat.ofDigitChars_ten_toDigits]

theorem toList_zeros (n : Nat) : (zeros n).toList = List.replicate n '0' := by
  unfold zeros
  induction n with
  | zero => rfl
  | succ n ih =>
    rw [String.pushn_eq_repeat_push] at ih ⊢
    simp [Nat.repeat, ih, List.replicate_succ']

theorem natural_zeros (n : Nat) : natural (List.replicate n '0') = 0 := by
  rw [natural_eq_ofDigitChars, Nat.ofDigitChars_replicate_zero, Nat.mul_zero]

theorem isDigit_of_mem_zeros {n : Nat} {c : Char} (h : c ∈ List.replicate n '0') :
    c.isDigit = true := by
  rw [List.eq_of_mem_replicate h]
  rfl

end

/-! ## Layouts -/

/-- Digits before and after a point are a numeral. Its value depends on all digits and on how
many of them stand after the point. -/
theorem value_fraction {d : Digits} {whole fraction : List Char} (hwhole : Lexeme.Digits whole)
    (hfraction : Lexeme.Digits fraction) (hdigits : natural (whole ++ fraction) = d.coefficient)
    (hscale : d.scale = -fraction.length) :
    whole ++ '.' :: fraction ∈ number ∧ value (whole ++ '.' :: fraction) = d.value := by
  refine ⟨mem_number.mpr ⟨whole, hwhole, .inr ⟨fraction, hfraction, rfl⟩⟩, ?_⟩
  rw [value_of_fraction hwhole.2, hdigits, Digits.value, hscale, zpow_neg, zpow_natCast,
    div_eq_mul_inv]

/-- A decimal in positional notation is a numeral for its value. -/
theorem value_positional (d : Digits) :
    d.positional.toList ∈ number ∧ value d.positional.toList = d.value := by
  have hdigits := digits_toString d.coefficient
  have hnatural := natural_toString d.coefficient
  unfold Digits.positional
  extract_lets text point
  have hlength : text.toList.length = text.length := String.length_toList
  change Lexeme.Digits text.toList at hdigits
  change natural text.toList = d.coefficient at hnatural
  by_cases hscale : 0 ≤ d.scale
  · rw [if_pos hscale, String.toList_append, toList_zeros]
    have hall : Lexeme.Digits (text.toList ++ List.replicate d.scale.toNat '0') := by
      refine ⟨List.append_ne_nil_of_left_ne_nil hdigits.1 _, fun c hc => ?_⟩
      exact (List.mem_append.mp hc).elim (hdigits.2 c) isDigit_of_mem_zeros
    refine ⟨mem_number.mpr ⟨_, hall, .inl rfl⟩, ?_⟩
    rw [value_of_not_fraction hall.2, natural_append, hnatural, natural_zeros,
      List.length_replicate, Nat.add_zero, Nat.cast_mul, Nat.cast_pow, Nat.cast_ofNat, ← zpow_natCast,
      Int.toNat_of_nonneg hscale, Digits.value]
  · rw [if_neg hscale]
    have hpos : 0 < text.toList.length := List.length_pos_of_ne_nil hdigits.1
    by_cases hpoint : 0 < point
    · -- the point stands among the digits
      rw [if_pos hpoint]
      have hwhole : Lexeme.Digits (text.toList.take point.toNat) :=
        ⟨List.ne_nil_of_length_pos (by rw [List.length_take]; omega),
          fun c hc => hdigits.2 c (List.mem_of_mem_take hc)⟩
      have hfraction : Lexeme.Digits (text.toList.drop point.toNat) :=
        ⟨List.ne_nil_of_length_pos (by rw [List.length_drop]; omega),
          fun c hc => hdigits.2 c (List.mem_of_mem_drop hc)⟩
      have hvalue := value_fraction (d := d) hwhole hfraction
        (by rw [List.take_append_drop, hnatural]) (by rw [List.length_drop]; omega)
      simpa using hvalue
    · -- it stands before them, and before some zeros
      rw [if_neg hpoint]
      have hfraction : Lexeme.Digits (List.replicate (-point).toNat '0' ++ text.toList) := by
        refine ⟨List.append_ne_nil_of_right_ne_nil _ hdigits.1, fun c hc => ?_⟩
        exact (List.mem_append.mp hc).elim isDigit_of_mem_zeros (hdigits.2 c)
      have hzeros : natural (['0'] ++ (List.replicate (-point).toNat '0' ++ text.toList)) =
          d.coefficient := by
        rw [← List.append_assoc, natural_append, natural_append, natural_zeros, hnatural,
          show natural ['0'] = 0 from rfl, Nat.zero_mul, Nat.zero_add, Nat.zero_mul, Nat.zero_add]
      have hvalue := value_fraction (d := d) ⟨List.cons_ne_nil '0' [], by simp⟩ hfraction hzeros
        (by rw [List.length_append, List.length_replicate]; omega)
      simpa [toList_zeros] using hvalue

/-- A double that is an integer has it as its value. -/
theorem value_of_integer? {size : Magnitude} {n : Nat} (h : size.integer? = some n) :
    size.value = n := by
  unfold Magnitude.integer? at h
  extract_lets divisor at h
  split at h
  · rename_i hmod
    obtain rfl := Option.some.inj h
    have hdivisor : (divisor : ℚ) = 2 ^ (-size.exponent).toNat := by
      simp only [divisor, Nat.pow_eq]
      push_cast
      rfl
    have hmul : ((size.mantissa / divisor : Nat) : ℚ) * divisor = size.mantissa := by
      exact_mod_cast Nat.div_mul_cancel (Nat.dvd_of_mod_eq_zero hmod)
    rw [Magnitude.value, zpow_eq_div (by norm_num), ← hdivisor, ← hmul]
    have hne : (divisor : ℚ) ≠ 0 := by rw [hdivisor]; positivity
    simp only [Nat.pow_eq]
    push_cast
    field_simp
  · cases h

/-- The text of a finite double that is not negative is a numeral that is read as it. -/
theorem denotes_text {x : Float} {size : Magnitude} (h : Parts.ofFloat x = .finite false size) :
    Denotes (Literal.text (.number x)).toList (.number x) := by
  have hintegral : integral? x = size.integer?.map fun n => sign false ++ toString n := by
    rw [integral?, h]
  have hplain : plain x = sign false ++ (size.shortest .up).positional := by
    rw [plain, h]
  have hsign : ∀ t : String, (sign false ++ t).toList = t.toList := fun t => by simp [sign]
  rw [Literal.text, hintegral]
  cases hinteger : size.integer? with
  | some n =>
    have hdigits : natural ((toString n).toList ++ ['0']) = 10 * n := by
      rw [natural_append, natural_toString, show natural ['0'] = 0 from rfl]
      simp [Nat.mul_comm]
    obtain ⟨hnumber, hvalue⟩ := value_fraction (d := ⟨10 * n, -1⟩) (digits_toString n)
      ⟨List.cons_ne_nil '0' [], by simp⟩ hdigits rfl
    have htext : (sign false ++ toString n ++ ".0").toList = (toString n).toList ++ ['.', '0'] := by
      rw [String.append_assoc, hsign]
      simp
    have hexact : Digits.value ⟨10 * n, -1⟩ = size.value := by
      rw [value_of_integer? hinteger, Digits.value, Nat.cast_mul, Nat.cast_ofNat, zpow_neg_one]
      field_simp
    simp only [Option.map_some, htext]
    refine .number hnumber ?_
    rw [hvalue, hexact]
    exact nearest_of_rounds h (rounds_value (proper_of_ofFloat h))
  | none =>
    simp only [Option.map_none, hplain, hsign]
    obtain ⟨hnumber, hvalue⟩ := value_positional (size.shortest .up)
    exact .number hnumber (hvalue ▸ nearest_shortest h .up)

end Treewalk.Decimal
