import Soroscan.Lemmas.Format

/-!
# Amounts are exact

`formatAmount` shows an integer at a scale as the number that it is, whatever its size, its sign and the scale; read back, it is as
many stroops as it was; and the difference of two amounts is there when it is an amount, and is exact.
-/

namespace Soroscan

open DecimalText

/-- A text shows a number: its commas aside it denotes the number, its fraction does not end with a zero, and the digits before the
dot stand in groups of three. -/
structure ShowsAmount (s : JsString) (q : ℚ) : Prop where
  denotes : Denotes (withoutCommas s) q
  noTrailingZero : (fractionPart s).getLast? ≠ some zero
  inThrees : InThrees (integerPart s)

/-- A plain decimal of at most seven decimals. -/
def IsAmount (s : JsString) (q : ℚ) : Prop :=
  ∃ int fraction, IsPlain s int fraction ∧ fraction.length ≤ 7 ∧ q = valueOf int fraction

/-! ## An integer at a scale -/

theorem lt_length_padStart (d : Nat) (s : JsString) : d < (padStart (d + 1) s).length := by
  rw [length_padStart]
  omega

theorem valueOf_padStart (d : Nat) (s : JsString) :
    valueOf ((padStart (d + 1) s).rdrop d) (trimZeros ((padStart (d + 1) s).rtake d)) = numberOf s / 10 ^ d := by
  rw [valueOf_trimZeros, valueOf_rdrop_rtake d (lt_length_padStart d s).le, numberOf_padStart]

section

variable {s : JsString} (hne : s ≠ []) (h : ∀ u ∈ s, isDigit u = true) (d : Nat)
include h

/-- The padded digits, cut before the last ones. -/
theorem isPlain_padStart :
    IsPlain ((padStart (d + 1) s).rdrop d ++ fractionText (trimZeros ((padStart (d + 1) s).rtake d)))
      ((padStart (d + 1) s).rdrop d) (trimZeros ((padStart (d + 1) s).rtake d)) :=
  isPlain_rdrop_rtake (isDigit_padStart h) (lt_length_padStart d s)

include hne

theorem withoutCommas_formatAmount :
    withoutCommas (formatAmount s d) = (padStart (d + 1) s).rdrop d ++ fractionText (trimZeros ((padStart (d + 1) s).rtake d)) := by
  have hplain := isPlain_padStart h d
  rw [formatAmount_of_digits hne h, withoutCommas_grouped hplain.intDigits hplain.fractionDigits]

theorem denotes_formatAmount : Denotes (withoutCommas (formatAmount s d)) (numberOf s / 10 ^ d) := by
  rw [withoutCommas_formatAmount hne h, ← valueOf_padStart]
  exact .plain (isPlain_padStart h d)

theorem shows_formatAmount : ShowsAmount (formatAmount s d) (numberOf s / 10 ^ d) where
  denotes := denotes_formatAmount hne h d
  noTrailingZero := by
    rw [formatAmount_of_digits hne h, fractionPart_grouped (isPlain_padStart h d).intDigits]
    exact trimZeros_last_ne _
  inThrees := by
    have hplain := isPlain_padStart h d
    rw [formatAmount_of_digits hne h, integerPart_grouped hplain.intDigits hplain.ne_nil]
    exact inThrees_groupThousands hplain.intDigits hplain.ne_nil

/-- A minus sign before the digits stays before the amount. -/
theorem shows_formatAmount_minus : ShowsAmount (formatAmount (minus :: s) d) (-(numberOf s / 10 ^ d)) where
  denotes := by
    have hminus : withoutCommas (minus :: formatAmount s d) = minus :: withoutCommas (formatAmount s d) :=
      List.filter_cons_of_pos (by decide)
    rw [formatAmount_minus hne h, hminus, withoutCommas_formatAmount hne h, ← valueOf_padStart]
    exact .negative (isPlain_padStart h d)
  noTrailingZero := by
    rw [formatAmount_minus hne h, fractionPart, List.dropWhile_cons_of_pos (by decide)]
    exact (shows_formatAmount hne h d).noTrailingZero
  inThrees := by
    rw [formatAmount_minus hne h, integerPart, List.dropWhile_cons_of_pos (by decide)]
    exact (shows_formatAmount hne h d).inThrees

end

/-! ## Stroops -/

theorem length_trimZeros_rtake_le (d : Nat) (s : JsString) : (trimZeros (s.rtake d)).length ≤ d := by
  refine (List.rdropWhile_prefix _ _).length_le.trans ?_
  rw [List.rtake, List.length_drop]
  omega

/-- A number of stroops with seven decimals is an amount of as many stroops. -/
theorem decimalToStroops_cut (n : Nat) :
    decimalToStroops ((padStart 8 (js (decimal n))).rdrop 7 ++ fractionText (trimZeros ((padStart 8 (js (decimal n))).rtake 7))) =
      some n := by
  obtain ⟨m, hm, hvalue⟩ :=
    decimalToStroops_of_isPlain (isPlain_padStart (isDigit_js_decimal n) 7) (length_trimZeros_rtake_le 7 _)
  rw [valueOf_padStart, numberOf_js_decimal, div_mul_cancel₀ _ (by positivity)] at hvalue
  rw [hm, Nat.cast_injective hvalue]

/-- A text is an amount of stroops when it is a plain decimal of at most seven decimals. -/
theorem decimalToStroops_eq_some_iff (s : JsString) (n : Nat) : decimalToStroops s = some n ↔ IsAmount s (n / 10 ^ 7) := by
  constructor
  · intro h
    obtain ⟨int, fraction, hplain, hle, hvalue⟩ := decimalToStroops_eq_some h
    exact ⟨int, fraction, hplain, hle, by rw [hvalue, mul_div_cancel_right₀ _ (by positivity)]⟩
  · rintro ⟨int, fraction, hplain, hle, hvalue⟩
    obtain ⟨m, hm, hvalue'⟩ := decimalToStroops_of_isPlain hplain hle
    rw [← hvalue, div_mul_cancel₀ _ (by positivity)] at hvalue'
    rw [hm, Nat.cast_injective hvalue']

/-- An amount is a number of stroops. -/
theorem IsAmount.exists_stroops {s : JsString} {q : ℚ} (h : IsAmount s q) :
    ∃ n : Nat, decimalToStroops s = some n ∧ q = n / 10 ^ 7 := by
  obtain ⟨int, fraction, hplain, hle, rfl⟩ := h
  obtain ⟨n, hn, hvalue⟩ := decimalToStroops_of_isPlain hplain hle
  exact ⟨n, hn, by rw [hvalue, mul_div_cancel_right₀ _ (by positivity)]⟩

/-- The difference of two amounts is there when it is not negative, and is as many stroops as it should be. -/
theorem subtractDecimalStrings_of_stroops {a b : JsString} {m n : Nat} (ha : decimalToStroops a = some m)
    (hb : decimalToStroops b = some n) :
    (n ≤ m → ∃ s, subtractDecimalStrings a b = some s ∧ decimalToStroops s = some (m - n)) ∧
      (m < n → subtractDecimalStrings a b = none) := by
  rw [subtractDecimalStrings, ha, hb]
  constructor
  · intro hle
    have hdelta : (m : ℤ) - n = Int.ofNat (m - n) := (Nat.cast_sub hle).symm
    refine ⟨_, ?_, decimalToStroops_cut (m - n)⟩
    simp only [hdelta]
    rw [if_neg (by omega), intDecimal]
    refine congrArg some ?_
    split
    · rename_i hnil
      rw [hnil, fractionText_nil, List.append_nil]
    · rename_i hne
      rw [fractionText_of_ne hne]
  · intro hlt
    exact if_pos (by omega)

theorem isSome_subtractDecimalStrings (a b : JsString) :
    (subtractDecimalStrings a b).isSome = true ↔ ∃ p q, IsAmount a p ∧ IsAmount b q ∧ q ≤ p := by
  constructor
  · intro h
    obtain ⟨s, hs⟩ := Option.isSome_iff_exists.mp h
    rcases ha : decimalToStroops a with _ | m
    · rw [subtractDecimalStrings, ha] at hs
      cases hs
    · rcases hb : decimalToStroops b with _ | n
      · rw [subtractDecimalStrings, ha, hb] at hs
        cases hs
      · refine ⟨_, _, (decimalToStroops_eq_some_iff a m).mp ha, (decimalToStroops_eq_some_iff b n).mp hb, ?_⟩
        by_cases hle : n ≤ m
        · exact div_le_div_of_nonneg_right (Nat.cast_le.mpr hle) (by positivity)
        · rw [(subtractDecimalStrings_of_stroops ha hb).2 (Nat.lt_of_not_le hle)] at hs
          cases hs
  · rintro ⟨p, q, hp, hq, hle⟩
    obtain ⟨m, ha, rfl⟩ := hp.exists_stroops
    obtain ⟨n, hb, rfl⟩ := hq.exists_stroops
    have hle' : n ≤ m := by exact_mod_cast (div_le_div_iff_of_pos_right (by positivity)).mp hle
    obtain ⟨s, hs, -⟩ := (subtractDecimalStrings_of_stroops ha hb).1 hle'
    rw [hs, Option.isSome_some]

theorem decimalToStroops_subtractDecimalStrings {a b s : JsString} (h : subtractDecimalStrings a b = some s) :
    ∃ m n, decimalToStroops a = some m ∧ decimalToStroops b = some n ∧ n ≤ m ∧ decimalToStroops s = some (m - n) := by
  obtain ⟨p, q, hp, hq, hle⟩ := (isSome_subtractDecimalStrings a b).mp (by rw [h, Option.isSome_some])
  obtain ⟨m, ha, rfl⟩ := hp.exists_stroops
  obtain ⟨n, hb, rfl⟩ := hq.exists_stroops
  have hle' : n ≤ m := by exact_mod_cast (div_le_div_iff_of_pos_right (by positivity)).mp hle
  obtain ⟨t, ht, hstroops⟩ := (subtractDecimalStrings_of_stroops ha hb).1 hle'
  rw [h] at ht
  exact ⟨m, n, ha, hb, hle', Option.some.inj ht ▸ hstroops⟩

/-! ## Amounts are exact -/

/-- Amounts are exact: an integer at a scale is shown as the number that it is, a number of stroops is read back, and a difference is
there when both are amounts and the first is no less, and is exact. -/
theorem amounts_exact :
    (∀ raw value, IsInteger raw value → ∀ d, ShowsAmount (formatAmount raw d) (value / 10 ^ d)) ∧
      (∀ n, decimalToStroops (withoutCommas (formatAmount (js (decimal n)) 7)) = some n) ∧
      ∀ a b,
        ((subtractDecimalStrings a b).isSome = true ↔ ∃ p q, IsAmount a p ∧ IsAmount b q ∧ q ≤ p) ∧
          ∀ s, subtractDecimalStrings a b = some s →
            ∃ m n, decimalToStroops a = some m ∧ decimalToStroops b = some n ∧ n ≤ m ∧ decimalToStroops s = some (m - n) := by
  refine ⟨?_, ?_, fun a b => ⟨isSome_subtractDecimalStrings a b, fun s h => decimalToStroops_subtractDecimalStrings h⟩⟩
  · intro raw value hraw d
    cases hraw with
    | plain hne h =>
      rw [Int.cast_natCast]
      exact shows_formatAmount hne h d
    | negative hne h =>
      rw [Int.cast_neg, Int.cast_natCast, neg_div]
      exact shows_formatAmount_minus hne h d
  · intro n
    rw [withoutCommas_formatAmount (js_decimal_ne_nil n) (isDigit_js_decimal n)]
    exact decimalToStroops_cut n

example : formatAmount (js "92233720368547758079999999".toList) 7 = js "9,223,372,036,854,775,807.9999999".toList := by
  decide +kernel

/-- A debt of three lumens and a half. -/
theorem amounts_exact_debt : ShowsAmount (formatAmount (js "-35000000".toList) 7) ((-35000000 : ℤ) / 10 ^ 7) :=
  amounts_exact.1 _ _ (IsInteger.negative (s := js "35000000".toList) (by decide) (List.all_eq_true.mp (by decide))) 7

end Soroscan
