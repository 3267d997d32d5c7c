import Soroscan.Theorems.Amounts

/-!
# Two short displays of one amount

Fees come as stroops and amounts as decimals; one display trims the formatted text, the other trims the fraction before it joins it.
Of the same number of lumens both make the same text, which is the number cut after its fifth decimal.
-/

namespace Soroscan

open DecimalText

/-- The seven-decimal form of a number of stroops, in lumens. -/
def sevenDecimals (n : Nat) : JsString := js (decimal (n / 10 ^ 7)) ++ dot :: padStart 7 (js (decimal (n % 10 ^ 7)))

/-! ## The digits of a number of stroops -/

/-- The padded digits of a number are those of the lumens and seven for the rest. -/
theorem padStart_decimal (d n : Nat) (hd : 0 < d) :
    padStart (d + 1) (js (decimal n)) = js (decimal (n / 10 ^ d)) ++ padStart d (js (decimal (n % 10 ^ d))) := by
  have hrest : (js (decimal (n % 10 ^ d))).length ≤ d := by
    rw [length_js_decimal]
    exact decimal_length_le hd (Nat.mod_lt _ (Nat.pow_pos (by decide)))
  have hlength : (padStart d (js (decimal (n % 10 ^ d)))).length = d := by
    rw [length_padStart, max_eq_left hrest]
  refine Positional.eq_of_value_eq isDigits (isDigit_padStart (isDigit_js_decimal n)) ?_ ?_ ?_
  · intro u hu
    rcases List.mem_append.mp hu with hu | hu
    · exact isDigit_js_decimal _ u hu
    · exact isDigit_padStart (isDigit_js_decimal _) u hu
  · rw [length_padStart, List.length_append, hlength, length_js_decimal, length_js_decimal, decimal_length_div]
  · show numberOf _ = numberOf _
    rw [numberOf_padStart, numberOf_append, hlength, numberOf_padStart, numberOf_js_decimal, numberOf_js_decimal,
      numberOf_js_decimal, Nat.div_add_mod']

/-- The digits of the part of a lumen. -/
theorem length_rest (n : Nat) : (padStart 7 (js (decimal (n % 10 ^ 7)))).length = 7 := by
  rw [length_padStart, length_js_decimal]
  exact max_eq_left (decimal_length_le (by decide) (Nat.mod_lt _ (by decide)))

theorem isDigit_rest (n : Nat) : ∀ u ∈ padStart 7 (js (decimal (n % 10 ^ 7))), isDigit u = true :=
  isDigit_padStart (isDigit_js_decimal _)

theorem formatAmount_decimal (n : Nat) :
    formatAmount (js (decimal n)) 7 =
      groupThousands (js (decimal (n / 10 ^ 7))) ++ fractionText (trimZeros (padStart 7 (js (decimal (n % 10 ^ 7))))) := by
  have hcut : ∀ a b : JsString, b.length = 7 → (a ++ b).rdrop 7 = a ∧ (a ++ b).rtake 7 = b := by
    intro a b hb
    rw [List.rdrop, List.rtake, List.length_append, hb, Nat.add_sub_cancel]
    exact ⟨List.take_left, List.drop_left⟩
  obtain ⟨hint, hfraction⟩ := hcut (js (decimal (n / 10 ^ 7))) _ (length_rest n)
  rw [formatAmount_of_digits (js_decimal_ne_nil n) (isDigit_js_decimal n), padStart_decimal 7 n (by decide), hint, hfraction]

theorem isPlain_sevenDecimals (n : Nat) :
    IsPlain (sevenDecimals n) (js (decimal (n / 10 ^ 7))) (padStart 7 (js (decimal (n % 10 ^ 7)))) where
  ne_nil := js_decimal_ne_nil _
  intDigits := isDigit_js_decimal _
  fractionDigits := isDigit_rest n
  eq := by
    have hne : padStart 7 (js (decimal (n % 10 ^ 7))) ≠ [] := fun h => absurd (length_rest n) (by rw [h]; decide)
    rw [fractionText_of_ne hne]
    rfl

/-! ## Trimming the formatted text -/

theorem trimDot_of_ne {s : JsString} (h : s.getLast? ≠ some dot) : trimDot s = s := if_neg h

theorem trimDot_append_dot (s : JsString) : trimDot (s ++ [dot]) = s := by
  rw [trimDot, List.getLast?_concat, if_pos rfl, List.dropLast_concat]

theorem getLast?_append_ne_dot {s t : JsString} (hne : t ≠ []) (h : ∀ u ∈ t, isDigit u = true) : (s ++ t).getLast? ≠ some dot := by
  rw [List.getLast?_append_of_ne_nil _ hne]
  intro hlast
  exact absurd (h dot (List.mem_of_getLast? hlast)) (by decide)

/-- Zeros and then a dot, trimmed from the end of a text. -/
theorem trimDot_trimZeros (s : JsString) {fraction : JsString} (h : ∀ u ∈ fraction, isDigit u = true) :
    trimDot (trimZeros (s ++ dot :: fraction)) = s ++ fractionText (trimZeros fraction) := by
  have hdot : trimZeros [dot] = [dot] := rfl
  have htail : trimZeros (dot :: fraction) = dot :: trimZeros fraction := by
    rw [← List.singleton_append, trimZeros_append_eq]
    split
    · rename_i hnil
      rw [hnil, hdot]
    · rfl
  rw [trimZeros_append_eq, htail, if_neg (List.cons_ne_nil _ _)]
  by_cases hnil : trimZeros fraction = []
  · rw [hnil, trimDot_append_dot, fractionText_nil, List.append_nil]
  · rw [fractionText_of_ne hnil, trimDot_of_ne]
    rw [List.append_cons]
    exact getLast?_append_ne_dot hnil (isDigit_trimZeros h)

theorem trimZeros_take {k : Nat} {s : JsString} (h : (trimZeros s).length ≤ k) : trimZeros (s.take k) = trimZeros s := by
  obtain ⟨m, hm⟩ := trimZeros_append s
  have htake : s.take k = trimZeros s ++ List.replicate (min (k - (trimZeros s).length) m) zero := by
    conv_lhs => rw [hm, List.take_append, List.take_of_length_le h, List.take_replicate]
  rw [htake, trimZeros_append_zeros, trimZeros_trimZeros]

theorem take_trimZeros {k : Nat} {s : JsString} (h : k ≤ (trimZeros s).length) : (trimZeros s).take k = s.take k := by
  obtain ⟨m, hm⟩ := trimZeros_append s
  conv_rhs => rw [hm, List.take_append_of_le_length h]

/-- The display of a grouped decimal with five decimals. -/
theorem formatXlmDisplay_eq {raw int fraction : JsString} (hint : ∀ u ∈ int, isDigit u = true)
    (hfraction : ∀ u ∈ fraction, isDigit u = true)
    (h : formatAmount raw 7 = groupThousands int ++ fractionText (trimZeros fraction)) :
    formatXlmDisplay raw = groupThousands int ++ fractionText (trimZeros (fraction.take 5)) := by
  have hdot := dot_notMem_groupThousands hint
  rw [formatXlmDisplay, h]
  by_cases hnil : trimZeros fraction = []
  · have hindex : (groupThousands int).idxOf? dot = none := List.idxOf?_eq_none_iff.mpr hdot
    have hshort : trimZeros (fraction.take 5) = [] := by rw [trimZeros_take (by rw [hnil]; decide), hnil]
    rw [hnil, hshort, fractionText_nil, List.append_nil]
    simp only [hindex]
  · rw [fractionText_of_ne hnil]
    have hindex : (groupThousands int ++ dot :: trimZeros fraction).idxOf? dot = some (groupThousands int).length := by
      refine List.idxOf?_eq_some_iff.mpr ⟨by rw [List.length_append, List.length_cons]; omega, ?_, fun j hj hget => ?_⟩
      · rw [List.getElem_append_right (Nat.le_refl _)]
        simp only [Nat.sub_self, List.getElem_cons_zero]
      · rw [List.getElem_append_left hj] at hget
        exact hdot (hget ▸ List.getElem_mem hj)
    have hbehind : (groupThousands int ++ dot :: trimZeros fraction).length - (groupThousands int).length - 1 =
        (trimZeros fraction).length := by
      rw [List.length_append, List.length_cons]
      omega
    simp only [hindex, hbehind]
    split
    · rename_i hle
      rw [trimZeros_take hle, fractionText_of_ne hnil]
    · rename_i hlong
      have htake : (groupThousands int ++ dot :: trimZeros fraction).take ((groupThousands int).length + 6) =
          groupThousands int ++ dot :: fraction.take 5 := by
        rw [List.take_length_add_append, List.take_succ_cons, take_trimZeros (by omega)]
      rw [htake, trimDot_trimZeros _ fun u hu => hfraction u (List.mem_of_mem_take hu)]

/-! ## The short display -/

/-- Five decimals of a number of stroops are the number cut after them. -/
theorem valueOf_short (n : Nat) :
    valueOf (js (decimal (n / 10 ^ 7))) (trimZeros ((padStart 7 (js (decimal (n % 10 ^ 7)))).take 5)) = (n / 100 : Nat) / 10 ^ 5 := by
  have hlength := length_rest n
  have htake : ((padStart 7 (js (decimal (n % 10 ^ 7)))).take 5).length = 5 := by rw [List.length_take, hlength]; rfl
  have hnumber : numberOf ((padStart 7 (js (decimal (n % 10 ^ 7)))).take 5) = n % 10 ^ 7 / 100 := by
    have hcut := congrArg numberOf ((padStart 7 (js (decimal (n % 10 ^ 7)))).take_append_drop 5)
    have hdrop : ((padStart 7 (js (decimal (n % 10 ^ 7)))).drop 5).length = 2 := by rw [List.length_drop, hlength]
    have hsmall := numberOf_lt (s := (padStart 7 (js (decimal (n % 10 ^ 7)))).drop 5) fun u hu =>
      isDigit_rest n u (List.mem_of_mem_drop hu)
    rw [numberOf_append, hdrop, numberOf_padStart, numberOf_js_decimal] at hcut
    rw [hdrop] at hsmall
    omega
  have hsplit : n / 100 = n / 10 ^ 7 * 10 ^ 5 + n % 10 ^ 7 / 100 := by omega
  rw [valueOf_trimZeros, valueOf, htake, hnumber, numberOf_js_decimal, hsplit, Nat.cast_add, Nat.cast_mul, Nat.cast_pow,
    Nat.cast_ofNat, add_div, mul_div_cancel_right₀ _ (by positivity)]

/-- What is cut after the fifth decimal is the largest multiple of its unit that is not more. -/
theorem isGreatest_short (n : Nat) :
    IsGreatest {x : ℚ | (∃ k : ℤ, x = k / 10 ^ 5) ∧ x ≤ n / 10 ^ 7} ((n / 100 : Nat) / 10 ^ 5) := by
  have hmod := Nat.div_add_mod n 100
  have hlt := Nat.mod_lt n (by decide : 100 > 0)
  constructor
  · refine ⟨⟨(n / 100 : Nat), by rw [Int.cast_natCast]⟩, ?_⟩
    rw [div_le_div_iff₀ (by positivity) (by positivity)]
    have hle : n / 100 * 10 ^ 7 ≤ n * 10 ^ 5 := by omega
    exact_mod_cast hle
  · rintro x ⟨⟨k, rfl⟩, hle⟩
    rw [div_le_div_iff₀ (by positivity) (by positivity)] at hle
    have hle' : k * 10 ^ 7 ≤ (n : ℤ) * 10 ^ 5 := by exact_mod_cast hle
    have hk : k ≤ (n / 100 : Nat) := by omega
    have hk' : (k : ℚ) ≤ ((n / 100 : Nat) : ℤ) := Int.cast_le.mpr hk
    rw [Int.cast_natCast] at hk'
    exact div_le_div_of_nonneg_right hk' (by positivity)

/-- A fee in stroops and the same amount as a decimal are displayed as one text: the number cut after its fifth decimal, without a
zero or a dot at its end. -/
theorem shortDisplays_agree (n : Nat) :
    formatXlmDisplay (js (decimal n)) = formatDecimalDisplay (sevenDecimals n) 5 ∧
      (∃ q, Denotes (withoutCommas (formatXlmDisplay (js (decimal n)))) q ∧
        IsGreatest {x : ℚ | (∃ k : ℤ, x = k / 10 ^ 5) ∧ x ≤ n / 10 ^ 7} q) ∧
      (fractionPart (formatXlmDisplay (js (decimal n)))).getLast? ≠ some zero ∧
      (formatXlmDisplay (js (decimal n))).getLast? ≠ some dot := by
  have hplain := isPlain_sevenDecimals n
  have hdisplay := formatXlmDisplay_eq hplain.intDigits hplain.fractionDigits (formatAmount_decimal n)
  have hshort : ∀ u ∈ trimZeros ((padStart 7 (js (decimal (n % 10 ^ 7)))).take 5), isDigit u = true :=
    isDigit_trimZeros fun u hu => hplain.fractionDigits u (List.mem_of_mem_take hu)
  rw [hdisplay, formatDecimalDisplay_of_isPlain hplain]
  refine ⟨rfl, ⟨_, ?_, isGreatest_short n⟩, ?_, ?_⟩
  · rw [withoutCommas_grouped hplain.intDigits hshort, ← valueOf_short]
    exact .plain ⟨hplain.ne_nil, hplain.intDigits, hshort, rfl⟩
  · rw [fractionPart_grouped hplain.intDigits]
    exact trimZeros_last_ne _
  · by_cases hnil : trimZeros ((padStart 7 (js (decimal (n % 10 ^ 7)))).take 5) = []
    · rw [hnil, fractionText_nil, List.append_nil]
      intro hlast
      exact dot_notMem_groupThousands hplain.intDigits (List.mem_of_getLast? hlast)
    · rw [fractionText_of_ne hnil, List.append_cons]
      exact getLast?_append_ne_dot hnil hshort

example : formatXlmDisplay (js "12300040000".toList) = js "1,230.004".toList := by decide

end Soroscan
