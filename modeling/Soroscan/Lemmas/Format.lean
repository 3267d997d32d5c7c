import Soroscan.Format

/-!
# Amounts as text, function by function

What `formatAmount`, `formatDecimalDisplay` and `decimalToStroops` make of integers and of plain decimals.
-/

namespace Soroscan

open DecimalText

/-! ## The two patterns -/

theorem head_ne_minus {s : JsString} (h : ∀ u ∈ s, isDigit u = true) : s.head? ≠ some minus := by
  intro hhead
  exact absurd (h minus (List.mem_of_head? hhead)) (by decide)

theorem isIntegerText_of_digits {s : JsString} (hne : s ≠ []) (h : ∀ u ∈ s, isDigit u = true) : isIntegerText s = true := by
  rw [isIntegerText, if_neg (head_ne_minus h), Bool.and_eq_true, decide_eq_true_eq, List.all_eq_true]
  exact ⟨hne, h⟩

theorem isIntegerText_minus {s : JsString} (hne : s ≠ []) (h : ∀ u ∈ s, isDigit u = true) : isIntegerText (minus :: s) = true := by
  rw [isIntegerText, if_pos List.head?_cons, List.tail_cons, Bool.and_eq_true, decide_eq_true_eq, List.all_eq_true]
  exact ⟨hne, h⟩

/-- The pattern of a decimal takes the plain decimals whose fraction is within the bound. -/
theorem isDecimalText_iff (maxFraction : Option Nat) (s : JsString) :
    isDecimalText maxFraction s = true ↔
      ∃ int fraction, IsPlain s int fraction ∧ ∀ bound ∈ maxFraction, fraction.length ≤ bound := by
  rw [isDecimalText, Bool.and_eq_true, decide_eq_true_eq]
  constructor
  · rintro ⟨hne, hrest⟩
    have hint : ∀ u ∈ s.takeWhile isDigit, isDigit u = true := fun u hu => List.mem_takeWhile_imp hu
    rw [Bool.or_eq_true, decide_eq_true_eq, Bool.and_eq_true, Bool.and_eq_true, Bool.and_eq_true, decide_eq_true_eq, decide_eq_true_eq,
      List.all_eq_true] at hrest
    rcases hrest with hrest | ⟨⟨⟨hdot, hfraction⟩, hdigits⟩, hbound⟩
    · refine ⟨s.takeWhile isDigit, [], ⟨hne, hint, fun _ hu => absurd hu List.not_mem_nil, ?_⟩, fun _ _ => Nat.zero_le _⟩
      rw [fractionText_nil, ← hrest, List.takeWhile_append_dropWhile]
    · obtain ⟨fraction, hcons⟩ := List.head?_eq_some_iff.mp hdot
      rw [hcons, List.tail_cons] at hfraction hdigits hbound
      refine ⟨s.takeWhile isDigit, fraction, ⟨hne, hint, hdigits, ?_⟩, fun bound hmem => ?_⟩
      · rw [fractionText_of_ne hfraction, ← hcons, List.takeWhile_append_dropWhile]
      · rw [Option.mem_def.mp hmem, Option.all_some, decide_eq_true_eq] at hbound
        exact hbound
  · rintro ⟨int, fraction, h, hbound⟩
    rw [h.takeWhile_eq, h.dropWhile_eq]
    refine ⟨h.ne_nil, ?_⟩
    by_cases hfraction : fraction = []
    · rw [hfraction, fractionText_nil]
      rfl
    · rw [fractionText_of_ne hfraction, List.head?_cons, List.tail_cons, Bool.or_eq_true, Bool.and_eq_true, Bool.and_eq_true,
        Bool.and_eq_true, decide_eq_true_eq, List.all_eq_true, Option.all_eq_true_iff_get]
      exact Or.inr ⟨⟨⟨rfl, decide_eq_true hfraction⟩, h.fractionDigits⟩, fun hsome =>
        decide_eq_true (hbound _ (Option.get_mem hsome))⟩

theorem splitDecimal_of_isPlain {s int fraction : JsString} (h : IsPlain s int fraction) : splitDecimal s = (int, fraction) := by
  have hdot : ∀ {t : JsString}, (∀ u ∈ t, isDigit u = true) → dot ∉ t := fun ht hmem => dot_ne_of_isDigit (ht dot hmem) rfl
  rw [splitDecimal, h.eq]
  by_cases hfraction : fraction = []
  · rw [hfraction, fractionText_nil, List.append_nil, List.splitOn_eq_singleton (hdot h.intDigits)]
    rfl
  · rw [fractionText_of_ne hfraction, List.splitOn_append_cons_self_of_not_mem (hdot h.intDigits),
      List.splitOn_eq_singleton (hdot h.fractionDigits)]
    rfl

/-! ## An integer at a scale -/

/-- Digits at a scale: those before the last ones in groups, and the last ones as a fraction without the zeros at its end. -/
theorem formatAmount_of_digits {s : JsString} (hne : s ≠ []) (h : ∀ u ∈ s, isDigit u = true) (d : Nat) :
    formatAmount s d =
      groupThousands ((padStart (d + 1) s).rdrop d) ++ fractionText (trimZeros ((padStart (d + 1) s).rtake d)) := by
  have hfraction : (if 0 < d then trimZeros ((padStart (d + 1) s).rtake d) else []) = trimZeros ((padStart (d + 1) s).rtake d) := by
    rcases Nat.eq_zero_or_pos d with rfl | hd
    · rw [if_neg (Nat.lt_irrefl 0), List.rtake_zero]
      rfl
    · rw [if_pos hd]
  have hnegative : (s.head? == some minus) = false := beq_eq_false_iff_ne.mpr (head_ne_minus h)
  rw [formatAmount, if_pos (isIntegerText_of_digits hne h), hnegative]
  simp only [Bool.false_eq_true, if_false, List.nil_append]
  rw [hfraction]

theorem formatAmount_minus {s : JsString} (hne : s ≠ []) (h : ∀ u ∈ s, isDigit u = true) (d : Nat) :
    formatAmount (minus :: s) d = minus :: formatAmount s d := by
  have hnegative : (s.head? == some minus) = false := beq_eq_false_iff_ne.mpr (head_ne_minus h)
  rw [formatAmount, formatAmount, if_pos (isIntegerText_minus hne h), if_pos (isIntegerText_of_digits hne h), hnegative]
  rfl

/-! ## Decimals -/

/-- A plain decimal of at most seven decimals is as many stroops as it says. -/
theorem decimalToStroops_of_isPlain {s int fraction : JsString} (h : IsPlain s int fraction) (hle : fraction.length ≤ 7) :
    ∃ n : Nat, decimalToStroops s = some n ∧ (n : ℚ) = valueOf int fraction * 10 ^ 7 := by
  have hdecimal : isDecimalText (some 7) s = true :=
    (isDecimalText_iff _ _).mpr ⟨int, fraction, h, fun bound hmem => Option.mem_some.mp hmem ▸ hle⟩
  refine ⟨numberOf (int ++ padEnd 7 fraction), ?_, ?_⟩
  · rw [decimalToStroops, if_pos hdecimal, splitDecimal_of_isPlain h]
  · have hpow : (10 : ℚ) ^ 7 = 10 ^ fraction.length * 10 ^ (7 - fraction.length) := by
      rw [← pow_add]
      congr 1
      omega
    rw [numberOf_append, numberOf_padEnd, length_padEnd, max_eq_left hle, valueOf, Nat.cast_add, Nat.cast_mul, Nat.cast_mul,
      Nat.cast_pow, Nat.cast_pow, Nat.cast_ofNat, add_mul]
    congr 1
    rw [hpow, ← mul_assoc, div_mul_cancel₀ _ (by positivity)]

/-- The amounts that are stroops are the plain decimals of at most seven decimals. -/
theorem decimalToStroops_eq_some {s : JsString} {n : Nat} (h : decimalToStroops s = some n) :
    ∃ int fraction, IsPlain s int fraction ∧ fraction.length ≤ 7 ∧ (n : ℚ) = valueOf int fraction * 10 ^ 7 := by
  by_cases hdecimal : isDecimalText (some 7) s = true
  · obtain ⟨int, fraction, hplain, hbound⟩ := (isDecimalText_iff _ _).mp hdecimal
    obtain ⟨m, hm, hvalue⟩ := decimalToStroops_of_isPlain hplain (hbound 7 rfl)
    exact ⟨int, fraction, hplain, hbound 7 rfl, by rwa [Option.some.inj (h.symm.trans hm)]⟩
  · rw [decimalToStroops, if_neg hdecimal] at h
    cases h

theorem formatDecimalDisplay_of_isPlain {s int fraction : JsString} (h : IsPlain s int fraction) (maxFraction : Nat) :
    formatDecimalDisplay s maxFraction = groupThousands int ++ fractionText (trimZeros (fraction.take maxFraction)) := by
  have hdecimal : isDecimalText none s = true := (isDecimalText_iff _ _).mpr ⟨int, fraction, h, fun _ hmem => nomatch hmem⟩
  rw [formatDecimalDisplay, if_pos hdecimal, splitDecimal_of_isPlain h]
  by_cases htrimmed : trimZeros (fraction.take maxFraction) = []
  · simp only [htrimmed, if_true, fractionText_nil, List.append_nil]
  · simp only [htrimmed, if_false, fractionText_of_ne htrimmed]

/-! ## Grouped texts -/

section

variable {int fraction : JsString}

/-- Without its commas, a grouped decimal is the plain one. -/
theorem withoutCommas_grouped (hint : ∀ u ∈ int, isDigit u = true) (hfraction : ∀ u ∈ fraction, isDigit u = true) :
    withoutCommas (groupThousands int ++ fractionText fraction) = int ++ fractionText fraction := by
  rw [withoutCommas, List.filter_append]
  exact congrArg₂ (· ++ ·) (withoutCommas_groupThousands hint) (withoutCommas_fractionText hfraction)

theorem dot_notMem_groupThousands (hint : ∀ u ∈ int, isDigit u = true) : dot ∉ groupThousands int := by
  intro hmem
  rcases mem_groupThousands hint dot hmem with h | h
  · exact absurd h (by decide)
  · exact absurd h (by decide)

theorem takeWhile_ne_dot (hint : ∀ u ∈ int, isDigit u = true) (fraction : JsString) :
    (groupThousands int ++ fractionText fraction).takeWhile (fun u => decide (u ≠ dot)) = groupThousands int := by
  have hall : ∀ u ∈ groupThousands int, decide (u ≠ dot) = true := fun u hu =>
    decide_eq_true fun heq => dot_notMem_groupThousands hint (heq ▸ hu)
  rw [List.takeWhile_append_of_pos hall]
  by_cases hne : fraction = []
  · rw [hne, fractionText_nil, List.takeWhile_nil, List.append_nil]
  · rw [fractionText_of_ne hne, List.takeWhile_cons_of_neg (by decide), List.append_nil]

/-- What stands behind the dot of a grouped decimal is its fraction. -/
theorem fractionPart_grouped (hint : ∀ u ∈ int, isDigit u = true) (fraction : JsString) :
    fractionPart (groupThousands int ++ fractionText fraction) = fraction := by
  have happend := (groupThousands int ++ fractionText fraction).takeWhile_append_dropWhile (p := fun u => decide (u ≠ dot))
  rw [takeWhile_ne_dot hint] at happend
  rw [fractionPart, List.append_cancel_left happend]
  by_cases hne : fraction = []
  · rw [hne]
    rfl
  · rw [fractionText_of_ne hne, List.drop_one, List.tail_cons]

/-- What stands before the dot of a grouped decimal are its digits in groups. -/
theorem integerPart_grouped (hint : ∀ u ∈ int, isDigit u = true) (hne : int ≠ []) (fraction : JsString) :
    integerPart (groupThousands int ++ fractionText fraction) = groupThousands int := by
  have hgrouped : groupThousands int ≠ [] := fun hnil => hne (by rw [← withoutCommas_groupThousands hint, hnil]; rfl)
  obtain ⟨u, rest, hcons⟩ := List.exists_cons_of_ne_nil hgrouped
  have hu : (u == minus) = false := by
    rcases mem_groupThousands hint u (hcons ▸ List.mem_cons_self) with h | rfl
    · exact beq_eq_false_iff_ne.mpr fun heq => absurd (heq ▸ h) (by decide)
    · decide
  have hdrop : (groupThousands int ++ fractionText fraction).dropWhile (fun u => u == minus) =
      groupThousands int ++ fractionText fraction := by
    rw [hcons, List.cons_append, List.dropWhile_cons_of_neg (by rw [hu]; exact Bool.false_ne_true)]
  rw [integerPart, hdrop, takeWhile_ne_dot hint]

end

end Soroscan
