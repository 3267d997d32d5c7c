import Mathlib.Data.Int.Log
import Mathlib.Data.Rat.Floor
import Mathlib.Tactic.Linarith

/-!
# Numbers of double precision

A finite number of double precision is 53 bits at an exponent. `toDouble` rounds to the nearest one, and to the even one of two; an
operation on such numbers is the exact one, rounded. Infinities are not modelled, and zero has no sign. Rounding does not pass a number
of double precision, and leaves one as it is.
-/

namespace Soroscan

/-- The nearest integer, and of two the even one. -/
def roundEven (x : ℚ) : ℤ :=
  if x - ⌊x⌋ < 1 / 2 then ⌊x⌋
  else if 1 / 2 < x - ⌊x⌋ then ⌊x⌋ + 1
  else if ⌊x⌋ % 2 = 0 then ⌊x⌋
  else ⌊x⌋ + 1

/-- The exponent of the last of the bits that a number of double precision has in this place. -/
def lastBit (x : ℚ) : ℤ := max (Int.log 2 |x| - 52) (-1074)

/-- The nearest number of double precision. -/
def toDouble (x : ℚ) : ℚ := roundEven (x / 2 ^ lastBit x) * 2 ^ lastBit x

/-- The numbers of double precision: 53 bits at an exponent. -/
def IsDouble (y : ℚ) : Prop := ∃ m e : ℤ, |m| < 2 ^ 53 ∧ -1074 ≤ e ∧ y = m * 2 ^ e

/-! ## Rounding -/

theorem roundEven_le {x : ℚ} {k : ℤ} (h : x ≤ k) : roundEven x ≤ k := by
  have hfloor : ⌊x⌋ ≤ k := by exact_mod_cast (Int.floor_le x).trans h
  have hnext : 1 / 2 ≤ x - ⌊x⌋ → ⌊x⌋ + 1 ≤ k := by
    intro hhalf
    have hlt : (⌊x⌋ : ℚ) < k := by linarith
    exact_mod_cast hlt
  rw [roundEven]
  split_ifs with hlow hhigh heven
  · exact hfloor
  · exact hnext hhigh.le
  · exact hfloor
  · exact hnext (not_lt.mp hlow)

theorem le_roundEven {x : ℚ} {k : ℤ} (h : k ≤ x) : k ≤ roundEven x := by
  have hfloor : k ≤ ⌊x⌋ := Int.le_floor.mpr h
  rw [roundEven]
  split_ifs <;> omega

/-! ## Rounding to double precision -/

/-- A number at an exponent is an integer at each exponent below it. -/
theorem exists_mul_zpow (m : ℤ) {e l : ℤ} (h : l ≤ e) : ∃ k : ℤ, (m : ℚ) * 2 ^ e = k * 2 ^ l := by
  obtain ⟨n, hn⟩ := Int.eq_ofNat_of_zero_le (sub_nonneg.mpr h)
  refine ⟨m * 2 ^ n, ?_⟩
  have hsplit : e = n + l := by omega
  rw [hsplit, zpow_add₀ (by norm_num), zpow_natCast, Int.cast_mul, Int.cast_pow, Int.cast_ofNat]
  ring

/-- A number of double precision below the place of another is less than the first number of that place. -/
theorem lt_of_lt_lastBit {x y : ℚ} {m e : ℤ} (hm : |m| < 2 ^ 53) (he : -1074 ≤ e) (hy : y = m * 2 ^ e) (h : e < lastBit x) :
    y < 2 ^ (lastBit x + 52) ∧ lastBit x + 52 = Int.log 2 |x| := by
  have hlog : lastBit x = Int.log 2 |x| - 52 := by
    rw [lastBit] at h ⊢
    omega
  have hmantissa : (m : ℚ) < 2 ^ (53 : ℤ) := by
    have hlt : m < 2 ^ 53 := (le_abs_self m).trans_lt hm
    exact_mod_cast hlt
  refine ⟨?_, by omega⟩
  calc y = m * 2 ^ e := hy
    _ < 2 ^ (53 : ℤ) * 2 ^ e := mul_lt_mul_of_pos_right hmantissa (zpow_pos (by norm_num) _)
    _ = 2 ^ (53 + e) := (zpow_add₀ (by norm_num) 53 e).symm
    _ ≤ 2 ^ (lastBit x + 52) := zpow_le_zpow_right₀ (by norm_num) (by omega)

/-- Rounding a positive number does not pass a number of double precision above it. -/
theorem toDouble_le {x y : ℚ} (hx : 0 < x) (hy : IsDouble y) (h : x ≤ y) : toDouble x ≤ y := by
  obtain ⟨m, e, hm, he, hvalue⟩ := hy
  have hpos : (0 : ℚ) < 2 ^ lastBit x := zpow_pos (by norm_num) _
  by_cases hbit : lastBit x ≤ e
  · obtain ⟨k, hk⟩ := exists_mul_zpow m hbit
    rw [hk] at hvalue
    rw [toDouble, hvalue]
    refine mul_le_mul_of_nonneg_right (Int.cast_le.mpr (roundEven_le ?_)) hpos.le
    rwa [div_le_iff₀ hpos, ← hvalue]
  · -- a number of less digits is too small to be above this one
    obtain ⟨hlt, hlog⟩ := lt_of_lt_lastBit hm he hvalue (not_le.mp hbit)
    have hself := Int.zpow_log_le_self (b := 2) (by decide) (abs_pos.mpr hx.ne')
    rw [← hlog, abs_of_pos hx, Nat.cast_ofNat] at hself
    linarith

/-- Rounding a positive number does not pass a number of double precision below it. -/
theorem le_toDouble {x y : ℚ} (hx : 0 < x) (hy : IsDouble y) (h : y ≤ x) : y ≤ toDouble x := by
  obtain ⟨m, e, hm, he, hvalue⟩ := hy
  have hpos : (0 : ℚ) < 2 ^ lastBit x := zpow_pos (by norm_num) _
  by_cases hbit : lastBit x ≤ e
  · obtain ⟨k, hk⟩ := exists_mul_zpow m hbit
    rw [hk] at hvalue
    rw [toDouble, hvalue]
    refine mul_le_mul_of_nonneg_right (Int.cast_le.mpr (le_roundEven ?_)) hpos.le
    rwa [le_div_iff₀ hpos, ← hvalue]
  · -- the first number of this place lies between the two
    obtain ⟨hlt, hlog⟩ := lt_of_lt_lastBit hm he hvalue (not_le.mp hbit)
    have hself := Int.zpow_log_le_self (b := 2) (by decide) (abs_pos.mpr hx.ne')
    rw [← hlog, abs_of_pos hx, Nat.cast_ofNat] at hself
    have hfirst : (2 : ℚ) ^ (lastBit x + 52) = (2 ^ 52 : ℤ) * 2 ^ lastBit x := by
      rw [zpow_add₀ (by norm_num), mul_comm]
      norm_num
    rw [hfirst] at hlt hself
    refine hlt.le.trans ?_
    rw [toDouble]
    exact mul_le_mul_of_nonneg_right (Int.cast_le.mpr (le_roundEven ((le_div_iff₀ hpos).mpr hself))) hpos.le

/-- A number of double precision is left as it is. -/
theorem toDouble_of_isDouble {x : ℚ} (hx : 0 < x) (h : IsDouble x) : toDouble x = x :=
  le_antisymm (toDouble_le hx h le_rfl) (le_toDouble hx h le_rfl)

theorem toDouble_zero : toDouble 0 = 0 := by
  have hround : roundEven 0 = 0 := by simp [roundEven]
  rw [toDouble, zero_div, hround, Int.cast_zero, zero_mul]

theorem isDouble_natCast {n : Nat} (h : n < 2 ^ 53) : IsDouble n :=
  ⟨n, 0, by rw [Nat.abs_cast]; exact_mod_cast h, by decide, by rw [zpow_zero, mul_one, Int.cast_natCast]⟩

/-- The natural numbers of 53 bits are numbers of double precision. -/
theorem toDouble_natCast {n : Nat} (h : n < 2 ^ 53) : toDouble n = n := by
  rcases Nat.eq_zero_or_pos n with rfl | hn
  · exact_mod_cast toDouble_zero
  · exact toDouble_of_isDouble (Nat.cast_pos.mpr hn) (isDouble_natCast h)

end Soroscan
