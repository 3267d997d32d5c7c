import Mathlib.Data.List.Basic
import Mathlib.Tactic

/-!
# Decimal and hexadecimal text

Texts are lists of characters. `decimal` and `intDecimal` write numbers in base ten, `hexText` writes bytes as two lower-case
digits each, and the readers `readDecimal`, `readInt`, `readHex` take them back. The lemmas the users need are the round trips
and what the characters of a written number can be.
-/

namespace Soroscan

abbrev Text : Type := List Char

/-- The decimal digits of a natural number, without leading zeros. -/
def decimal (n : Nat) : Text := Nat.toDigits 10 n

/-- The decimal form of an integer: a minus sign before the digits of a negative one. -/
def intDecimal : Int → Text
  | .ofNat n => decimal n
  | .negSucc n => '-' :: decimal (n + 1)

/-- The number that a nonempty text of digits names. -/
def readDecimal (t : Text) : Option Nat :=
  if t ≠ [] ∧ t.all Char.isDigit then some (Nat.ofDigitChars 10 t 0) else none

/-- The integer a text of digits names, with an optional minus sign. -/
def readInt : Text → Option Int
  | '-' :: t => (readDecimal t).map fun n => -(n : Int)
  | t => (readDecimal t).map Int.ofNat

/-- The two hexadecimal digits of a byte, in lower case. -/
def hexByte (b : UInt8) : Text := [Nat.digitChar (b.toNat / 16), Nat.digitChar (b.toNat % 16)]

/-- The hexadecimal text of a list of bytes. -/
def hexText (bs : List UInt8) : Text := bs.flatMap hexByte

/-- The value of a hexadecimal digit in lower case. -/
def hexValue (c : Char) : Option Nat :=
  if '0' ≤ c ∧ c ≤ '9' then some (c.toNat - 48) else if 'a' ≤ c ∧ c ≤ 'f' then some (c.toNat - 87) else none

/-- The bytes a text of hexadecimal digit pairs names. -/
def readHex : Text → Option (List UInt8)
  | [] => some []
  | [_] => none
  | a :: b :: t =>
    match hexValue a, hexValue b, readHex t with
    | some x, some y, some bs => some (UInt8.ofNat (16 * x + y) :: bs)
    | _, _, _ => none

/-! ## Decimal -/

theorem decimal_ne_nil (n : Nat) : decimal n ≠ [] := Nat.toDigits_ne_nil

/-- Every character of a decimal text is a digit. -/
theorem isDigit_of_mem_decimal {n : Nat} {c : Char} (h : c ∈ decimal n) : c.isDigit = true :=
  Nat.isDigit_of_mem_toDigits (by omega) (by omega) h

@[simp] theorem ofDigitChars_decimal (n : Nat) : Nat.ofDigitChars 10 (decimal n) 0 = n := Nat.ofDigitChars_ten_toDigits

/-- Reading a decimal text back gives the number. -/
@[simp] theorem readDecimal_decimal (n : Nat) : readDecimal (decimal n) = some n := by
  have hd : (decimal n).all Char.isDigit = true := List.all_eq_true.mpr fun c hc => isDigit_of_mem_decimal hc
  simp [readDecimal, decimal_ne_nil, hd]

/-- Two numbers with the same decimal text are the same. -/
theorem decimal_injective {m n : Nat} (h : decimal m = decimal n) : m = n := by
  have := readDecimal_decimal m
  rw [h, readDecimal_decimal] at this
  exact (Option.some.inj this).symm

/-- A number below `10 ^ k` has at most `k` digits. -/
theorem decimal_length_le {n k : Nat} (hk : 0 < k) (h : n < 10 ^ k) : (decimal n).length ≤ k :=
  (Nat.length_toDigits_le_iff (by omega) hk).mpr h

theorem decimal_length_pos (n : Nat) : 0 < (decimal n).length := List.length_pos_iff.mpr (decimal_ne_nil n)

/-- The digits of a number are those of what is before its last `k` digits, and these. -/
theorem decimal_length_div (n k : Nat) : (decimal (n / 10 ^ k)).length + k = max (k + 1) (decimal n).length := by
  have hlt : ∀ m l, 0 < l → ((decimal m).length ≤ l ↔ m < 10 ^ l) := fun m l hl => Nat.length_toDigits_le_iff (by omega) hl
  have hdiv : ∀ l, 0 < l → ((decimal (n / 10 ^ k)).length ≤ l ↔ (decimal n).length ≤ l + k) := by
    intro l hl
    rw [hlt _ l hl, hlt n (l + k) (by omega), Nat.div_lt_iff_lt_mul (Nat.pow_pos (by decide)), ← Nat.pow_add]
  have hquotient := decimal_length_pos (n / 10 ^ k)
  have hupper := (hdiv _ hquotient).mp (Nat.le_refl _)
  have hlower := (hdiv (max (k + 1) (decimal n).length - k) (by omega)).mpr (by omega)
  omega

/-- The first digit of a number that is not zero is not zero. -/
theorem decimal_head_ne_zero {n : Nat} (hn : 0 < n) : ∃ c t, decimal n = c :: t ∧ c ≠ '0' := by
  induction n using Nat.strong_induction_on with
  | _ n ih =>
    by_cases hlt : n < 10
    · refine ⟨n.digitChar, [], Nat.toDigits_of_lt_base hlt, ?_⟩
      interval_cases n <;> decide
    · obtain ⟨c, t, hct, hc⟩ := ih (n / 10) (by omega) (by omega)
      refine ⟨c, t ++ [(n % 10).digitChar], ?_, hc⟩
      rw [decimal, Nat.toDigits_of_base_le (by omega) (by omega)]
      rw [decimal] at hct
      rw [hct, List.cons_append]

theorem not_minus_mem_decimal (n : Nat) : '-' ∉ decimal n := by
  intro h
  exact absurd (isDigit_of_mem_decimal h) (by decide)

/-- Reading the decimal form of an integer back gives the integer. -/
@[simp] theorem readInt_intDecimal (i : Int) : readInt (intDecimal i) = some i := by
  cases i with
  | ofNat n =>
    have hne : ∀ t, decimal n ≠ '-' :: t := by
      intro t ht
      exact not_minus_mem_decimal n (by rw [ht]; exact List.mem_cons_self)
    simp only [intDecimal]
    unfold readInt
    split
    · rename_i t ht
      exact absurd ht (hne t)
    · simp
  | negSucc n =>
    rw [intDecimal, readInt, readDecimal_decimal]
    rfl

/-- Two integers with the same decimal form are the same. -/
theorem intDecimal_injective {i j : Int} (h : intDecimal i = intDecimal j) : i = j := by
  have := readInt_intDecimal i
  rw [h, readInt_intDecimal] at this
  exact (Option.some.inj this).symm

/-! ## Hexadecimal -/

/-- The value of the digit that writes a number below sixteen is the number. -/
theorem hexValue_digitChar {n : Nat} (h : n < 16) : hexValue n.digitChar = some n := by
  interval_cases n <;> decide

@[simp] theorem hexText_nil : hexText [] = [] := rfl

@[simp] theorem hexText_cons (b : UInt8) (bs : List UInt8) :
    hexText (b :: bs) = (b.toNat / 16).digitChar :: (b.toNat % 16).digitChar :: hexText bs := rfl

@[simp] theorem hexText_length (bs : List UInt8) : (hexText bs).length = 2 * bs.length := by
  induction bs with
  | nil => rfl
  | cons b bs ih =>
    simp only [hexText_cons, List.length_cons, ih]
    omega

/-- Every character of a hexadecimal text is a hexadecimal digit in lower case. -/
theorem hexValue_of_mem_hexText {bs : List UInt8} {c : Char} (h : c ∈ hexText bs) : (hexValue c).isSome = true := by
  induction bs with
  | nil => simp at h
  | cons b bs ih =>
    have hb := b.toNat_lt
    rw [hexText_cons, List.mem_cons, List.mem_cons] at h
    rcases h with rfl | rfl | h
    · rw [hexValue_digitChar (by omega)]; rfl
    · rw [hexValue_digitChar (by omega)]; rfl
    · exact ih h

/-- Reading a hexadecimal text back gives the bytes. -/
@[simp] theorem readHex_hexText (bs : List UInt8) : readHex (hexText bs) = some bs := by
  induction bs with
  | nil => rfl
  | cons b bs ih =>
    have hb := b.toNat_lt
    rw [hexText_cons, readHex, hexValue_digitChar (by omega), hexValue_digitChar (by omega), ih]
    have hsum : 16 * (b.toNat / 16) + b.toNat % 16 = b.toNat := by omega
    simp only [hsum, UInt8.ofNat_toNat]

end Soroscan
