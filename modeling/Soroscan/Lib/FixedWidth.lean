import Soroscan.Lib.Positional
import Soroscan.Lib.Text
import Soroscan.Lib.Utf8

/-!
# Hexadecimal numbers of a fixed width

Numbers in upper-case hexadecimal digits with zeros before them. Of one width, they are ordered byte by byte as the numbers are.
-/

namespace Soroscan

/-- The hexadecimal digits of a natural number, in upper case. -/
def upperHex (n : Nat) : Text := (Nat.toDigits 16 n).map Char.toUpper

/-- Zeros before a text, up to a width. -/
def padZeros (width : Nat) (t : Text) : Text := List.replicate (width - t.length) '0' ++ t

/-- `%08X`, of any width. -/
def fixedHex (width n : Nat) : Text := padZeros width (upperHex n)

/-- The bytes of a text. -/
def utf8Bytes (t : Text) : Bytes := t.flatMap String.utf8EncodeChar

/-- The digits of `%X`. -/
def isHexByte (b : UInt8) : Bool := (decide (48 ≤ b) && decide (b ≤ 57)) || (decide (65 ≤ b) && decide (b ≤ 70))

def hexByteValue (b : UInt8) : Nat := if b < 65 then b.toNat - 48 else b.toNat - 55

theorem isHexByte_bounds {b : UInt8} (h : isHexByte b = true) :
    48 ≤ b.toNat ∧ b.toNat ≤ 57 ∧ hexByteValue b = b.toNat - 48 ∨ 65 ≤ b.toNat ∧ b.toNat ≤ 70 ∧ hexByteValue b = b.toNat - 55 := by
  rw [isHexByte, Bool.or_eq_true, Bool.and_eq_true, Bool.and_eq_true] at h
  simp only [decide_eq_true_eq, UInt8.le_iff_toNat_le] at h
  rcases h with ⟨hlow, hhigh⟩ | ⟨hlow, hhigh⟩
  · have hhigh' : b.toNat ≤ 57 := hhigh
    exact Or.inl ⟨hlow, hhigh, if_pos (UInt8.lt_iff_toNat_lt.mpr (show b.toNat < 65 by omega))⟩
  · have hlow' : 65 ≤ b.toNat := hlow
    exact Or.inr ⟨hlow, hhigh, if_neg fun hlt => absurd (UInt8.lt_iff_toNat_lt.mp hlt) (show ¬b.toNat < 65 by omega)⟩

theorem isHexDigits : Positional.IsDigits 16 hexByteValue fun b => isHexByte b = true := by
  constructor
  · intro u hu
    have := isHexByte_bounds hu
    omega
  · intro u v hu hv
    have := isHexByte_bounds hu
    have := isHexByte_bounds hv
    rw [UInt8.lt_iff_toNat_lt]
    omega
  · intro u v hu hv h
    have := isHexByte_bounds hu
    have := isHexByte_bounds hv
    exact UInt8.toNat_inj.mp (by omega)

/-! ## The bytes of a number -/

theorem utf8Bytes_append (s t : Text) : utf8Bytes (s ++ t) = utf8Bytes s ++ utf8Bytes t := List.flatMap_append

theorem hexDigit_spec {d : Nat} (h : d < 16) :
    ∃ b, utf8Bytes [d.digitChar.toUpper] = [b] ∧ isHexByte b = true ∧ hexByteValue b = d := by
  interval_cases d <;> exact ⟨_, rfl, rfl, rfl⟩

/-- The digits of a number denote it. -/
theorem utf8Bytes_upperHex (n : Nat) :
    (∀ b ∈ utf8Bytes (upperHex n), isHexByte b = true) ∧ Positional.value 16 hexByteValue (utf8Bytes (upperHex n)) = n ∧
      (utf8Bytes (upperHex n)).length = (upperHex n).length := by
  induction n using Nat.strong_induction_on with
  | _ n ih =>
    rcases Nat.lt_or_ge n 16 with hlt | hge
    · obtain ⟨b, hb, hhex, hvalue⟩ := hexDigit_spec hlt
      rw [upperHex, Nat.toDigits_of_lt_base hlt, List.map_singleton, hb, Positional.value_cons, hvalue]
      exact ⟨List.forall_mem_singleton.mpr hhex, by simp, rfl⟩
    · obtain ⟨b, hb, hhex, hvalue⟩ := hexDigit_spec (Nat.mod_lt n (by decide : 16 > 0))
      obtain ⟨hall, hquotient, hlength⟩ := ih (n / 16) (by omega)
      have hcut : upperHex n = upperHex (n / 16) ++ [(n % 16).digitChar.toUpper] := by
        rw [upperHex, upperHex, Nat.toDigits_of_base_le (by decide) hge, List.map_append, List.map_singleton]
      rw [hcut, utf8Bytes_append, hb, Positional.value_append, hquotient, Positional.value_cons, hvalue, List.length_append,
        List.length_append, hlength]
      refine ⟨fun b' hb' => ?_, ?_, rfl⟩
      · rcases List.mem_append.mp hb' with hb' | hb'
        · exact hall b' hb'
        · exact List.mem_singleton.mp hb' ▸ hhex
      · rw [List.length_singleton, List.length_nil, Positional.value_nil]
        omega

/-- A number that fits its width takes as many digits, which denote it. -/
theorem utf8Bytes_fixedHex {width n : Nat} (hwidth : 0 < width) (h : n < 16 ^ width) :
    (∀ b ∈ utf8Bytes (fixedHex width n), isHexByte b = true) ∧ Positional.value 16 hexByteValue (utf8Bytes (fixedHex width n)) = n ∧
      (utf8Bytes (fixedHex width n)).length = width := by
  have hzeros : ∀ k, utf8Bytes (List.replicate k '0') = List.replicate k 48 := by
    intro k
    induction k with
    | zero => rfl
    | succ k ih =>
      rw [List.replicate_succ, utf8Bytes, List.flatMap_cons, ← utf8Bytes, ih]
      rfl
  have hzero : ∀ k, Positional.value 16 hexByteValue (List.replicate k 48) = 0 := by
    intro k
    induction k with
    | zero => rfl
    | succ k ih => rw [List.replicate_succ, Positional.value_cons, ih, show hexByteValue 48 = 0 from rfl, Nat.zero_mul]
  obtain ⟨hall, hvalue, hlength⟩ := utf8Bytes_upperHex n
  have hfits : (upperHex n).length ≤ width := by
    rw [upperHex, List.length_map]
    exact (Nat.length_toDigits_le_iff (by decide) hwidth).mpr h
  rw [fixedHex, padZeros, utf8Bytes_append, hzeros, Positional.value_append, hzero, hvalue, List.length_append, List.length_replicate,
    hlength]
  refine ⟨fun b hb => ?_, by omega, by omega⟩
  rcases List.mem_append.mp hb with hb | hb
  · rw [(List.mem_replicate.mp hb).2]
    rfl
  · exact hall b hb

/-- Of one width, hexadecimal numbers are ordered byte by byte as the numbers are. -/
theorem utf8Bytes_fixedHex_lt {width m n : Nat} (hwidth : 0 < width) (hm : m < 16 ^ width) (hn : n < 16 ^ width) :
    utf8Bytes (fixedHex width m) < utf8Bytes (fixedHex width n) ↔ m < n := by
  obtain ⟨hallm, hvaluem, hlengthm⟩ := utf8Bytes_fixedHex hwidth hm
  obtain ⟨halln, hvaluen, hlengthn⟩ := utf8Bytes_fixedHex hwidth hn
  rw [Positional.lt_iff_value_lt isHexDigits hallm halln (hlengthm.trans hlengthn.symm), hvaluem, hvaluen]

end Soroscan
