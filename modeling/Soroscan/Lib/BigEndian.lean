import Mathlib.Data.List.Basic
import Mathlib.Tactic

/-!
# Numbers as bytes

`bigEndian count n` is a number as a fixed count of bytes, its highest byte first, and `fromBigEndian` reads bytes as a number.
Where the number fits the bytes, the two undo each other.
-/

namespace Soroscan

/-- A number as so many bytes, the highest one first. -/
def bigEndian (count n : Nat) : List UInt8 := (List.range count).map fun i => UInt8.ofNat (n / 256 ^ (count - 1 - i) % 256)

/-- The number that bytes are, the highest one first. -/
def fromBigEndian (bs : List UInt8) : Nat := bs.foldl (fun value byte => value * 256 + byte.toNat) 0

theorem bigEndian_succ (count n : Nat) :
    bigEndian (count + 1) n = UInt8.ofNat (n / 256 ^ count % 256) :: bigEndian count n := by
  rw [bigEndian, List.range_succ_eq_map, List.map_cons, List.map_map]
  refine congrArg _ (List.map_congr_left fun i _ => ?_)
  rw [Function.comp_apply, Nat.add_sub_cancel, Nat.succ_eq_add_one, Nat.sub_sub, Nat.add_comm 1 i]

theorem length_bigEndian (count n : Nat) : (bigEndian count n).length = count := by
  rw [bigEndian, List.length_map, List.length_range]

/-- Reading goes on where it stands. -/
theorem foldl_bigEndian (count n value : Nat) :
    (bigEndian count n).foldl (fun value byte => value * 256 + byte.toNat) value = value * 256 ^ count + n % 256 ^ count := by
  induction count generalizing value with
  | zero => rw [Nat.pow_zero, Nat.mul_one, Nat.mod_one]; rfl
  | succ count ih =>
    rw [bigEndian_succ, List.foldl_cons, ih, UInt8.toNat_ofNat', Nat.mod_mod, Nat.mod_pow_succ]
    ring

/-- A number that fits is read back from its bytes. -/
theorem fromBigEndian_bigEndian {count n : Nat} (h : n < 256 ^ count) : fromBigEndian (bigEndian count n) = n := by
  rw [fromBigEndian, foldl_bigEndian, Nat.zero_mul, Nat.zero_add, Nat.mod_eq_of_lt h]

/-- What is above the bytes of a number does not show in them. -/
theorem bigEndian_add_mul (count m n : Nat) : bigEndian count (m * 256 ^ count + n) = bigEndian count n := by
  induction count generalizing m with
  | zero => rfl
  | succ count ih =>
    have hmul : m * 256 ^ (count + 1) = m * 256 * 256 ^ count := by ring
    have hbyte : (m * 256 * 256 ^ count + n) / 256 ^ count % 256 = n / 256 ^ count % 256 := by
      rw [Nat.add_comm, Nat.add_mul_div_right _ _ (Nat.pow_pos (by decide)), Nat.add_mul_mod_self_right]
    rw [bigEndian_succ, bigEndian_succ, hmul, ih, hbyte]

theorem foldl_eq_add (bs : List UInt8) (value : Nat) :
    bs.foldl (fun value byte => value * 256 + byte.toNat) value = value * 256 ^ bs.length + fromBigEndian bs := by
  rw [fromBigEndian]
  induction bs generalizing value with
  | nil => rw [List.foldl_nil, List.foldl_nil, List.length_nil, Nat.pow_zero, Nat.mul_one, Nat.add_zero]
  | cons b bs ih =>
    rw [List.foldl_cons, List.foldl_cons, ih, ih (0 * 256 + b.toNat), List.length_cons]
    ring

theorem fromBigEndian_cons (b : UInt8) (bs : List UInt8) :
    fromBigEndian (b :: bs) = b.toNat * 256 ^ bs.length + fromBigEndian bs := by
  rw [fromBigEndian, List.foldl_cons, foldl_eq_add, Nat.zero_mul, Nat.zero_add]

theorem fromBigEndian_lt (bs : List UInt8) : fromBigEndian bs < 256 ^ bs.length := by
  induction bs with
  | nil => decide
  | cons b bs ih =>
    have hb := b.toNat_lt
    calc fromBigEndian (b :: bs) = b.toNat * 256 ^ bs.length + fromBigEndian bs := fromBigEndian_cons b bs
      _ < b.toNat * 256 ^ bs.length + 256 ^ bs.length := Nat.add_lt_add_left ih _
      _ = (b.toNat + 1) * 256 ^ bs.length := (Nat.succ_mul _ _).symm
      _ ≤ 256 * 256 ^ bs.length := Nat.mul_le_mul_right _ hb
      _ = 256 ^ (b :: bs).length := by rw [List.length_cons, Nat.pow_succ, Nat.mul_comm]

/-- Bytes are those of the number that they are. -/
theorem bigEndian_fromBigEndian (bs : List UInt8) : bigEndian bs.length (fromBigEndian bs) = bs := by
  induction bs with
  | nil => rfl
  | cons b bs ih =>
    have hhead : (b.toNat * 256 ^ bs.length + fromBigEndian bs) / 256 ^ bs.length = b.toNat := by
      rw [Nat.add_comm, Nat.add_mul_div_right _ _ (Nat.pow_pos (by decide)), Nat.div_eq_of_lt (fromBigEndian_lt bs), Nat.zero_add]
    rw [List.length_cons, bigEndian_succ, fromBigEndian_cons, hhead, bigEndian_add_mul, ih, Nat.mod_eq_of_lt b.toNat_lt,
      UInt8.ofNat_toNat]

/-- So many bytes are those of a word. -/
theorem exists_word {count : Nat} {bs : List UInt8} (h : bs.length = count) :
    ∃ w : BitVec (8 * count), bs = bigEndian count w.toNat := by
  have hlt : fromBigEndian bs < 2 ^ (8 * count) := by
    rw [Nat.pow_mul, ← h]
    exact fromBigEndian_lt bs
  refine ⟨BitVec.ofNat _ (fromBigEndian bs), ?_⟩
  rw [BitVec.toNat_ofNat, Nat.mod_eq_of_lt hlt, ← h, bigEndian_fromBigEndian]

end Soroscan
