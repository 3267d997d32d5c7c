import Soroscan.Lib.Utf8
import Soroscan.Lib.Text
import Mathlib.Data.List.Lex
import Mathlib.Data.Fintype.Vector
import Mathlib.Data.FinEnum
import Mathlib.Order.Fin.Basic
import Mathlib.Tactic

/-!
# Words, hashes and times

The values both halves of the program share: 32-byte strings (transaction hashes, contract ids, key hashes) with the order
the database gives them, and points in time.
-/

namespace Soroscan

/-- A 32-byte string. -/
structure Bytes32 where
  bytes : Bytes
  length_eq : bytes.length = 32
  deriving DecidableEq, Repr

namespace Bytes32

theorem ext_bytes {a b : Bytes32} (h : a.bytes = b.bytes) : a = b := by
  cases a
  cases b
  simp only at h
  subst h
  rfl

/-- The 32-byte string that repeats one byte. -/
def fill (b : UInt8) : Bytes32 := ⟨List.replicate 32 b, List.length_replicate⟩

/-- The zero value of a 32-byte string. -/
def zero : Bytes32 := fill 0

/-- The values of the bytes: two 32-byte strings compare as these lists, byte by byte from the first one. -/
def nums (a : Bytes32) : List Nat := a.bytes.map UInt8.toNat

theorem nums_injective : Function.Injective nums := by
  intro a b h
  apply ext_bytes
  exact List.map_injective_iff.mpr (fun x y hxy => UInt8.toNat_inj.mp hxy) h

instance : LinearOrder Bytes32 := LinearOrder.lift' nums nums_injective

theorem lt_def {a b : Bytes32} : a < b ↔ a.nums < b.nums := Iff.rfl

instance : Finite Bytes32 := by
  refine Finite.of_injective (β := List.Vector UInt8 32) (fun a => ⟨a.bytes, a.length_eq⟩) ?_
  intro a b h
  exact ext_bytes (congrArg Subtype.val h)

/-- No 32-byte string comes before the zero one. -/
theorem not_lt_zero (a : Bytes32) : ¬a < zero := by
  have key : ∀ (n : Nat) (l : List Nat), l.length = n → ¬l < List.replicate n 0 := by
    intro n
    induction n with
    | zero =>
      intro l hl
      rw [List.eq_nil_of_length_eq_zero hl]
      exact List.lt_irrefl []
    | succ n ih =>
      intro l hl
      cases l with
      | nil => simp at hl
      | cons x l =>
        rw [List.replicate_succ, List.cons_lt_cons_iff]
        rintro (h | ⟨-, h⟩)
        · omega
        · exact ih l (by simpa using hl) h
  rw [lt_def]
  have hz : zero.nums = List.replicate 32 0 := by simp [zero, fill, nums]
  rw [hz]
  exact key 32 a.nums (by simp [nums, a.length_eq])

end Bytes32

/-- A point in time, in microseconds from the zero value of the clock: the resolution of the database's timestamps. -/
abbrev Time : Type := Int

/-- `uint32` of a number. -/
def uint32 (n : Nat) : BitVec 32 := BitVec.ofNat 32 n

/-! ## Words taken together -/

/-- A word put after others: their number moved up by its width, and its own. -/
theorem toNat_append {m n : Nat} (x : BitVec m) (y : BitVec n) : (x ++ y).toNat = x.toNat * 2 ^ n + y.toNat := by
  rw [BitVec.toNat_append, ← Nat.shiftLeft_add_eq_or_of_lt y.isLt, Nat.shiftLeft_eq]

theorem toInt_append {m n : Nat} (hm : m ≠ 0) (x : BitVec m) (y : BitVec n) :
    (x ++ y).toInt = x.toInt * 2 ^ n + y.toNat := by
  rw [BitVec.toInt_append, if_neg (by simpa using hm), Int.mul_comm]

end Soroscan
