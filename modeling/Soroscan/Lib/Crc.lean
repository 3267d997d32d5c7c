import Mathlib.Data.BitVec
import Mathlib.Data.List.Basic

/-!
# Checksums by division

A register is shifted bit by bit, and the divisor is added to it when a bit falls out at the top. With a divisor whose last bit is set
a shift is linear in exclusive or and loses nothing. Bytes are added at the top of the register, eight shifts for each: two bytes in a
row never change the checksum of 16 bits back, and no bytes that follow do.
-/

namespace Soroscan

namespace Crc

/-- A shift of the register by one bit. -/
def shift {w : Nat} (divisor x : BitVec w) : BitVec w := if x.msb then (x <<< 1) ^^^ divisor else x <<< 1

/-- So many shifts of the register. -/
def shifts {w : Nat} (divisor : BitVec w) (k : Nat) (x : BitVec w) : BitVec w := Nat.repeat (shift divisor) k x

/-- A byte is added to a register of 16 bits. -/
def feed (divisor x : BitVec 16) (b : UInt8) : BitVec 16 := shifts divisor 8 (x ^^^ (b.toBitVec.setWidth 16 : BitVec 16) <<< (8 : Nat))

section

variable {w : Nat} {divisor : BitVec w}

theorem shift_xor (x y : BitVec w) : shift divisor (x ^^^ y) = shift divisor x ^^^ shift divisor y := by
  have hcancel : ∀ a b p : BitVec w, a ^^^ p ^^^ (b ^^^ p) = a ^^^ b := by
    intro a b p
    rw [BitVec.xor_assoc, ← BitVec.xor_assoc p b p, BitVec.xor_comm p b, BitVec.xor_assoc b p p, BitVec.xor_self, BitVec.xor_zero]
  rw [shift, shift, shift, BitVec.msb_xor, BitVec.shiftLeft_xor_distrib]
  cases x.msb <;> cases y.msb
  · rfl
  · exact BitVec.xor_assoc _ _ _
  · show (x <<< 1 ^^^ y <<< 1) ^^^ divisor = (x <<< 1 ^^^ divisor) ^^^ y <<< 1
    rw [BitVec.xor_assoc, BitVec.xor_assoc, BitVec.xor_comm (y <<< 1)]
  · exact (hcancel _ _ _).symm

/-- With a divisor whose last bit is set, only the register of zeros is shifted to it. -/
theorem eq_zero_of_shift_eq_zero (hdivisor : divisor.getLsbD 0 = true) {x : BitVec w} (h : shift divisor x = 0#w) : x = 0#w := by
  rw [shift] at h
  split at h
  · -- the last bit of what was shifted is the last bit of the divisor
    have hbit := congrArg (fun z => z.getLsbD 0) h
    simp [hdivisor] at hbit
  · rename_i hmsb
    refine BitVec.eq_of_getLsbD_eq fun i hi => ?_
    rw [BitVec.getLsbD_zero]
    by_cases htop : i + 1 < w
    · have hbit := congrArg (fun z => z.getLsbD (i + 1)) h
      rw [BitVec.getLsbD_shiftLeft, Nat.add_sub_cancel, decide_eq_true htop, BitVec.getLsbD_zero] at hbit
      simpa only [Bool.true_and, Nat.not_lt_zero, Nat.lt_one_iff, Nat.add_one_ne_zero, decide_false, Bool.not_false] using hbit
    · have hlast : i = w - 1 := by omega
      rw [hlast, ← BitVec.msb_eq_getLsbD_last]
      exact Bool.eq_false_iff.mpr hmsb

theorem shifts_succ (k : Nat) (x : BitVec w) : shifts divisor (k + 1) x = shift divisor (shifts divisor k x) := rfl

theorem shifts_xor (k : Nat) (x y : BitVec w) : shifts divisor k (x ^^^ y) = shifts divisor k x ^^^ shifts divisor k y := by
  induction k with
  | zero => rfl
  | succ k ih => rw [shifts_succ, shifts_succ, shifts_succ, ih, shift_xor]

theorem shifts_add (j k : Nat) (x : BitVec w) : shifts divisor j (shifts divisor k x) = shifts divisor (j + k) x := by
  induction j with
  | zero => rw [Nat.zero_add]; rfl
  | succ j ih => rw [shifts_succ, ih, Nat.succ_add]; rfl

theorem eq_zero_of_shifts_eq_zero (hdivisor : divisor.getLsbD 0 = true) (k : Nat) {x : BitVec w} (h : shifts divisor k x = 0#w) :
    x = 0#w := by
  induction k with
  | zero => exact h
  | succ k ih => exact ih (eq_zero_of_shift_eq_zero hdivisor h)

theorem shifts_injective (hdivisor : divisor.getLsbD 0 = true) (k : Nat) : Function.Injective (shifts divisor k) := by
  intro x y h
  have hzero : shifts divisor k (x ^^^ y) = 0#w := by rw [shifts_xor, h, BitVec.xor_self]
  exact BitVec.xor_eq_zero_iff.mp (eq_zero_of_shifts_eq_zero hdivisor k hzero)

/-- As long as no bit falls out, the register is only shifted. -/
theorem shifts_of_clear {x : BitVec w} {k : Nat} (h : ∀ i, w ≤ i + k → x.getLsbD i = false) : shifts divisor k x = x <<< k := by
  induction k with
  | zero => exact (BitVec.shiftLeft_zero x).symm
  | succ k ih =>
    have hmsb : (x <<< k).msb = false := by
      rw [BitVec.msb_eq_getLsbD_last, BitVec.getLsbD_shiftLeft]
      by_cases hk : w - 1 < k
      · simp [hk]
      · rw [h (w - 1 - k) (by omega), Bool.and_false]
    rw [shifts_succ, ih fun i hi => h i (by omega), shift, hmsb, if_neg Bool.false_ne_true, BitVec.shiftLeft_add]

end

/-! ## Bytes -/

section

variable {divisor : BitVec 16}

theorem setWidth_getLsbD_of_le (b : UInt8) {i : Nat} (h : 8 ≤ i) : (b.toBitVec.setWidth 16 : BitVec 16).getLsbD i = false := by
  rw [BitVec.getLsbD_setWidth, BitVec.getLsbD_of_ge _ _ h, Bool.and_false]

/-- Two bytes are sixteen shifts of the register with the two added to it, the first at the top. -/
theorem feed_feed (x : BitVec 16) (a b : UInt8) :
    feed divisor (feed divisor x a) b =
      shifts divisor 16 (x ^^^ (a.toBitVec.setWidth 16 : BitVec 16) <<< (8 : Nat) ^^^ (b.toBitVec.setWidth 16 : BitVec 16)) := by
  have hlow : (b.toBitVec.setWidth 16 : BitVec 16) <<< (8 : Nat) = shifts divisor 8 (b.toBitVec.setWidth 16 : BitVec 16) :=
    (shifts_of_clear fun i hi => setWidth_getLsbD_of_le b (by omega)).symm
  rw [feed, feed, hlow, ← shifts_xor, shifts_add]

theorem feed_injective_left (hdivisor : divisor.getLsbD 0 = true) (b : UInt8) {x y : BitVec 16}
    (h : feed divisor x b = feed divisor y b) : x = y :=
  (BitVec.xor_left_inj _).mp (shifts_injective hdivisor 8 h)

/-- Two bytes are lost by no register. -/
theorem feed_feed_injective (hdivisor : divisor.getLsbD 0 = true) (x : BitVec 16) {a b a' b' : UInt8}
    (h : feed divisor (feed divisor x a) b = feed divisor (feed divisor x a') b') : a = a' ∧ b = b' := by
  rw [feed_feed, feed_feed] at h
  have hboth := shifts_injective hdivisor 16 h
  rw [BitVec.xor_assoc, BitVec.xor_assoc, BitVec.xor_right_inj] at hboth
  have hbit := fun i => congrArg (fun z : BitVec 16 => z.getLsbD i) hboth
  simp only [BitVec.getLsbD_xor, BitVec.getLsbD_shiftLeft] at hbit
  constructor
  · -- the first byte is in the upper half, where the second is not
    refine UInt8.toBitVec_inj.mp (BitVec.eq_of_getLsbD_eq fun i hi => ?_)
    have hupper := hbit (i + 8)
    rw [setWidth_getLsbD_of_le b (by omega), setWidth_getLsbD_of_le b' (by omega), Nat.add_sub_cancel, BitVec.getLsbD_setWidth,
      BitVec.getLsbD_setWidth, Bool.xor_false, Bool.xor_false] at hupper
    simpa [show i + 8 < 16 by omega, show i < 16 by omega, show ¬i + 8 < 8 by omega] using hupper
  · refine UInt8.toBitVec_inj.mp (BitVec.eq_of_getLsbD_eq fun i hi => ?_)
    have hlower := hbit i
    rw [BitVec.getLsbD_setWidth, BitVec.getLsbD_setWidth] at hlower
    simpa [show i < 8 by omega, show i < 16 by omega] using hlower

theorem foldl_feed_injective (hdivisor : divisor.getLsbD 0 = true) (data : List UInt8) {x y : BitVec 16}
    (h : data.foldl (feed divisor) x = data.foldl (feed divisor) y) : x = y := by
  induction data generalizing x y with
  | nil => exact h
  | cons b data ih => exact feed_injective_left hdivisor b (ih h)

/-- Data that differ in two bytes in a row have different checksums. -/
theorem foldl_feed_pair (hdivisor : divisor.getLsbD 0 = true) (x : BitVec 16) (front back : List UInt8) {a b a' b' : UInt8}
    (h : (front ++ a :: b :: back).foldl (feed divisor) x = (front ++ a' :: b' :: back).foldl (feed divisor) x) : a = a' ∧ b = b' := by
  rw [List.foldl_append, List.foldl_append, List.foldl_cons, List.foldl_cons, List.foldl_cons, List.foldl_cons] at h
  exact feed_feed_injective hdivisor _ (foldl_feed_injective hdivisor back h)

/-- The last byte of data adds its shifts to the checksum. -/
theorem foldl_feed_last (x : BitVec 16) (front : List UInt8) (a a' : UInt8) :
    (front ++ [a]).foldl (feed divisor) x ^^^ (front ++ [a']).foldl (feed divisor) x =
      shifts divisor 8 (((a ^^^ a').toBitVec.setWidth 16 : BitVec 16) <<< (8 : Nat)) := by
  have hxor : ((a ^^^ a').toBitVec.setWidth 16 : BitVec 16) <<< (8 : Nat) =
      (a.toBitVec.setWidth 16 : BitVec 16) <<< (8 : Nat) ^^^ (a'.toBitVec.setWidth 16 : BitVec 16) <<< (8 : Nat) := by
    rw [UInt8.toBitVec_xor, BitVec.setWidth_xor, BitVec.shiftLeft_xor_distrib]
  rw [List.foldl_append, List.foldl_append, List.foldl_cons, List.foldl_nil, List.foldl_cons, List.foldl_nil, feed, feed, ← shifts_xor,
    hxor]
  congr 1
  generalize List.foldl (feed divisor) x front = c
  rw [BitVec.xor_assoc, ← BitVec.xor_assoc _ c, BitVec.xor_comm _ c, BitVec.xor_assoc, ← BitVec.xor_assoc c, BitVec.xor_self,
    BitVec.zero_xor]

end

end Crc

end Soroscan
