import Soroscan.Lake

/-!
# One object for indexer and explorer

The indexer adds the partition size in 32 bits, the explorer in double precision. Both name the same object for a ledger, with the
bounds of the partition it is in, but for the ledgers of the last partition: its end does not fit 32 bits, and the indexer names a
wrapped one.
-/

namespace Soroscan

namespace Lake

/-- The text of an object's name. -/
def keyText (start partitionEnd sequence : Nat) : Text :=
  fixedHex 8 (0xffffffff - start) ++ "--".toList ++ decimal start ++ "-".toList ++ decimal partitionEnd ++ "/".toList ++
    fixedHex 8 (0xffffffff - sequence) ++ "--".toList ++ decimal sequence ++ ".xdr.zst".toList

/-- A name says which partition the ledger is in: its bounds hold the ledger and lie one partition apart. -/
def NamesPartition (key : Text) (sequence : Nat) : Prop :=
  ∃ start partitionEnd, key = keyText start partitionEnd sequence ∧ start ≤ sequence ∧ sequence ≤ partitionEnd ∧
    partitionEnd - start = 63999

/-- The partition a ledger is in. -/
def startOf (sequence : Nat) : Nat := sequence / 64000 * 64000

/-! ## The indexer -/

theorem objectKey_eq (sequence : BitVec 32) :
    objectKey sequence = keyText (startOf sequence.toNat) ((startOf sequence.toNat + 63999) % 2 ^ 32) sequence.toNat := by
  have hsequence := sequence.isLt
  have hstart : (sequence / partitionSize * partitionSize).toNat = startOf sequence.toNat := by
    have hsize : partitionSize.toNat = 64000 := rfl
    rw [BitVec.toNat_mul, BitVec.toNat_udiv, hsize, startOf]
    exact Nat.mod_eq_of_lt (by omega)
  have hend : (sequence / partitionSize * partitionSize + partitionSize - 1).toNat = (startOf sequence.toNat + 63999) % 2 ^ 32 := by
    have hsize : partitionSize.toNat = 64000 := rfl
    have hone : (1 : BitVec 32).toNat = 1 := rfl
    rw [BitVec.toNat_sub, BitVec.toNat_add, hstart, hsize, hone]
    omega
  have hnot : ∀ x : BitVec 32, (~~~x).toNat = 0xffffffff - x.toNat := fun x => BitVec.toNat_not
  simp only [objectKey, keyText, hnot, hstart, hend]

/-! ## The explorer -/

/-- A quotient by the partition size, rounded, has the same whole part. -/
theorem floor_toDouble_div {s : Nat} (h : s < 2 ^ 32) : ⌊toDouble (s / 64000)⌋ = (s / 64000 : Nat) := by
  rcases Nat.eq_zero_or_pos s with rfl | hs
  · rw [Nat.cast_zero, zero_div, toDouble_zero]
    rfl
  · obtain ⟨k, hk⟩ : ∃ k, k = s / 64000 := ⟨_, rfl⟩
    have hbelow : k * 64000 ≤ s := by omega
    have habove : s + 1 ≤ (k + 1) * 64000 := by omega
    have hbelow' : (k : ℚ) * 64000 ≤ s := by exact_mod_cast hbelow
    have habove' : (s : ℚ) + 1 ≤ (k + 1) * 64000 := by exact_mod_cast habove
    have hpos : (0 : ℚ) < s / 64000 := div_pos (Nat.cast_pos.mpr hs) (by norm_num)
    -- the quotient is at least 1/64000 away from the next whole number, and so 2^-16
    have hnext : (s : ℚ) / 64000 ≤ (((k : ℤ) + 1) * 2 ^ 16 - 1 : ℤ) * 2 ^ (-16 : ℤ) := by
      rw [div_le_iff₀ (by norm_num)]
      push_cast
      rw [zpow_neg]
      norm_num
      linarith
    have hlow := le_toDouble hpos (isDouble_natCast (by omega : k < 2 ^ 53)) ((le_div_iff₀ (by norm_num)).mpr hbelow')
    have hhigh := toDouble_le hpos ⟨_, -16, by rw [abs_of_nonneg (by omega)]; omega, by decide, rfl⟩ hnext
    rw [← hk]
    refine Int.floor_eq_iff.mpr ⟨by exact_mod_cast hlow, hhigh.trans_lt ?_⟩
    push_cast
    rw [zpow_neg]
    norm_num
    linarith

theorem numberText_natCast (n : Nat) : numberText n = decimal n := by
  rw [numberText, Int.floor_natCast]
  rfl

theorem complement_natCast {n : Nat} (h : n ≤ 0xffffffff) : complement n = fixedHex 8 (0xffffffff - n) := by
  have hsub : maxUint32 - n = (0xffffffff - n : Nat) := by
    rw [Nat.cast_sub h]
    rfl
  rw [complement, hsub, toDouble_natCast (by omega), Int.floor_natCast, Int.toNat_natCast]
  rfl

theorem lakeObjectKey_eq {s : Nat} (h : s < 2 ^ 32) : lakeObjectKey s = keyText (startOf s) (startOf s + 63999) s := by
  have hle : startOf s ≤ s := Nat.div_mul_le_self s 64000
  have hproduct : ((⌊toDouble (s / ledgersPerPartition)⌋ : ℤ) : ℚ) * ledgersPerPartition = startOf s := by
    rw [ledgersPerPartition, floor_toDouble_div h, startOf, Nat.cast_mul, Int.cast_natCast]
    rfl
  have hsum : (startOf s : ℚ) + ledgersPerPartition = (startOf s + 64000 : Nat) := by
    rw [Nat.cast_add]
    rfl
  have hlast : ((startOf s + 64000 : Nat) : ℚ) - 1 = (startOf s + 63999 : Nat) := by
    push_cast
    ring
  rw [lakeObjectKey, hproduct, toDouble_natCast (by omega : startOf s < 2 ^ 53)]
  simp only [hsum]
  rw [toDouble_natCast (by omega : startOf s + 64000 < 2 ^ 53), hlast, toDouble_natCast (by omega : startOf s + 63999 < 2 ^ 53),
    complement_natCast (by omega), complement_natCast (by omega), numberText_natCast, numberText_natCast, numberText_natCast]
  rfl

/-! ## The same name -/

/-- The end that a name says. -/
theorem keyText_end_injective {start sequence m n : Nat} (h : keyText start m sequence = keyText start n sequence) : m = n := by
  have hslash : ∀ k, '/' ∉ decimal k := fun k hmem => absurd (isDigit_of_mem_decimal hmem) (by decide)
  simp only [keyText, List.append_assoc] at h
  have hrest := List.append_cancel_left (List.append_cancel_left (List.append_cancel_left (List.append_cancel_left h)))
  have htake : ∀ (k : Nat) (rest : Text), (decimal k ++ ("/".toList ++ rest)).takeWhile (fun c => decide (c ≠ '/')) = decimal k := by
    intro k rest
    have hpos : ∀ c ∈ decimal k, decide (c ≠ '/') = true := fun c hc => decide_eq_true fun heq => hslash k (heq ▸ hc)
    rw [List.takeWhile_append_of_pos hpos]
    exact List.append_nil _
  refine decimal_injective ?_
  rw [← htake m, hrest, htake n]

/-- The indexer and the explorer name one object, with the bounds of the ledger's partition, when the ledger is before the last
partition of 32-bit numbers. -/
theorem objectKey_eq_lakeObjectKey_iff (sequence : BitVec 32) :
    (objectKey sequence = lakeObjectKey sequence.toNat ∧ NamesPartition (objectKey sequence) sequence.toNat) ↔
      sequence.toNat < 4294912000 := by
  have hsequence := sequence.isLt
  have hle : startOf sequence.toNat ≤ sequence.toNat := Nat.div_mul_le_self _ 64000
  rw [objectKey_eq, lakeObjectKey_eq hsequence]
  constructor
  · rintro ⟨hsame, -⟩
    have hend := keyText_end_injective hsame
    rw [startOf] at hend
    omega
  · intro hlt
    have hfits : startOf sequence.toNat + 63999 < 2 ^ 32 := by
      rw [startOf]
      omega
    rw [Nat.mod_eq_of_lt hfits]
    refine ⟨rfl, startOf sequence.toNat, _, rfl, hle, ?_, Nat.add_sub_cancel_left _ _⟩
    rw [startOf]
    omega

/-- The last partition of 32-bit numbers has two names. -/
theorem objectKey_ne_lakeObjectKey :
    ¬(objectKey 4294912000 = lakeObjectKey (4294912000 : BitVec 32).toNat ∧
      NamesPartition (objectKey 4294912000) (4294912000 : BitVec 32).toNat) := by
  rintro ⟨hsame, -⟩
  rw [objectKey_eq, lakeObjectKey_eq (by decide)] at hsame
  exact absurd (keyText_end_injective hsame) (by decide)

end Lake

end Soroscan
