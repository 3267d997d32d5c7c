import Soroscan.Theorems.LakeKeys

/-!
# Listings run newest first

The archive lists its objects by name, byte by byte. A name begins with the complement of the partition's first ledger, and behind the
bounds of the partition stands the complement of the ledger, both of one width: the names of later ledgers come first. The numbers
between the two never decide, as they follow from the first complement.
-/

namespace Soroscan

namespace Lake

/-- Of two names of one partition, the later ledger comes first. -/
theorem keyText_lt_of_lt {start partitionEnd s t : Nat} (ht : t < 2 ^ 32) (h : s < t) :
    utf8Bytes (keyText start partitionEnd t) < utf8Bytes (keyText start partitionEnd s) := by
  have hhex : utf8Bytes (fixedHex 8 (0xffffffff - t)) < utf8Bytes (fixedHex 8 (0xffffffff - s)) :=
    (utf8Bytes_fixedHex_lt (by decide) (by omega) (by omega)).mpr (by omega)
  have hlength : (utf8Bytes (fixedHex 8 (0xffffffff - t))).length = (utf8Bytes (fixedHex 8 (0xffffffff - s))).length := by
    rw [(utf8Bytes_fixedHex (by decide) (by omega)).2.2, (utf8Bytes_fixedHex (by decide) (by omega)).2.2]
  simp only [keyText, List.append_assoc, utf8Bytes_append]
  repeat refine List.append_left_lt ?_
  exact Positional.append_lt_append _ _ hlength hhex

/-- Of two names of different partitions, the later partition comes first. -/
theorem keyText_lt_of_start_lt {start start' : Nat} (partitionEnd partitionEnd' s t : Nat) (hstart : start' < 2 ^ 32)
    (h : start < start') : utf8Bytes (keyText start' partitionEnd' t) < utf8Bytes (keyText start partitionEnd s) := by
  have hhex : utf8Bytes (fixedHex 8 (0xffffffff - start')) < utf8Bytes (fixedHex 8 (0xffffffff - start)) :=
    (utf8Bytes_fixedHex_lt (by decide) (by omega) (by omega)).mpr (by omega)
  have hlength : (utf8Bytes (fixedHex 8 (0xffffffff - start'))).length = (utf8Bytes (fixedHex 8 (0xffffffff - start))).length := by
    rw [(utf8Bytes_fixedHex (by decide) (by omega)).2.2, (utf8Bytes_fixedHex (by decide) (by omega)).2.2]
  simp only [keyText, List.append_assoc, utf8Bytes_append]
  exact Positional.append_lt_append _ _ hlength hhex

theorem objectKey_lt {s t : BitVec 32} (h : s < t) : utf8Bytes (objectKey t) < utf8Bytes (objectKey s) := by
  have hlt : s.toNat < t.toNat := h
  have hstart : startOf s.toNat ≤ startOf t.toNat := Nat.mul_le_mul_right _ (Nat.div_le_div_right hlt.le)
  have hbound : startOf t.toNat ≤ t.toNat := Nat.div_mul_le_self _ 64000
  rw [objectKey_eq, objectKey_eq]
  rcases hstart.lt_or_eq with hstart | hstart
  · exact keyText_lt_of_start_lt _ _ _ _ (hbound.trans_lt t.isLt) hstart
  · -- in one partition the bounds are the same, also when the end has wrapped
    rw [hstart]
    exact keyText_lt_of_lt t.isLt hlt

/-- The names of later ledgers come first, byte by byte, and no two ledgers share one. -/
theorem objectKey_newestFirst :
    (∀ s t : BitVec 32, s < t → utf8Bytes (objectKey t) < utf8Bytes (objectKey s)) ∧ Function.Injective objectKey := by
  refine ⟨fun s t => objectKey_lt, fun s t h => ?_⟩
  have hirrefl : ∀ bs : Bytes, ¬bs < bs := fun bs => List.lt_irrefl bs
  rcases Nat.lt_trichotomy s.toNat t.toNat with hlt | heq | hgt
  · have hless : utf8Bytes (objectKey t) < utf8Bytes (objectKey s) := objectKey_lt hlt
    rw [h] at hless
    exact absurd hless (hirrefl _)
  · exact BitVec.eq_of_toNat_eq heq
  · have hless : utf8Bytes (objectKey s) < utf8Bytes (objectKey t) := objectKey_lt hgt
    rw [h] at hless
    exact absurd hless (hirrefl _)

example : String.ofList (objectKey 64146320) = "FC2D7BFF--64128000-64191999/FC2D346F--64146320.xdr.zst" := by decide

end Lake

end Soroscan
