import Soroscan.Basic
import Soroscan.Lib.Double
import Soroscan.Lib.FixedWidth

/-!
# Objects of the ledger archive

The archive has one object for each ledger, in partitions of 64000 of them. The indexer names an object in `lake.go` with 32-bit
numbers, the explorer in `ledger-lake.ts` with numbers of double precision.
-/

namespace Soroscan

namespace Lake

/-! ## The indexer -/

def partitionSize : BitVec 32 := 64000

/-- `ObjectKey`. -/
def objectKey (sequence : BitVec 32) : Text :=
  let start := sequence / partitionSize * partitionSize
  let partitionEnd := start + partitionSize - 1
  fixedHex 8 (~~~start).toNat ++ "--".toList ++ decimal start.toNat ++ "-".toList ++ decimal partitionEnd.toNat ++ "/".toList ++
    fixedHex 8 (~~~sequence).toNat ++ "--".toList ++ decimal sequence.toNat ++ ".xdr.zst".toList

/-! ## The explorer -/

/-- `LEDGERS_PER_PARTITION`. -/
def ledgersPerPartition : ℚ := 64000

/-- `MAX_UINT32`. -/
def maxUint32 : ℚ := 0xffffffff

/-- The text of a whole number, as a template shows it below 10^21. -/
def numberText (x : ℚ) : Text := intDecimal ⌊x⌋

/-- `complement`. -/
def complement (sequence : ℚ) : Text := padZeros 8 (upperHex ⌊toDouble (maxUint32 - sequence)⌋.toNat)

/-- `lakeObjectKey`. -/
def lakeObjectKey (sequence : ℚ) : Text :=
  let start := toDouble (⌊toDouble (sequence / ledgersPerPartition)⌋ * ledgersPerPartition)
  let partitionEnd := toDouble (toDouble (start + ledgersPerPartition) - 1)
  complement start ++ "--".toList ++ numberText start ++ "-".toList ++ numberText partitionEnd ++ "/".toList ++
    complement sequence ++ "--".toList ++ numberText sequence ++ ".xdr.zst".toList

end Lake

end Soroscan
