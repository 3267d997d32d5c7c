import Soroscan.Extract
import Soroscan.Lib.Base64

/-!
# The bytes of contract values

The standard layout of the chain's data, as `toXdr` of the Stellar library writes it: every number in whole words of four
bytes, the high byte first; byte strings with their length before them and filled up to a word; an optional part behind a flag;
the items of a list behind their count.
-/

namespace Soroscan

/-- The four bytes of a word, the highest first. -/
def wordBytes32 (w : BitVec 32) : Bytes := (List.range 4).map fun i => UInt8.ofNat (w.toNat / 256 ^ (3 - i) % 256)

/-- The word of a length or a count. -/
def countBytes (n : Nat) : Bytes := wordBytes32 (uint32 n)

/-- A byte string behind its length, filled up to a word. -/
def opaqueBytes (b : Bytes) : Bytes := countBytes b.length ++ (b ++ List.replicate ((4 - b.length % 4) % 4) 0)

/-- The number of an error type. -/
def ScErrorType.number : ScErrorType → Nat
  | .wasmVm => 1
  | .context => 2
  | .storage => 3
  | .object => 4
  | .crypto => 5
  | .events => 6
  | .budget => 7
  | .value => 8
  | .auth => 9

/-- The number of an error code. -/
def ScErrorCode.number : ScErrorCode → Nat
  | .arithDomain => 0
  | .indexBounds => 1
  | .invalidInput => 2
  | .missingValue => 3
  | .existingValue => 4
  | .exceededLimit => 5
  | .invalidAction => 6
  | .internalError => 7
  | .unexpectedType => 8
  | .unexpectedSize => 9

def ScError.toXdr : ScError → Bytes
  | .contract code => wordBytes32 0 ++ wordBytes32 code
  | .other type code => countBytes type.number ++ countBytes code.number

def ScAddress.toXdr : ScAddress → Bytes
  | .account ed25519 => wordBytes32 0 ++ (wordBytes32 0 ++ ed25519.bytes)
  | .contract id => wordBytes32 1 ++ id.bytes
  | .muxed id ed25519 => wordBytes32 2 ++ (wordBytes id ++ ed25519.bytes)
  | .claimableBalance hash => wordBytes32 3 ++ (wordBytes32 0 ++ hash.bytes)
  | .liquidityPool id => wordBytes32 4 ++ id.bytes

def ContractExecutable.toXdr : ContractExecutable → Bytes
  | .wasm hash => wordBytes32 0 ++ hash.bytes
  | .stellarAsset => wordBytes32 1

namespace ScVal

mutual

/-- `toXdr`: the bytes of a contract value. -/
def toXdr : ScVal → Bytes
  | .bool b => wordBytes32 0 ++ wordBytes32 (if b then 1 else 0)
  | .void => wordBytes32 1
  | .error e => wordBytes32 2 ++ e.toXdr
  | .u32 v => wordBytes32 3 ++ wordBytes32 v
  | .i32 v => wordBytes32 4 ++ wordBytes32 v
  | .u64 v => wordBytes32 5 ++ wordBytes v
  | .i64 v => wordBytes32 6 ++ wordBytes v
  | .timepoint v => wordBytes32 7 ++ wordBytes v
  | .duration v => wordBytes32 8 ++ wordBytes v
  | .u128 hi lo => wordBytes32 9 ++ (wordBytes hi ++ wordBytes lo)
  | .i128 hi lo => wordBytes32 10 ++ (wordBytes hi ++ wordBytes lo)
  | .u256 hiHi hiLo loHi loLo =>
    wordBytes32 11 ++ (wordBytes hiHi ++ (wordBytes hiLo ++ (wordBytes loHi ++ wordBytes loLo)))
  | .i256 hiHi hiLo loHi loLo =>
    wordBytes32 12 ++ (wordBytes hiHi ++ (wordBytes hiLo ++ (wordBytes loHi ++ wordBytes loLo)))
  | .bytes b => wordBytes32 13 ++ opaqueBytes b
  | .string s => wordBytes32 14 ++ opaqueBytes s
  | .symbol s => wordBytes32 15 ++ opaqueBytes s
  | .vec none => wordBytes32 16 ++ wordBytes32 0
  | .vec (some items) => wordBytes32 16 ++ (wordBytes32 1 ++ (countBytes items.length ++ itemsToXdr items))
  | .map none => wordBytes32 17 ++ wordBytes32 0
  | .map (some entries) => wordBytes32 17 ++ (wordBytes32 1 ++ (countBytes entries.length ++ entriesToXdr entries))
  | .address a => wordBytes32 18 ++ a.toXdr
  | .contractInstance executable none => wordBytes32 19 ++ (executable.toXdr ++ wordBytes32 0)
  | .contractInstance executable (some storage) =>
    wordBytes32 19 ++ (executable.toXdr ++ (wordBytes32 1 ++ (countBytes storage.length ++ entriesToXdr storage)))
  | .ledgerKeyContractInstance => wordBytes32 20
  | .ledgerKeyNonce nonce => wordBytes32 21 ++ wordBytes nonce

def itemsToXdr : List ScVal → Bytes
  | [] => []
  | v :: vs => toXdr v ++ itemsToXdr vs

def entriesToXdr : List (ScVal × ScVal) → Bytes
  | [] => []
  | (k, v) :: es => (toXdr k ++ toXdr v) ++ entriesToXdr es

end

/-- `scValB64`: the base-64 text of a contract value. -/
def b64 (v : ScVal) : Text := Base64.encode v.toXdr

/-- The values that stand directly inside a value. -/
def parts : ScVal → List ScVal
  | .vec (some items) => items
  | .map (some entries) => entries.flatMap fun e => [e.1, e.2]
  | .contractInstance _ (some storage) => storage.flatMap fun e => [e.1, e.2]
  | _ => []

/-- `w` stands in `v`, with `depth` vectors, maps and contract instances around it. -/
inductive Inside : Nat → ScVal → ScVal → Prop
  | self (v : ScVal) : Inside 0 v v
  | part {depth : Nat} {v part w : ScVal} (hpart : part ∈ v.parts) (h : Inside depth part w) : Inside (depth + 1) v w

/-- The lengths and counts of a value itself fit the word before them. -/
def fitsWords : ScVal → Bool
  | .bytes b => decide (b.length < 2 ^ 32)
  | .string s => decide (s.length < 2 ^ 32)
  | .symbol s => decide (s.length < 2 ^ 32)
  | .vec (some items) => decide (items.length < 2 ^ 32)
  | .map (some entries) => decide (entries.length < 2 ^ 32)
  | .contractInstance _ (some storage) => decide (storage.length < 2 ^ 32)
  | _ => true

/-- A value that has bytes: every length in it fits. -/
def Sized (v : ScVal) : Prop := ∀ depth w, Inside depth v w → w.fitsWords = true

/-- A test of a value and of all its parts, when so many levels may be opened. -/
def everyPart (p : ScVal → Bool) : Nat → ScVal → Bool
  | 0, _ => false
  | levels + 1, v => p v && v.parts.all (everyPart p levels)

/-- The test succeeds when no part is further down, and every part passes. -/
theorem everyPart_iff {p : ScVal → Bool} {levels : Nat} {v : ScVal} :
    everyPart p (levels + 1) v = true ↔ ∀ depth w, Inside depth v w → depth ≤ levels ∧ p w = true := by
  induction levels generalizing v with
  | zero =>
    rw [everyPart, Bool.and_eq_true, List.all_eq_true]
    constructor
    · rintro ⟨hv, hparts⟩ depth w h
      cases h with
      | self => exact ⟨le_rfl, hv⟩
      | part hpart h => exact absurd (hparts _ hpart) Bool.false_ne_true
    · intro h
      refine ⟨(h 0 v (.self v)).2, fun part hpart => ?_⟩
      exact absurd (h 1 part (.part hpart (.self part))).1 (by decide)
  | succ levels ih =>
    rw [everyPart, Bool.and_eq_true, List.all_eq_true]
    constructor
    · rintro ⟨hv, hparts⟩ depth w h
      cases h with
      | self => exact ⟨Nat.zero_le _, hv⟩
      | part hpart h =>
        obtain ⟨hle, hw⟩ := ih.mp (hparts _ hpart) _ _ h
        exact ⟨Nat.succ_le_succ hle, hw⟩
    · intro h
      refine ⟨(h 0 v (.self v)).2, fun part hpart => ih.mpr fun depth w hw => ?_⟩
      obtain ⟨hle, hp⟩ := h (depth + 1) w (.part hpart hw)
      exact ⟨Nat.le_of_succ_le_succ hle, hp⟩

/-- A value whose parts are not too deep has bytes when all of them pass. -/
theorem sized_of_everyPart {levels : Nat} {v : ScVal} (h : everyPart fitsWords (levels + 1) v = true) : v.Sized :=
  fun depth w hw => (everyPart_iff.mp h depth w hw).2

end ScVal

/-- The number of a durability. -/
def Durability.number : Durability → Nat
  | .temporary => 0
  | .persistent => 1

/-- `toXdr` of the ledger key of contract data. -/
def contractDataKey (contract : ScAddress) (key : ScVal) (durability : Durability) : Bytes :=
  wordBytes32 6 ++ (contract.toXdr ++ (key.toXdr ++ countBytes durability.number))

/-- `toXdr` of the ledger key of contract code. -/
def contractCodeKey (hash : Bytes32) : Bytes := wordBytes32 7 ++ hash.bytes

end Soroscan
