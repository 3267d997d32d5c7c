import Soroscan.ScDisplay
import Soroscan.Lib.LoggedReader

/-!
# The decoder of contract values, with a log

`scval.ts` once more, function by function, as programs that log every read and every call of `readScVal`. A call that throws stays
in the log, and so do the calls around it.
-/

namespace Soroscan

namespace ScReader

/-- Programs over the bytes of a value, with a log. -/
abbrev LoggedRead (α : Type) : Type := LoggedM String α

namespace Logged

open LoggedM (fail call)

def fixed (count : Nat) : LoggedRead Bytes := LoggedM.fixed "truncated scval" count

def u32 : LoggedRead (BitVec 32) := do
  match ← fixed 4 with
  | [a, b, c, d] => return a.toBitVec ++ b.toBitVec ++ c.toBitVec ++ d.toBitVec
  | _ => return 0

def i32 : LoggedRead Int := do
  return (← u32).toInt

def u64 : LoggedRead Nat := do
  return (← fixed 8).foldl (fun value byte => value <<< 8 ||| byte.toNat) 0

def i64 : LoggedRead Int := do
  let value ← u64
  return if 2 ^ 63 ≤ value then value - two64 else value

def opaqueData : LoggedRead Bytes := do
  let length := (← u32).toNat
  if (← LoggedM.left) < length then fail "truncated scval"
  let data ← fixed length
  let _ ← fixed ((4 - length % 4) % 4)
  return data

def readSymbol : LoggedRead JsString := do
  let data ← opaqueData
  if !validSymbol data then fail "malformed symbol"
  return fromCharCode data

def readError : LoggedRead ScDisplay := do
  let errorType ← u32
  let code ← u32
  if errorType = 0 then
    return text .err (['c', 'o', 'n', 't', 'r', 'a', 'c', 't', ' ', 'e', 'r', 'r', 'o', 'r', ' ', '#'] ++ decimal code.toNat)
  return text .err
    (errorTypes.getD errorType.toNat ['u', 'n', 'k', 'n', 'o', 'w', 'n'] ++ [' ', 'e', 'r', 'r', 'o', 'r'])

def readAddress : LoggedRead ScDisplay := do
  match (← u32).toNat with
  | 0 =>
    if (← u32) ≠ 0 then fail "unknown public key type"
    return addressOf strkeyVersionAccount (← fixed 32)
  | 1 => return addressOf strkeyVersionContract (← fixed 32)
  | 2 =>
    let id ← fixed 8
    let ed25519 ← fixed 32
    return addressOf strkeyVersionMuxed (ed25519 ++ id)
  | 3 =>
    if (← u32) ≠ 0 then fail "unknown claimable balance id type"
    return addressOf strkeyVersionClaimableBalance (0 :: (← fixed 32))
  | 4 => return addressOf strkeyVersionLiquidityPool (← fixed 32)
  | _ => fail "unknown address kind"

def readCount : LoggedRead Nat := do
  let count := (← u32).toNat
  if (← LoggedM.left) < 4 * count then fail "scval count exceeds payload"
  return count

def readPresence : LoggedRead Bool := do
  let flag := (← u32).toNat
  if 1 < flag then fail "malformed optional flag"
  return flag = 1

section

variable (readItem : LoggedRead ScDisplay)

def readVecItems : LoggedRead (List ScDisplay) := do
  LoggedM.many readItem (← readCount)

def readMapEntries : LoggedRead (List (ScDisplay × ScDisplay)) := do
  let readEntry : LoggedRead (ScDisplay × ScDisplay) := do
    let key ← readItem
    let value ← readItem
    return (key, value)
  LoggedM.many readEntry (← readCount)

def readArm : Nat → LoggedRead ScDisplay
  | 0 => return text .bool (if (← u32) = 0 then ['f', 'a', 'l', 's', 'e'] else ['t', 'r', 'u', 'e'])
  | 1 => return text .void ['v', 'o', 'i', 'd']
  | 2 => readError
  | 3 => return text .u32 (decimal (← u32).toNat)
  | 4 => return text .i32 (intDecimal (← i32))
  | 5 => return text .u64 (decimal (← u64))
  | 6 => return text .i64 (intDecimal (← i64))
  | 7 => return text .time (decimal (← u64))
  | 8 => return text .dur (decimal (← u64))
  | 9 => do
    let hi ← u64
    let lo ← u64
    return text .u128 (intDecimal (hi * two64 + lo))
  | 10 => do
    let hi ← i64
    let lo ← u64
    return text .i128 (intDecimal (hi * two64 + lo))
  | 11 => do
    let hiHi ← u64
    let hiLo ← u64
    let loHi ← u64
    let loLo ← u64
    return text .u256 (intDecimal (((hiHi * two64 + hiLo) * two64 + loHi) * two64 + loLo))
  | 12 => do
    let hiHi ← i64
    let hiLo ← u64
    let loHi ← u64
    let loLo ← u64
    return text .i256 (intDecimal (((hiHi * two64 + hiLo) * two64 + loHi) * two64 + loLo))
  | 13 => return text .bytes (formatBytes (← opaqueData))
  | 14 => return .text .str (formatString (← opaqueData))
  | 15 => return .text .sym (← readSymbol)
  | 16 => do
    if ← readPresence then return .vec (← readVecItems readItem)
    return .vec []
  | 17 => do
    if ← readPresence then return .map (← readMapEntries readItem)
    return .map []
  | 18 => readAddress
  | 19 => do
    if (← u32) = 0 then
      let _ ← fixed 32
    if ← readPresence then
      let _ ← readMapEntries readItem
    return .named .contractInstance
  | 20 => return .named .ledgerKey
  | 21 => return text .nonce (intDecimal (← i64))
  | _ => fail "unknown scval type"

end

/-- Every use of this function is a call. -/
def readScVal : Nat → LoggedRead ScDisplay
  | 0 => call (fail "scval too deep")
  | levels + 1 => call do
    readArm (readScVal levels) (← u32).toNat

end Logged

/-- The run of the decoder on a payload: its log, and the value or the error. -/
def decodeRun (payload : Bytes) : ReadLog × Except String (ScDisplay × Reader) :=
  Logged.readScVal (maxDepth + 1) (Reader.start payload)

end ScReader

/-! ## Display trees -/

namespace ScDisplay

mutual

/-- The nodes of a display tree, each as the number of containers above it, below so many others. -/
def depths (above : Nat) : ScDisplay → List Nat
  | .text _ _ => [above]
  | .address _ => [above]
  | .vec items => above :: itemDepths (above + 1) items
  | .map entries => above :: entryDepths (above + 1) entries
  | .named _ => [above]

def itemDepths (above : Nat) : List ScDisplay → List Nat
  | [] => []
  | v :: vs => depths above v ++ itemDepths above vs

def entryDepths (above : Nat) : List (ScDisplay × ScDisplay) → List Nat
  | [] => []
  | (k, v) :: es => depths above k ++ depths above v ++ entryDepths above es

end

theorem itemDepths_eq (above : Nat) (vs : List ScDisplay) : itemDepths above vs = vs.flatMap (depths above) := by
  induction vs with
  | nil => rfl
  | cons v vs ih => rw [itemDepths, ih, List.flatMap_cons]

theorem entryDepths_eq (above : Nat) (es : List (ScDisplay × ScDisplay)) :
    entryDepths above es = es.flatMap fun e => depths above e.1 ++ depths above e.2 := by
  induction es with
  | nil => rfl
  | cons e es ih => rw [entryDepths, ih, List.flatMap_cons]

end ScDisplay

end Soroscan
