import Soroscan.Extract
import Soroscan.Lib.Base64
import Soroscan.Lib.Reader
import Soroscan.Lib.Utf16

/-!
# Decoding contract values for display

`scval.ts`: the explorer's own reader of contract values. Every number is shown as decimal text; what is malformed, cut short or
of an unknown type is not shown at all. The encoders of the Stellar library (`StrKey`) are `encodeStrkey` under their version
bytes.
-/

namespace Soroscan

/-- The type a shown text is labelled with. -/
inductive TextType where
  | bool | void | err | u32 | i32 | u64 | i64 | time | dur | u128 | i128 | u256 | i256 | bytes | str | sym | nonce
  deriving DecidableEq, Repr

/-- The type of a value that is only named. -/
inductive OpaqueType where
  | contractInstance | ledgerKey
  deriving DecidableEq, Repr

/-- `ScDisplay`: the display form of a contract value. -/
inductive ScDisplay where
  | text (type : TextType) (text : JsString)
  | address (address : JsString)
  | vec (items : List ScDisplay)
  | map (entries : List (ScDisplay × ScDisplay))
  | named (type : OpaqueType)
  deriving Repr

/-- `MAX_DEPTH`: deeper than any real call, it bounds hostile recursion. -/
def maxDepth : Nat := 8

/-- `MAX_TEXT_CHARS`: a display cap. -/
def maxTextChars : Nat := 120

/-- `MAX_HEX_BYTES`: full hashes are shown whole. -/
def maxHexBytes : Nat := 32

/-- `TWO_64`. -/
def two64 : Int := 2 ^ 64

/-- `ERROR_TYPES`. -/
def errorTypes : List Text :=
  [['c', 'o', 'n', 't', 'r', 'a', 'c', 't'], ['w', 'a', 's', 'm', ' ', 'v', 'm'], ['c', 'o', 'n', 't', 'e', 'x', 't'],
    ['s', 't', 'o', 'r', 'a', 'g', 'e'], ['o', 'b', 'j', 'e', 'c', 't'], ['c', 'r', 'y', 'p', 't', 'o'],
    ['e', 'v', 'e', 'n', 't', 's'], ['b', 'u', 'd', 'g', 'e', 't'], ['v', 'a', 'l', 'u', 'e'], ['a', 'u', 't', 'h']]

/-! ## The reader -/

namespace ScReader

/-- Programs over the bytes of a value; an error is the text of its `RangeError`. -/
abbrev Read (α : Type) : Type := ReadM String α

def fixed (count : Nat) : Read Bytes := Reader.fixed "truncated scval" count

def u32 : Read (BitVec 32) := do
  match ← fixed 4 with
  | [a, b, c, d] => return a.toBitVec ++ b.toBitVec ++ c.toBitVec ++ d.toBitVec
  | _ => return 0

def i32 : Read Int := do
  return (← u32).toInt

def u64 : Read Nat := do
  return (← fixed 8).foldl (fun value byte => value <<< 8 ||| byte.toNat) 0

def i64 : Read Int := do
  let value ← u64
  return if 2 ^ 63 ≤ value then value - two64 else value

/-- `opaque`: a byte string behind its length, and the padding to a word. -/
def opaqueData : Read Bytes := do
  let length := (← u32).toNat
  if (← Reader.left) < length then throw "truncated scval"
  let data ← fixed length
  let _ ← fixed ((4 - length % 4) % 4)
  return data

/-! ## Values -/

/-- `text`. -/
def text (type : TextType) (value : Text) : ScDisplay := .text type (js value)

/-- `formatBytes`: long blobs keep both ends. -/
def formatBytes (data : Bytes) : Text :=
  let half := maxHexBytes / 2
  if data.length ≤ maxHexBytes then ['0', 'x'] ++ hexText data
  else ['0', 'x'] ++ hexText (data.take half) ++ ['.', '.', '.'] ++ hexText (data.drop (data.length - half))

/-- `formatString`: at most 120 code units, and an ellipsis for the others. -/
def formatString (data : Bytes) : JsString :=
  let value := textDecode data
  if maxTextChars < value.length then value.take maxTextChars ++ js ['.', '.', '.'] else value

/-- A byte of the pattern of symbols. -/
def isSymbolByte (b : UInt8) : Bool :=
  (0x41 ≤ b && b ≤ 0x5A) || (0x61 ≤ b && b ≤ 0x7A) || (0x30 ≤ b && b ≤ 0x39) || b = 0x5F

/-- The symbols that are accepted: at most 32 letters, digits and underscores. -/
def validSymbol (s : Bytes) : Bool := decide (s.length ≤ 32) && s.all isSymbolByte

/-- `String.fromCharCode` of bytes. -/
def fromCharCode (data : Bytes) : JsString := data.map UInt8.toUInt16

def readSymbol : Read JsString := do
  let data ← opaqueData
  if !validSymbol data then throw "malformed symbol"
  return fromCharCode data

def readError : Read ScDisplay := do
  let errorType ← u32
  let code ← u32
  if errorType = 0 then
    return text .err (['c', 'o', 'n', 't', 'r', 'a', 'c', 't', ' ', 'e', 'r', 'r', 'o', 'r', ' ', '#'] ++ decimal code.toNat)
  return text .err
    (errorTypes.getD errorType.toNat ['u', 'n', 'k', 'n', 'o', 'w', 'n'] ++ [' ', 'e', 'r', 'r', 'o', 'r'])

/-- `addressOf` of the strkey of a payload. -/
def addressOf (version : UInt8) (payload : Bytes) : ScDisplay := .address (js (encodeStrkey version payload))

def readAddress : Read ScDisplay := do
  match (← u32).toNat with
  | 0 =>
    if (← u32) ≠ 0 then throw "unknown public key type"
    return addressOf strkeyVersionAccount (← fixed 32)
  | 1 => return addressOf strkeyVersionContract (← fixed 32)
  | 2 =>
    let id ← fixed 8
    let ed25519 ← fixed 32
    -- the strkey wants the mux id after the key
    return addressOf strkeyVersionMuxed (ed25519 ++ id)
  | 3 =>
    if (← u32) ≠ 0 then throw "unknown claimable balance id type"
    return addressOf strkeyVersionClaimableBalance (0 :: (← fixed 32))
  | 4 => return addressOf strkeyVersionLiquidityPool (← fixed 32)
  | _ => throw "unknown address kind"

/-- `readCount`: every item takes a word at least, so a count past the words that are left is a lie. -/
def readCount : Read Nat := do
  let count := (← u32).toNat
  if (← Reader.left) < 4 * count then throw "scval count exceeds payload"
  return count

def readPresence : Read Bool := do
  let flag := (← u32).toNat
  if 1 < flag then throw "malformed optional flag"
  return flag = 1

section

variable (readItem : Read ScDisplay)

def readVecItems : Read (List ScDisplay) := do
  Reader.many readItem (← readCount)

def readMapEntries : Read (List (ScDisplay × ScDisplay)) := do
  let readEntry : Read (ScDisplay × ScDisplay) := do
    let key ← readItem
    let value ← readItem
    return (key, value)
  Reader.many readEntry (← readCount)

/-- The arms of `readScVal`: the value of a type, its items read by `readItem`. -/
def readArm : Nat → Read ScDisplay
  | 0 => return text .bool (if (← u32) = 0 then ['f', 'a', 'l', 's', 'e'] else ['t', 'r', 'u', 'e'])
  | 1 => return text .void ['v', 'o', 'i', 'd']
  | 2 => readError
  | 3 => return text .u32 (decimal (← u32).toNat)
  | 4 => return text .i32 (intDecimal (← i32))
  | 5 => return text .u64 (decimal (← u64))
  | 6 => return text .i64 (intDecimal (← i64))
  | 7 => return text .time (decimal (← u64))
  | 8 => return text .dur (decimal (← u64))
  | 9 => do
    let hi ← u64
    let lo ← u64
    return text .u128 (intDecimal (hi * two64 + lo))
  | 10 => do
    let hi ← i64
    let lo ← u64
    return text .i128 (intDecimal (hi * two64 + lo))
  | 11 => do
    let hiHi ← u64
    let hiLo ← u64
    let loHi ← u64
    let loLo ← u64
    return text .u256 (intDecimal (((hiHi * two64 + hiLo) * two64 + loHi) * two64 + loLo))
  | 12 => do
    let hiHi ← i64
    let hiLo ← u64
    let loHi ← u64
    let loLo ← u64
    return text .i256 (intDecimal (((hiHi * two64 + hiLo) * two64 + loHi) * two64 + loLo))
  | 13 => return text .bytes (formatBytes (← opaqueData))
  | 14 => return .text .str (formatString (← opaqueData))
  | 15 => return .text .sym (← readSymbol)
  | 16 => do
    if ← readPresence then return .vec (← readVecItems readItem)
    return .vec []
  | 17 => do
    if ← readPresence then return .map (← readMapEntries readItem)
    return .map []
  | 18 => readAddress
  | 19 => do
    if (← u32) = 0 then
      let _ ← fixed 32
    if ← readPresence then
      let _ ← readMapEntries readItem
    return .named .contractInstance
  | 20 => return .named .ledgerKey
  | 21 => return text .nonce (intDecimal (← i64))
  | _ => throw "unknown scval type"

end

/-- `readScVal`. The parameter counts down what the depth counts up: it is how many levels may still be opened, this one
included. -/
def readScVal : Nat → Read ScDisplay
  | 0 => throw "scval too deep"
  | levels + 1 => do
    readArm (readScVal levels) (← u32).toNat

end ScReader

/-! ## The decoders -/

/-- `bytesOf`. -/
def bytesOf (base64 : Text) : Option Bytes := Base64.atob base64

/-- `decodeScVal`: the display form of a value, or nothing if the text is not one. -/
def decodeScVal (base64 : Text) : Option ScDisplay :=
  (bytesOf base64).bind fun bytes => (ScReader.readScVal (maxDepth + 1) (Reader.start bytes)).toOption.map Prod.fst

/-- `decodeScAddress`: the strkey of an address. -/
def decodeScAddress (base64 : Text) : Option JsString :=
  match decodeScVal base64 with
  | some (.address address) => some address
  | _ => none

/-- `decodeScSymbol`: the text of a symbol that is not empty. -/
def decodeScSymbol (base64 : Text) : Option JsString :=
  match decodeScVal base64 with
  | some (.text .sym text) => if text = [] then none else some text
  | _ => none

end Soroscan
