import Soroscan.Lib.Json
import Soroscan.Strkey
import Soroscan.Xdr

/-!
# Extract

`extract.go`: the contract invocations of one ledger's close meta, with their arguments as JSON text. The text is printed here
piece by piece, as the program prints it; what value it stands for is in `Lemmas.ArgsText`.

`scValString` is the text the XDR library gives a value that has no natural JSON shape (`val.String()`).
-/

namespace Soroscan

/-- `Invocation`: one top-level contract call. The function name is raw bytes, the arguments are JSON text. -/
structure Invocation where
  contractID : Text
  txHash : Bytes32
  ledger : BitVec 32
  closedAt : Time
  function : Bytes
  argsJSON : Text
  feeCharged : Int
  deriving DecidableEq, Repr

/-- `LedgerResult`: everything the indexer keeps from one closed ledger. -/
structure LedgerResult where
  sequence : BitVec 32
  closedAt : Time
  txCount : Nat
  invocations : List Invocation
  deriving Repr

/-! ## Printing the arguments -/

/-- `bigFromUnsigned`: the number of 64-bit words, the highest first. -/
def bigFromUnsigned (parts : List (BitVec 64)) : Int :=
  parts.foldl (fun result part => result * 2 ^ 64 + part.toNat) 0

/-- `bigFromSigned`: the number of a signed high word and the words below it. -/
def bigFromSigned (hi : BitVec 64) (rest : List (BitVec 64)) : Int :=
  rest.foldl (fun result part => result * 2 ^ 64 + part.toNat) hi.toInt

/-- The eight bytes of a word, the highest first. -/
def wordBytes (w : BitVec 64) : Bytes := (List.range 8).map fun i => UInt8.ofNat (w.toNat / 256 ^ (7 - i) % 256)

/-- `addressString`: the strkey of an address. A muxed account carries its id after the key, a claimable balance its kind
before the hash. -/
def addressString : ScAddress → Text
  | .account ed25519 => encodeStrkey strkeyVersionAccount ed25519.bytes
  | .contract id => contractStrkey id
  | .muxed id ed25519 => encodeStrkey strkeyVersionMuxed (ed25519.bytes ++ wordBytes id)
  | .claimableBalance hash => encodeStrkey strkeyVersionClaimableBalance (0 :: hash.bytes)
  | .liquidityPool id => encodeStrkey strkeyVersionLiquidityPool id.bytes

/-- `writeString` of bytes: a byte that is no character is written as the replacement character. -/
def writeString (s : Bytes) : Text := Json.quoteRunes (decodeRunes s)

/-- `writeUint64`: a number past the greatest `int64` is written as a string. -/
def writeUint64 (v : BitVec 64) : Text :=
  if 2 ^ 63 - 1 < v.toNat then Json.quote (decimal v.toNat) else decimal v.toNat

/-- `writeMapKey`: a key that is no string keeps its JSON text form, quoted. -/
def writeMapKey (raw : Text) : Text := if raw.head? = some '"' then raw else Json.quote raw

section Write

variable (scValString : ScVal → Bytes)

mutual

/-- `writeVal`: the JSON text of a contract value. -/
def writeVal : ScVal → Text
  | .bool b => Json.marshal (.bool b)
  | .void => ['n', 'u', 'l', 'l']
  | .u32 v => decimal v.toNat
  | .i32 v => intDecimal v.toInt
  | .u64 v => writeUint64 v
  | .i64 v => intDecimal v.toInt
  | .timepoint v => writeUint64 v
  | .duration v => writeUint64 v
  | .u128 hi lo => Json.quote (intDecimal (bigFromUnsigned [hi, lo]))
  | .i128 hi lo => Json.quote (intDecimal (bigFromSigned hi [lo]))
  | .u256 hiHi hiLo loHi loLo => Json.quote (intDecimal (bigFromUnsigned [hiHi, hiLo, loHi, loLo]))
  | .i256 hiHi hiLo loHi loLo => Json.quote (intDecimal (bigFromSigned hiHi [hiLo, loHi, loLo]))
  | .bytes b => Json.quote (hexText b)
  | .string s => writeString s
  | .symbol s => writeString s
  | .address a => Json.quote (addressString a)
  | .vec none => ['[', ']']
  | .vec (some vals) => writeVals vals
  | .map none => ['{', '}']
  | .map (some entries) => writeMap entries
  | .error e => writeString (scValString (.error e))
  | .contractInstance executable storage => writeString (scValString (.contractInstance executable storage))
  | .ledgerKeyContractInstance => writeString (scValString .ledgerKeyContractInstance)
  | .ledgerKeyNonce nonce => writeString (scValString (.ledgerKeyNonce nonce))

/-- `writeVals`: the JSON text of a list of values. -/
def writeVals : List ScVal → Text
  | [] => ['[', ']']
  | v :: vs => '[' :: (writeVal v ++ writeValsRest vs)

/-- The rounds of `writeVals` after the first one. -/
def writeValsRest : List ScVal → Text
  | [] => [']']
  | v :: vs => ',' :: (writeVal v ++ writeValsRest vs)

/-- `writeMap`: the JSON text of a map, its entries in their order. -/
def writeMap : List (ScVal × ScVal) → Text
  | [] => ['{', '}']
  | (k, v) :: es => '{' :: (writeMapKey (writeVal k) ++ ':' :: (writeVal v ++ writeMapRest es))

/-- The rounds of `writeMap` after the first one. -/
def writeMapRest : List (ScVal × ScVal) → Text
  | [] => ['}']
  | (k, v) :: es => ',' :: (writeMapKey (writeVal k) ++ ':' :: (writeVal v ++ writeMapRest es))

end

/-- `encodeArgs`: the arguments as a JSON array. A single argument arrives unwrapped. -/
def encodeArgs : ScVal → Text
  | .vec (some vals) => writeVals scValString vals
  | data => '[' :: (writeVal scValString data ++ [']'])

/-! ## Finding the invocation -/

/-- `diagnosticEvents`: the diagnostic events of a meta that has a Soroban part. Version 4 moved them off that part. -/
def diagnosticEvents : TransactionMeta → Option (List ContractEvent)
  | .v3 _ _ _ (some sorobanMeta) => some sorobanMeta.diagnosticEvents
  | .v4 _ _ _ (some _) _ diagnosticEvents => some diagnosticEvents
  | _ => none

/-- The symbol `fn_call`. -/
def fnCallSymbol : Bytes := [102, 110, 95, 99, 97, 108, 108]

/-- `fnCall`: the contract, the function and the arguments of an event that reports a contract call. -/
def fnCall (ev : ContractEvent) : Option (Text × Bytes × ScVal) :=
  match ev.body with
  | .v0 [.symbol label, .bytes rawID, .symbol name] data =>
    if label ≠ fnCallSymbol then none
    else if h : rawID.length = 32 then some (contractStrkey ⟨rawID, h⟩, name, data)
    else none
  | _ => none

/-- `appendInvocation`: the invocation of one transaction. Only the first `fn_call` counts, the later ones are nested. -/
def invocationOf (sequence : BitVec 32) (closedAt : Time) (tx : TransactionResultMeta) : Option Invocation :=
  (diagnosticEvents tx.txApplyProcessing).bind fun events =>
    (events.findSome? fnCall).map fun (contractID, function, args) =>
      { contractID, txHash := tx.result.transactionHash, ledger := sequence, closedAt, function,
        argsJSON := encodeArgs scValString args, feeCharged := tx.result.feeCharged.toInt }

/-- The seconds from the zero value of the clock to the start of the Unix epoch. -/
def unixToInternal : Int := 62135596800

/-- `time.Unix` of a close time, read as a signed number of seconds. -/
def closeTimeOf (header : LedgerHeader) : Time := (header.closeTime.toInt + unixToInternal) * 1000000

/-- The result of a ledger whose transactions are looked at. -/
def extractTransactions (header : LedgerHeader) (txs : List TransactionResultMeta) : LedgerResult where
  sequence := header.ledgerSeq
  closedAt := closeTimeOf header
  txCount := txs.length
  invocations := txs.filterMap (invocationOf scValString header.ledgerSeq (closeTimeOf header))

/-- `Extract`: one ledger's invocations. A meta of version 0 predates contracts and yields none; a version the program does
not know is an error. -/
def extract : LedgerCloseMeta → Option LedgerResult
  | .v0 header txs => some { extractTransactions scValString header txs with invocations := [] }
  | .v1 header txs => some (extractTransactions scValString header txs)
  | .v2 header txs => some (extractTransactions scValString header txs)
  | .other _ => none

end Write

end Soroscan
