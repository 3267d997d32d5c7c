import Soroscan.Basic

/-!
# The chain's data

The XDR types the program reads, with the arms it looks at: contract values, events, transaction metas and ledger close metas.
Integers are words of their own width. An arm the program does not know is kept where it checks for it (`EventBody.other`,
`TransactionMeta.other`, `LedgerCloseMeta.other`); arms and fields it never reads are left out.
-/

namespace Soroscan

/-- `SCErrorType`, the contract type left out: it has an arm of its own. -/
inductive ScErrorType where
  | wasmVm | context | storage | object | crypto | events | budget | value | auth
  deriving DecidableEq, Repr

/-- `SCErrorCode`. -/
inductive ScErrorCode where
  | arithDomain | indexBounds | invalidInput | missingValue | existingValue | exceededLimit | invalidAction | internalError
  | unexpectedType | unexpectedSize
  deriving DecidableEq, Repr

/-- `SCError`: a contract's own code, or a type of the host with a code of the host. -/
inductive ScError where
  | contract (code : BitVec 32)
  | other (type : ScErrorType) (code : ScErrorCode)
  deriving DecidableEq, Repr

/-- `SCAddress`, the five kinds of address. -/
inductive ScAddress where
  | account (ed25519 : Bytes32)
  | contract (id : Bytes32)
  | muxed (id : BitVec 64) (ed25519 : Bytes32)
  | claimableBalance (hash : Bytes32)
  | liquidityPool (id : Bytes32)
  deriving DecidableEq, Repr

/-- `ContractExecutable`. -/
inductive ContractExecutable where
  | wasm (hash : Bytes32)
  | stellarAsset
  deriving DecidableEq, Repr

/-- `SCVal`: a contract value. An absent vector, map or instance storage is `none`. -/
inductive ScVal where
  | bool (b : Bool)
  | void
  | error (e : ScError)
  | u32 (v : BitVec 32)
  | i32 (v : BitVec 32)
  | u64 (v : BitVec 64)
  | i64 (v : BitVec 64)
  | timepoint (v : BitVec 64)
  | duration (v : BitVec 64)
  | u128 (hi lo : BitVec 64)
  | i128 (hi lo : BitVec 64)
  | u256 (hiHi hiLo loHi loLo : BitVec 64)
  | i256 (hiHi hiLo loHi loLo : BitVec 64)
  | bytes (b : Bytes)
  | string (s : Bytes)
  | symbol (s : Bytes)
  | vec (items : Option (List ScVal))
  | map (entries : Option (List (ScVal × ScVal)))
  | address (a : ScAddress)
  | contractInstance (executable : ContractExecutable) (storage : Option (List (ScVal × ScVal)))
  | ledgerKeyContractInstance
  | ledgerKeyNonce (nonce : BitVec 64)
  deriving Repr

/-- `ContractEventType`. -/
inductive EventType where
  | system | contract | diagnostic
  deriving DecidableEq, Repr

/-- The body of a contract event: version 0, or a version the program does not know. -/
inductive EventBody where
  | v0 (topics : List ScVal) (data : ScVal)
  | other (v : Nat)
  deriving Repr

/-- `ContractEvent`. -/
structure ContractEvent where
  contractId : Option Bytes32
  type : EventType
  body : EventBody
  deriving Repr

/-- `ContractDataDurability`. -/
inductive Durability where
  | temporary | persistent
  deriving DecidableEq, Repr

/-- `LedgerEntryData`: the entries of contract data, code and lifetimes; every other entry is `other`. -/
inductive LedgerEntryData where
  | contractData (contract : ScAddress) (key : ScVal) (durability : Durability) (val : ScVal)
  | contractCode (hash : Bytes32)
  | ttl (keyHash : Bytes32) (liveUntilLedgerSeq : BitVec 32)
  | other
  deriving Repr

/-- `LedgerKey`: the keys of the same entries. -/
inductive LedgerKey where
  | contractData (contract : ScAddress) (key : ScVal) (durability : Durability)
  | contractCode (hash : Bytes32)
  | ttl (keyHash : Bytes32)
  | other
  deriving Repr

/-- `LedgerEntryChange`. -/
inductive LedgerEntryChange where
  | created (data : LedgerEntryData)
  | updated (data : LedgerEntryData)
  | removed (key : LedgerKey)
  | state (data : LedgerEntryData)
  | restored (data : LedgerEntryData)
  deriving Repr

/-- The first version of the extension of a Soroban meta: the parts of the resource fee. -/
structure SorobanMetaExtV1 where
  totalNonRefundableResourceFeeCharged : BitVec 64
  totalRefundableResourceFeeCharged : BitVec 64
  rentFeeCharged : BitVec 64
  deriving Repr

/-- `SorobanTransactionMeta`: the Soroban part of a meta of version 3. -/
structure SorobanMetaV3 where
  ext : Option SorobanMetaExtV1
  events : List ContractEvent
  diagnosticEvents : List ContractEvent
  deriving Repr

/-- The Soroban part of a meta of version 4, which keeps the events elsewhere. -/
structure SorobanMetaV4 where
  ext : Option SorobanMetaExtV1
  deriving Repr

/-- What one operation of a meta of version 4 changed and raised. -/
structure OperationMetaV4 where
  changes : List LedgerEntryChange
  events : List ContractEvent
  deriving Repr

/-- `TransactionMeta`. Both versions have changes before and after the operations; version 4 has raised events of the
transaction itself as well. The events of the transaction and the diagnostic ones are the contract events inside them. -/
inductive TransactionMeta where
  | other (v : Nat)
  | v3 (txChangesBefore : List LedgerEntryChange) (operations : List (List LedgerEntryChange))
      (txChangesAfter : List LedgerEntryChange) (sorobanMeta : Option SorobanMetaV3)
  | v4 (txChangesBefore : List LedgerEntryChange) (operations : List OperationMetaV4)
      (txChangesAfter : List LedgerEntryChange) (sorobanMeta : Option SorobanMetaV4) (events : List ContractEvent)
      (diagnosticEvents : List ContractEvent)
  deriving Repr

/-- `InvokeContractArgs`: one call of a contract. -/
structure InvokeContractArgs where
  contractAddress : ScAddress
  functionName : Bytes
  args : List ScVal
  deriving Repr

/-- `SorobanAuthorizedFunction`: a call, or the creation of a contract. -/
inductive AuthorizedFunction where
  | contractFn (call : InvokeContractArgs)
  | createContract
  deriving Repr

/-- `SorobanAuthorizedInvocation`: an authorized function, and those it calls in turn. -/
inductive AuthorizedInvocation where
  | mk (function : AuthorizedFunction) (subInvocations : List AuthorizedInvocation)
  deriving Repr

/-- `HostFunction`: the call of a contract, or another function of the host. -/
inductive HostFunction where
  | invokeContract (call : InvokeContractArgs)
  | other
  deriving Repr

/-- `OperationBody`: a host function with the root invocations of its authorization entries, or another operation. -/
inductive OperationBody where
  | invokeHostFunction (hostFunction : HostFunction) (auth : List AuthorizedInvocation)
  | other
  deriving Repr

/-- `TransactionEnvelope`, with the operations of its transaction. -/
inductive TransactionEnvelope where
  | v0
  | v1 (operations : List OperationBody)
  | feeBump (innerOperations : List OperationBody)
  deriving Repr

/-- `TransactionResultPair`: the hash of a transaction and the fee it was charged. -/
structure TransactionResultPair where
  transactionHash : Bytes32
  feeCharged : BitVec 64
  deriving Repr

/-- One applied transaction of a ledger close meta. -/
structure TransactionResultMeta where
  result : TransactionResultPair
  txApplyProcessing : TransactionMeta
  deriving Repr

/-- The part of `LedgerHeader` the indexer keeps. -/
structure LedgerHeader where
  ledgerSeq : BitVec 32
  closeTime : BitVec 64
  deriving Repr

/-- `LedgerCloseMeta`: everything one ledger holds. -/
inductive LedgerCloseMeta where
  | v0 (header : LedgerHeader) (txProcessing : List TransactionResultMeta)
  | v1 (header : LedgerHeader) (txProcessing : List TransactionResultMeta)
  | v2 (header : LedgerHeader) (txProcessing : List TransactionResultMeta)
  | other (v : Nat)
  deriving Repr

end Soroscan
