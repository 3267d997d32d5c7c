import Soroscan.Args
import Soroscan.Extract
import Soroscan.Lib.Dictionary

/-!
# Store

The writing half of `store.go`, over the tables of the schema. A `Store` is what one process keeps: the caches of the three
dictionaries. The database is the tables themselves, with the sequences behind the dictionary ids.

`saveLedger` is one call. What its surroundings decide is a `Call`: the order in which each Go map is walked, and which
statement the database breaks by itself, if any. A call that fails leaves the tables as they were, except that the values its
statements took from the sequences are gone.

`acceptsTime` is which close times the `timestamptz` column holds.
-/

namespace Soroscan

/-- `InvocationRow`: one invocation from a closed ledger, field by field what `Extract` made. -/
abbrev InvocationRow : Type := Invocation

/-! ## Tables -/

/-- A row of `contract_transactions`. -/
structure TxRow where
  contractId : Nat
  txHash : Bytes32
  ledger : Nat
  ledgerClosedAt : Time
  function : Nat
  args : Option Json
  feeCharged : Int
  deriving Repr

/-- The primary key of `contract_transactions`. -/
def TxRow.key (r : TxRow) : Bytes32 × Time := (r.txHash, r.ledgerClosedAt)

/-- The dictionary tables: `contracts`, `functions` and `arg_addresses`. -/
structure Dicts where
  contracts : Dict Bytes32
  functions : Dict Bytes
  argAddresses : Dict Text

/-- The database. -/
structure Db where
  dicts : Dicts
  transactions : List TxRow
  checkpoints : Text → Option Nat

/-- The database after the migrations. -/
def Db.empty : Db := ⟨⟨Dict.empty, Dict.empty, Dict.empty⟩, [], fun _ => none⟩

/-- The greatest value of a `smallserial` column. -/
def smallserialMax : Nat := 32767

/-- The greatest value of a `serial` column. -/
def serialMax : Nat := 2147483647

/-- A `text` column holds UTF-8 text without the zero byte. -/
def acceptsText (s : Bytes) : Bool := validUtf8 s && !s.contains 0

mutual

/-- A string or a name with the null character is somewhere in the value. -/
def hasNull : Json → Bool
  | .str s => s.contains '\x00'
  | .arr items => hasNullItems items
  | .obj members => hasNullMembers members
  | _ => false

def hasNullItems : List Json → Bool
  | [] => false
  | v :: vs => hasNull v || hasNullItems vs

def hasNullMembers : List (Text × Json) → Bool
  | [] => false
  | (k, v) :: ms => k.contains '\x00' || hasNull v || hasNullMembers ms

end

/-- The value a `jsonb` column holds for a text: it rejects a text that is no JSON, and a string or a name with the null
character. -/
def jsonb (encoded : Text) : Option Json := (Json.parse encoded).filter fun v => !hasNull v

/-! ## Checkpoints -/

/-- The checkpoint name of the worker. -/
def worker : Text := ['w', 'o', 'r', 'k', 'e', 'r']

/-- `CheckpointLedger`: the stored ledger of a name, or 0 if none exists. -/
def Db.checkpointLedger (db : Db) (name : Text) : Nat := (db.checkpoints name).getD 0

/-- `SetCheckpoint`: overwrite a checkpoint. -/
def Db.setCheckpoint (db : Db) (name : Text) (ledger : Nat) : Db :=
  { db with checkpoints := Function.update db.checkpoints name (some ledger) }

/-- The checkpoint statement of `SaveLedger`: the worker's one only moves forward. -/
def advanceWorker (checkpoints : Text → Option Nat) (ledgerSeq : BitVec 32) : Text → Option Nat :=
  Function.update checkpoints worker (some (max ((checkpoints worker).getD 0) ledgerSeq.toNat))

/-- `LedgerStats`: one ledger's contract activity. -/
structure LedgerStats where
  invocations : Nat
  contracts : Nat
  functions : Nat
  indexed : Bool
  deriving DecidableEq, Repr

/-- `LedgerStats` of a ledger, and whether the worker has reached it. -/
def Db.ledgerStats (db : Db) (sequence : BitVec 32) : LedgerStats :=
  let rows := db.transactions.filter fun r => r.ledger = sequence.toNat
  { invocations := rows.length
    contracts := (rows.map TxRow.contractId).dedup.length
    functions := (rows.map TxRow.function).dedup.length
    indexed := decide (sequence.toNat ≤ db.checkpointLedger worker) }

/-- `LedgerStats` while the indexer goes on: the checkpoint is read in one state, and then the rows are counted in another. -/
def ledgerStats (first second : Db) (sequence : BitVec 32) : LedgerStats :=
  { second.ledgerStats sequence with indexed := decide (sequence.toNat ≤ first.checkpointLedger worker) }

/-! ## A call -/

/-- The caches of one process. -/
structure Store where
  contracts : Text → Option Nat
  functions : Bytes → Option Nat
  addresses : Text → Option Nat

/-- `New`: a process starts with empty caches. -/
def Store.new : Store := ⟨fun _ => none, fun _ => none, fun _ => none⟩

/-- The order in which a Go map is walked: some order of its keys. -/
structure MapOrder (κ : Type) where
  apply : List κ → List κ
  perm : ∀ ks, (apply ks).Perm ks

/-- The keys in the order they were collected. -/
def MapOrder.plain (κ : Type) : MapOrder κ := ⟨id, fun _ => List.Perm.refl _⟩

/-- The statements of a call. -/
inductive Stage where
  | start | contracts | functions | addresses | batch | commit
  deriving DecidableEq, Repr

/-- What the surroundings decide about a call. `breaks` says which statements the database breaks by itself, and after how
many rows. -/
structure Call where
  contractOrder : MapOrder (Text × Bytes32)
  functionOrder : MapOrder Bytes
  addressOrder : MapOrder Text
  breaks : Stage → Option Nat

/-- A call that the database does not break. -/
def Call.plain : Call := ⟨MapOrder.plain _, MapOrder.plain _, MapOrder.plain _, fun _ => none⟩

/-- Why a call fails: a contract id that is no strkey, arguments that are no JSON, no id left for a row of a dictionary, a
value that a column rejects, or the database itself. -/
inductive SaveError where
  | contractID | args | noId (stage : Stage) | rejected (stage : Stage) | database (stage : Stage)
  deriving DecidableEq, Repr

/-- A row that was read: the raw contract id, and the arguments unless there are none. -/
structure PreparedRow where
  row : InvocationRow
  raw : Bytes32
  parsedArgs : Option Json

/-- The arguments of a row. Empty text and `null` are no arguments. -/
def parsedArgsOf (argsJSON : Text) : Except SaveError (Option Json) :=
  if argsJSON = [] then .ok none
  else
    match parseArgs argsJSON with
    | none => .error .args
    | some .null => .ok none
    | some v => .ok (some v)

/-- One round of the loop that reads the rows. -/
def prepareRow (row : InvocationRow) : Except SaveError PreparedRow :=
  match decodeStrkey row.contractID strkeyVersionContract with
  | none => .error .contractID
  | some raw => (parsedArgsOf row.argsJSON).map fun parsedArgs => { row, raw, parsedArgs }

/-- The contracts of the rows, each once. -/
def wantedContracts (ps : List PreparedRow) : List (Text × Bytes32) := (ps.map fun p => (p.row.contractID, p.raw)).dedup

/-- The function names of the rows, each once. -/
def wantedFunctions (ps : List PreparedRow) : List Bytes := (ps.map fun p => p.row.function).dedup

/-- The addresses inside the arguments of the rows, each once. -/
def wantedAddresses (ps : List PreparedRow) : List Text :=
  (ps.flatMap fun p => (p.parsedArgs.map collectAddresses).getD []).dedup

/-- `snapshotContracts`: the contracts that are not in the cache. -/
def missingContracts (st : Store) (call : Call) (ps : List PreparedRow) : List (Text × Bytes32) :=
  call.contractOrder.apply ((wantedContracts ps).filter fun k => (st.contracts k.1).isNone)

/-- `snapshotFunctions`: the function names that are not in the cache. -/
def missingFunctions (st : Store) (call : Call) (ps : List PreparedRow) : List Bytes :=
  call.functionOrder.apply ((wantedFunctions ps).filter fun k => (st.functions k).isNone)

/-- `snapshotAddresses`: the addresses that are not in the cache. -/
def missingAddresses (st : Store) (call : Call) (ps : List PreparedRow) : List Text :=
  call.addressOrder.apply ((wantedAddresses ps).filter fun k => (st.addresses k).isNone)

/-- The keys a statement gets to propose. -/
def proposedKeys {κ : Type} (call : Call) (stage : Stage) (keys : List κ) : List κ :=
  match call.breaks stage with
  | some n => keys.take n
  | none => keys

/-- The insert statement of a `resolve` function: a row is proposed for each key, until the database breaks the statement. -/
def proposeKeys {κ : Type} [DecidableEq κ] (call : Call) (stage : Stage) (limit : Nat) (d : Dict κ) (keys : List κ) :
    Dict κ × Option SaveError :=
  match Dict.insertAll limit d (proposedKeys call stage keys) with
  | (d', false) => (d', some (.noId stage))
  | (d', true) => (d', if (call.breaks stage).isSome then some (.database stage) else none)

/-- `resolveContracts`: a raw id leads back to the last strkey of the map that has it. -/
def strkeyByRaw (missing : List (Text × Bytes32)) (raw : Bytes32) : Option Text :=
  (missing.reverse.find? fun k => k.2 = raw).map (·.1)

/-- The ids `resolveContracts` finds. -/
def resolvedContracts (d : Dict Bytes32) (missing : List (Text × Bytes32)) (key : Text) : Option Nat :=
  (missing.find? fun k => k.1 = key).bind fun k => if strkeyByRaw missing k.2 = some key then d.idOf k.2 else none

/-- The ids `resolveFunctions` and `resolveAddresses` find. -/
def resolvedKeys {κ : Type} [DecidableEq κ] (d : Dict κ) (missing : List κ) (key : κ) : Option Nat :=
  if key ∈ missing then d.idOf key else none

/-- The three `resolve` functions in their order: the dictionaries inside the transaction, and the error that stopped them. -/
def resolveAll (st : Store) (call : Call) (d : Dicts) (ps : List PreparedRow) : Dicts × Option SaveError :=
  match proposeKeys call .contracts smallserialMax d.contracts ((missingContracts st call ps).map (·.2)) with
  | (contracts, some e) => ({ d with contracts }, some e)
  | (contracts, none) =>
    if (missingFunctions st call ps).all acceptsText then
      match proposeKeys call .functions smallserialMax d.functions (missingFunctions st call ps) with
      | (functions, some e) => ({ d with contracts, functions }, some e)
      | (functions, none) =>
        match proposeKeys call .addresses serialMax d.argAddresses (missingAddresses st call ps) with
        | (argAddresses, e) => ({ contracts, functions, argAddresses }, e)
    else ({ d with contracts }, some (.rejected .functions))

/-- `mergeInto`. -/
def mergeInto {κ : Type} (dst src : κ → Option Nat) (key : κ) : Option Nat := (src key).or (dst key)

/-- The caches with the ids of a call merged in: what the call's rows are written with, and what the process keeps when the
call is committed. -/
def Store.merged (st : Store) (call : Call) (d : Dicts) (ps : List PreparedRow) : Store where
  contracts := mergeInto st.contracts (resolvedContracts d.contracts (missingContracts st call ps))
  functions := mergeInto st.functions (resolvedKeys d.functions (missingFunctions st call ps))
  addresses := mergeInto st.addresses (resolvedKeys d.argAddresses (missingAddresses st call ps))

/-- The ids of the addresses, as the placeholders carry them. -/
def Store.addressIDs (ids : Store) (a : Text) : Option (BitVec 32) := (ids.addresses a).map (BitVec.ofNat 32)

section Save

variable (acceptsTime : Time → Bool)

/-- The row of a batch statement, if every column accepts its value. An id that is not in its map is written as 0. -/
def txRow (ids : Store) (p : PreparedRow) : Option TxRow :=
  if p.row.ledger.toNat < 2 ^ 31 ∧ acceptsTime p.row.closedAt = true then
    match p.parsedArgs with
    | none => some (row none)
    | some v => (jsonb (Json.marshal (rewriteAddresses ids.addressIDs v))).map fun args => row (some args)
  else none
where
  row (args : Option Json) : TxRow :=
    { contractId := (ids.contracts p.row.contractID).getD 0
      txHash := p.row.txHash
      ledger := p.row.ledger.toNat
      ledgerClosedAt := p.row.closedAt
      function := (ids.functions p.row.function).getD 0
      args := args
      feeCharged := p.row.feeCharged }

/-- One insert into `contract_transactions`: a row whose key is there is left out. -/
def insertRow (rows : List TxRow) (r : TxRow) : List TxRow :=
  if r.key ∈ rows.map TxRow.key then rows else rows ++ [r]

/-- What a call leaves: the caches, the database, and why it failed, if it did. -/
structure Saved where
  store : Store
  db : Db
  error : Option SaveError

/-- A failed call: the transaction is rolled back, the values taken from the sequences are not given back. -/
def rolledBack (st : Store) (db : Db) (d : Dicts) (e : SaveError) : Saved where
  store := st
  db := { db with dicts :=
    { contracts := db.dicts.contracts.burn d.contracts.last
      functions := db.dicts.functions.burn d.functions.last
      argAddresses := db.dicts.argAddresses.burn d.argAddresses.last } }
  error := some e

/-- The batch and the commit, once every row is resolved. -/
def commitBatch (st : Store) (db : Db) (call : Call) (ledgerSeq : BitVec 32) (d : Dicts) (ps : List PreparedRow) : Saved :=
  match ps.mapM (txRow acceptsTime (st.merged call d ps)) with
  | none => rolledBack st db d (.rejected .batch)
  | some rows =>
    if (call.breaks .batch).isSome then rolledBack st db d (.database .batch)
    else if (call.breaks .commit).isSome then rolledBack st db d (.database .commit)
    else
      { store := st.merged call d ps
        db := { dicts := d, transactions := rows.foldl insertRow db.transactions,
                checkpoints := advanceWorker db.checkpoints ledgerSeq }
        error := none }

/-- `SaveLedger`: the rows of a ledger and the worker checkpoint in one transaction. -/
def saveLedger (st : Store) (db : Db) (call : Call) (ledgerSeq : BitVec 32) (rows : List InvocationRow) : Saved :=
  match rows.mapM prepareRow with
  | .error e => ⟨st, db, some e⟩
  | .ok ps =>
    if (call.breaks .start).isSome then ⟨st, db, some (.database .start)⟩
    else
      match resolveAll st call db.dicts ps with
      | (d, some e) => rolledBack st db d e
      | (d, none) => commitBatch acceptsTime st db call ledgerSeq d ps

end Save

end Soroscan
