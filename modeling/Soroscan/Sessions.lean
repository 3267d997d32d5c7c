import Soroscan.Store
import Soroscan.Lib.Isolation

/-!
# SaveLedger calls side by side

Several `SaveLedger` calls on one `Store`, between the statements of other processes. `saveLedger` is a call as a whole; here a
call goes from one point to the next where the others can come in between: it takes the mutex for one snapshot of a cache, it
proposes one row of a dictionary, it reads a dictionary, it sends the batch, it commits, it takes the mutex again and merges.

The dictionaries are shared by the open transactions: a proposal waits while another transaction has proposed the key, and then
takes its value of the sequence. The rows of the batch meet the stored ones when the call is committed; a row that conflicts with
one of an open transaction waits until then.
-/

namespace Soroscan

/-- `mergeInto` on each of the three maps. -/
def Store.mergeAll (dst src : Store) : Store where
  contracts := mergeInto dst.contracts src.contracts
  functions := mergeInto dst.functions src.functions
  addresses := mergeInto dst.addresses src.addresses

namespace Sessions

/-! ## The tables -/

/-- Whose transaction it is: a call's of this process, or another process's. -/
inductive Owner where
  | call (i : Nat)
  | other (j : Nat)
  deriving DecidableEq, Repr

/-- The tables while transactions are open. -/
structure Tables where
  contracts : Shared Bytes32 Owner
  functions : Shared Bytes Owner
  argAddresses : Shared Text Owner
  transactions : List TxRow
  checkpoints : Text → Option Nat

/-- The tables of a database without open transactions. -/
def Tables.ofDb (db : Db) : Tables where
  contracts := Shared.ofDict db.dicts.contracts
  functions := Shared.ofDict db.dicts.functions
  argAddresses := Shared.ofDict db.dicts.argAddresses
  transactions := db.transactions
  checkpoints := db.checkpoints

/-- The committed rows of the dictionaries. -/
def Tables.committed (t : Tables) : Dicts := ⟨t.contracts.committed, t.functions.committed, t.argAddresses.committed⟩

/-- The rows of the dictionaries that a transaction sees. -/
def Tables.seen (t : Tables) (o : Owner) : Dicts := ⟨t.contracts.seen o, t.functions.seen o, t.argAddresses.seen o⟩

/-- The dictionaries after the commit of a transaction. -/
def Tables.commit (t : Tables) (o : Owner) : Tables :=
  { t with contracts := t.contracts.commit o, functions := t.functions.commit o, argAddresses := t.argAddresses.commit o }

/-- The dictionaries after a transaction was rolled back. -/
def Tables.abort (t : Tables) (o : Owner) : Tables :=
  { t with contracts := t.contracts.abort o, functions := t.functions.abort o, argAddresses := t.argAddresses.abort o }

/-- A value of the sequence and a row for a contract, inside a transaction. -/
def Tables.proposeContract (t : Tables) (o : Owner) (raw : Bytes32) : Option Tables :=
  (t.contracts.propose o raw).map fun contracts => { t with contracts }

/-- A value of the sequence and a row for a function name, inside a transaction. -/
def Tables.proposeFunction (t : Tables) (o : Owner) (name : Bytes) : Option Tables :=
  (t.functions.propose o name).map fun functions => { t with functions }

/-- A value of the sequence and a row for an address, inside a transaction. -/
def Tables.proposeAddress (t : Tables) (o : Owner) (a : Text) : Option Tables :=
  (t.argAddresses.propose o a).map fun argAddresses => { t with argAddresses }

/-! ## A call -/

/-- What a call has in its variables once its rows are read: the snapshots of the caches, and the ids the `resolve` functions
found. -/
structure Locals where
  ps : List PreparedRow
  known : Store
  found : Store

/-- The ids a call writes its rows with. -/
def Locals.ids (l : Locals) : Store := l.known.mergeAll l.found

/-- Where a call is: what it does next. The lists are what a `resolve` function has yet to propose. -/
inductive Phase where
  | called
  | snapshotContracts (l : Locals)
  | snapshotFunctions (l : Locals)
  | snapshotAddresses (l : Locals)
  | begin (l : Locals)
  | resolveContracts (l : Locals) (todo : List Bytes32)
  | resolveFunctions (l : Locals) (todo : List Bytes)
  | resolveAddresses (l : Locals) (todo : List Text)
  | batch (l : Locals)
  | commit (l : Locals) (written : List TxRow)
  | merge (l : Locals)
  | returned (error : Option SaveError)

/-- A call: its arguments, the order in which it walks its maps, and where it is. -/
structure Session where
  ledgerSeq : BitVec 32
  rows : List InvocationRow
  order : Call
  phase : Phase

/-- The contracts a call has to resolve. -/
def Session.missingContracts (s : Session) (l : Locals) : List (Text × Bytes32) :=
  Soroscan.missingContracts l.known s.order l.ps

/-- The function names a call has to resolve. -/
def Session.missingFunctions (s : Session) (l : Locals) : List Bytes := Soroscan.missingFunctions l.known s.order l.ps

/-- The addresses a call has to resolve. -/
def Session.missingAddresses (s : Session) (l : Locals) : List Text := Soroscan.missingAddresses l.known s.order l.ps

/-- What a call leaves when it goes on. -/
structure Advance where
  store : Store
  tables : Tables
  phase : Phase

/-- A call that ends with an error: its transaction is rolled back. -/
def Advance.failed (st : Store) (t : Tables) (o : Owner) (e : SaveError) : Advance := ⟨st, t.abort o, .returned (some e)⟩

/-- The statement that breaks when the database breaks one. -/
def Phase.stage : Phase → Option Stage
  | .begin _ => some .start
  | .resolveContracts _ _ => some .contracts
  | .resolveFunctions _ _ => some .functions
  | .resolveAddresses _ _ => some .addresses
  | .batch _ => some .batch
  | .commit _ _ => some .commit
  | _ => none

section Step

variable (acceptsTime : Time → Bool)

/-- `SaveLedger`, from one point to the next. A call that has to wait, or has returned, does not go on. -/
def Session.advance (s : Session) (o : Owner) (st : Store) (t : Tables) : Option Advance :=
  match s.phase with
  | .called =>
    match s.rows.mapM prepareRow with
    | .error e => some ⟨st, t, .returned (some e)⟩
    | .ok ps => some ⟨st, t, .snapshotContracts ⟨ps, Store.new, Store.new⟩⟩
  | .snapshotContracts l =>
    some ⟨st, t, .snapshotFunctions { l with known := { l.known with contracts := st.contracts } }⟩
  | .snapshotFunctions l =>
    some ⟨st, t, .snapshotAddresses { l with known := { l.known with functions := st.functions } }⟩
  | .snapshotAddresses l => some ⟨st, t, .begin { l with known := { l.known with addresses := st.addresses } }⟩
  | .begin l => some ⟨st, t, .resolveContracts l ((s.missingContracts l).map (·.2))⟩
  | .resolveContracts l (raw :: todo) =>
    if t.contracts.all.last < smallserialMax then
      (t.proposeContract o raw).map fun t' => ⟨st, t', .resolveContracts l todo⟩
    else some (.failed st t o (.noId .contracts))
  | .resolveContracts l [] =>
    let found := { l.found with contracts := resolvedContracts (t.seen o).contracts (s.missingContracts l) }
    if (s.missingFunctions l).all acceptsText then some ⟨st, t, .resolveFunctions { l with found } (s.missingFunctions l)⟩
    else some (.failed st t o (.rejected .functions))
  | .resolveFunctions l (name :: todo) =>
    if t.functions.all.last < smallserialMax then
      (t.proposeFunction o name).map fun t' => ⟨st, t', .resolveFunctions l todo⟩
    else some (.failed st t o (.noId .functions))
  | .resolveFunctions l [] =>
    let found := { l.found with functions := resolvedKeys (t.seen o).functions (s.missingFunctions l) }
    some ⟨st, t, .resolveAddresses { l with found } (s.missingAddresses l)⟩
  | .resolveAddresses l (a :: todo) =>
    if t.argAddresses.all.last < serialMax then
      (t.proposeAddress o a).map fun t' => ⟨st, t', .resolveAddresses l todo⟩
    else some (.failed st t o (.noId .addresses))
  | .resolveAddresses l [] =>
    let found := { l.found with addresses := resolvedKeys (t.seen o).argAddresses (s.missingAddresses l) }
    some ⟨st, t, .batch { l with found }⟩
  | .batch l =>
    match l.ps.mapM (txRow acceptsTime l.ids) with
    | none => some (.failed st t o (.rejected .batch))
    | some written => some ⟨st, t, .commit l written⟩
  | .commit l written =>
    some ⟨st, { t.commit o with transactions := written.foldl insertRow t.transactions,
                                checkpoints := advanceWorker t.checkpoints s.ledgerSeq }, .merge l⟩
  | .merge l => some ⟨st.mergeAll l.found, t, .returned none⟩
  | .returned _ => none

/-! ## The process -/

/-- One process and the tables: its caches, and the calls that were made, by number. -/
structure State where
  store : Store
  tables : Tables
  sessions : Nat → Option Session

/-- A process starts on a database. -/
def State.start (db : Db) : State := ⟨Store.new, Tables.ofDb db, fun _ => none⟩

/-- What a transaction of another process does. -/
inductive Foreign where
  | contract (raw : Bytes32)
  | function (name : Bytes)
  | address (a : Text)
  | commit
  | abort

/-- What happens: a call is made, goes on or breaks, or another process does something. -/
inductive Event where
  | call (i : Nat) (ledgerSeq : BitVec 32) (rows : List InvocationRow) (order : Call)
  | next (i : Nat)
  | breaks (i : Nat)
  | other (j : Nat) (what : Foreign)

/-- A transaction of another process goes on. -/
def Tables.foreign (t : Tables) (o : Owner) : Foreign → Option Tables
  | .contract raw => if t.contracts.all.last < smallserialMax then t.proposeContract o raw else none
  | .function name => if t.functions.all.last < smallserialMax then t.proposeFunction o name else none
  | .address a => if t.argAddresses.all.last < serialMax then t.proposeAddress o a else none
  | .commit => some (t.commit o)
  | .abort => some (t.abort o)

/-- A call is at a point. -/
def State.put (w : State) (i : Nat) (s : Session) : State := { w with sessions := Function.update w.sessions i (some s) }

/-- A call went on. -/
def State.moved (w : State) (i : Nat) (s : Session) (a : Advance) : State :=
  { store := a.store, tables := a.tables, sessions := Function.update w.sessions i (some { s with phase := a.phase }) }

/-- One event, if it can happen. -/
def step (w : State) : Event → Option State
  | .call i ledgerSeq rows order =>
    match w.sessions i with
    | none => some (w.put i ⟨ledgerSeq, rows, order, .called⟩)
    | some _ => none
  | .next i => (w.sessions i).bind fun s => (s.advance acceptsTime (.call i) w.store w.tables).map (w.moved i s)
  | .breaks i =>
    (w.sessions i).bind fun s => s.phase.stage.map fun stage =>
      w.moved i s (.failed w.store w.tables (.call i) (.database stage))
  | .other j what => (w.tables.foreign (.other j) what).map fun tables => { w with tables }

end Step

end Sessions

end Soroscan
