import Soroscan.Store
import Soroscan.Lib.Fallible

/-!
# What a call leaves

`saveLedger_cases` says once what a call can do: it fails and leaves the rows, the checkpoints and the caches as they were, or
it is committed. What a committed call did is a `Committed`: the rows it read, the dictionaries it left and the table rows it
wrote. The caches of a process that only committed calls filled agree with the dictionaries (`Store.Sound`).
-/

namespace Soroscan

/-! ## Reading the rows -/

/-- A row that was read is the given one; its contract id and its arguments are what the readers found. -/
structure PreparedRow.Reads (row : InvocationRow) (p : PreparedRow) : Prop where
  row_eq : p.row = row
  raw_eq : decodeStrkey row.contractID strkeyVersionContract = some p.raw
  args_eq : parsedArgsOf row.argsJSON = .ok p.parsedArgs

/-- A prepared row has what is read of the row. -/
theorem reads_of_prepareRow {row : InvocationRow} {p : PreparedRow} (h : prepareRow row = .ok p) : p.Reads row := by
  unfold prepareRow at h
  split at h
  · cases h
  · rename_i raw hraw
    cases ha : parsedArgsOf row.argsJSON with
    | error e =>
      rw [ha] at h
      cases h
    | ok parsedArgs =>
      rw [ha] at h
      cases h
      exact ⟨rfl, hraw, ha⟩

/-- A row that cannot be read has a contract id that is no strkey, or arguments that are no JSON. -/
theorem error_of_prepareRow {row : InvocationRow} {e : SaveError} (h : prepareRow row = .error e) :
    e = .contractID ∨ e = .args := by
  unfold prepareRow at h
  split at h
  · cases h
    exact Or.inl rfl
  · cases ha : parsedArgsOf row.argsJSON with
    | ok parsedArgs =>
      rw [ha] at h
      cases h
    | error e' =>
      rw [ha] at h
      cases h
      unfold parsedArgsOf at ha
      split_ifs at ha
      split at ha <;> cases ha
      exact Or.inr rfl

/-- Prepared rows have what is read of the rows. -/
theorem reads_of_prepare {rows : List InvocationRow} {ps : List PreparedRow} (h : rows.mapM prepareRow = .ok ps) :
    List.Forall₂ (fun row p => PreparedRow.Reads row p) rows ps :=
  (forall₂_of_mapM_ok h).imp fun _ _ => reads_of_prepareRow

/-- The rows that were read are the given ones, in their order. -/
theorem map_row_of_prepare {rows : List InvocationRow} {ps : List PreparedRow} (h : rows.mapM prepareRow = .ok ps) :
    ps.map PreparedRow.row = rows := by
  have hr := reads_of_prepare h
  clear h
  induction hr with
  | nil => rfl
  | cons hp _ ih => rw [List.map_cons, hp.row_eq, ih]

/-- The contract id of a row that was read is the strkey its raw id was read from. -/
theorem decode_of_prepare {rows : List InvocationRow} {ps : List PreparedRow} (h : rows.mapM prepareRow = .ok ps)
    {p : PreparedRow} (hp : p ∈ ps) : decodeStrkey p.row.contractID strkeyVersionContract = some p.raw := by
  obtain ⟨row, -, hr⟩ := exists_of_forall₂_right (reads_of_prepare h) hp
  rw [hr.row_eq]
  exact hr.raw_eq

/-! ## Resolving the dictionaries -/

/-- A statement that goes well does not break, and its table has the values. -/
theorem proposeKeys_none {κ : Type} [DecidableEq κ] {call : Call} {stage : Stage} {limit : Nat} {d d' : Dict κ}
    {keys : List κ} (h : proposeKeys call stage limit d keys = (d', none)) :
    call.breaks stage = none ∧ Dict.insertAll limit d keys = (d', true) := by
  unfold proposeKeys at h
  split at h
  · cases h
  · rename_i d'' heq
    simp only [Prod.mk.injEq, ite_eq_right_iff, reduceCtorEq, imp_false, Option.not_isSome_iff_eq_none] at h
    obtain ⟨rfl, hb⟩ := h
    rw [proposedKeys, hb] at heq
    exact ⟨hb, heq⟩

/-- The three resolve statements succeeded: each dictionary has every key that was proposed. -/
structure Resolved (st : Store) (call : Call) (d : Dicts) (ps : List PreparedRow) (d' : Dicts) : Prop where
  contracts : Dict.insertAll smallserialMax d.contracts ((missingContracts st call ps).map (·.2)) = (d'.contracts, true)
  functions : Dict.insertAll smallserialMax d.functions (missingFunctions st call ps) = (d'.functions, true)
  addresses : Dict.insertAll serialMax d.argAddresses (missingAddresses st call ps) = (d'.argAddresses, true)
  names : ∀ name ∈ missingFunctions st call ps, acceptsText name = true

/-- Statements that go well resolve all keys. -/
theorem resolveAll_none {st : Store} {call : Call} {d d' : Dicts} {ps : List PreparedRow}
    (h : resolveAll st call d ps = (d', none)) : Resolved st call d ps d' := by
  unfold resolveAll at h
  split at h
  · cases h
  · rename_i contracts hc
    split_ifs at h with hnames
    · split at h
      · cases h
      · rename_i functions hf
        split at h
        rename_i argAddresses e ha
        cases h
        exact ⟨(proposeKeys_none hc).2, (proposeKeys_none hf).2, (proposeKeys_none ha).2,
          fun name hn => List.all_eq_true.mp hnames name hn⟩
    · cases h

/-- One set of dictionaries holds every row of another. -/
structure Dicts.Grows (d d' : Dicts) : Prop where
  contracts : d.contracts.Grows d'.contracts
  functions : d.functions.Grows d'.functions
  argAddresses : d.argAddresses.Grows d'.argAddresses

theorem Dicts.Grows.refl (d : Dicts) : d.Grows d := ⟨Dict.Grows.refl _, Dict.Grows.refl _, Dict.Grows.refl _⟩

theorem Dicts.Grows.trans {d d' d'' : Dicts} (h : d.Grows d') (h' : d'.Grows d'') : d.Grows d'' :=
  ⟨h.contracts.trans h'.contracts, h.functions.trans h'.functions, h.argAddresses.trans h'.argAddresses⟩

/-- The tables grow while keys are resolved. -/
theorem Resolved.grows {st : Store} {call : Call} {d d' : Dicts} {ps : List PreparedRow}
    (h : Resolved st call d ps d') : d.Grows d' where
  contracts := by
    have := Dict.grows_insertAll smallserialMax d.contracts ((missingContracts st call ps).map (·.2))
    rwa [h.contracts] at this
  functions := by
    have := Dict.grows_insertAll smallserialMax d.functions (missingFunctions st call ps)
    rwa [h.functions] at this
  argAddresses := by
    have := Dict.grows_insertAll serialMax d.argAddresses (missingAddresses st call ps)
    rwa [h.addresses] at this

/-- A statement that succeeded leaves an id for every key that was there or was proposed. -/
theorem exists_idOf_of_insertAll {κ : Type} [DecidableEq κ] {limit : Nat} {d d' : Dict κ} {keys : List κ}
    (h : Dict.insertAll limit d keys = (d', true)) {k : κ} (hk : k ∈ d.keys ∨ k ∈ keys) : ∃ id, d'.idOf k = some id := by
  have hok : (Dict.insertAll limit d keys).2 = true := by rw [h]
  have hmem := (Dict.mem_insertAll_keys hok).mpr hk
  rw [h] at hmem
  exact Dict.mem_keys_iff.mp hmem

/-! ## Caches -/

/-- Every id in the caches of a process is the one its key has in the dictionary. -/
structure Store.Sound (st : Store) (d : Dicts) : Prop where
  contracts : ∀ key id, st.contracts key = some id →
    ∃ raw, decodeStrkey key strkeyVersionContract = some raw ∧ d.contracts.idOf raw = some id
  functions : ∀ key id, st.functions key = some id → d.functions.idOf key = some id
  addresses : ∀ key id, st.addresses key = some id → d.argAddresses.idOf key = some id

/-- Empty caches agree with any tables. -/
theorem Store.new_sound (d : Dicts) : Store.new.Sound d := by
  constructor <;> intro key id h <;> cases h

/-- Caches that agree with the tables agree with them when they grow. -/
theorem Store.Sound.grows {st : Store} {d d' : Dicts} (h : st.Sound d) (hg : d.Grows d') : st.Sound d' where
  contracts key id hk := by
    obtain ⟨raw, hraw, hid⟩ := h.contracts key id hk
    exact ⟨raw, hraw, hg.contracts.idOf hid⟩
  functions key id hk := hg.functions.idOf (h.functions key id hk)
  addresses key id hk := hg.argAddresses.idOf (h.addresses key id hk)

/-- What a merged map says of a key comes from the new ids or, for the keys these leave out, from the old ones. -/
theorem mergeInto_eq_some {κ : Type} {dst src : κ → Option Nat} {key : κ} {id : Nat}
    (h : mergeInto dst src key = some id) : src key = some id ∨ dst key = some id := by
  unfold mergeInto at h
  cases hs : src key with
  | none =>
    rw [hs, Option.none_or] at h
    exact Or.inr h
  | some id' =>
    rw [hs, Option.some_or] at h
    exact Or.inl h

/-- What the merged cache has is kept. -/
theorem mergeInto_of_src {κ : Type} {dst src : κ → Option Nat} {key : κ} {id : Nat} (h : src key = some id) :
    mergeInto dst src key = some id := by
  rw [mergeInto, h, Option.some_or]

/-- A key of either map is a key of the merged one. -/
theorem exists_mergeInto_of_dst {κ : Type} {dst : κ → Option Nat} (src : κ → Option Nat) {key : κ} {id : Nat}
    (h : dst key = some id) : ∃ id', mergeInto dst src key = some id' := by
  cases hs : src key with
  | none => exact ⟨id, by rw [mergeInto, hs, h, Option.none_or]⟩
  | some id' => exact ⟨id', mergeInto_of_src hs⟩

/-- The contracts that are proposed are those of the rows that the cache does not have. -/
theorem mem_missingContracts {st : Store} {call : Call} {ps : List PreparedRow} {k : Text × Bytes32} :
    k ∈ missingContracts st call ps ↔ k ∈ wantedContracts ps ∧ st.contracts k.1 = none := by
  rw [missingContracts, (call.contractOrder.perm _).mem_iff, List.mem_filter, Option.isNone_iff_eq_none]

/-- The functions that are proposed are those of the rows that the cache does not have. -/
theorem mem_missingFunctions {st : Store} {call : Call} {ps : List PreparedRow} {k : Bytes} :
    k ∈ missingFunctions st call ps ↔ k ∈ wantedFunctions ps ∧ st.functions k = none := by
  rw [missingFunctions, (call.functionOrder.perm _).mem_iff, List.mem_filter, Option.isNone_iff_eq_none]

/-- The addresses that are proposed are those of the rows that the cache does not have. -/
theorem mem_missingAddresses {st : Store} {call : Call} {ps : List PreparedRow} {k : Text} :
    k ∈ missingAddresses st call ps ↔ k ∈ wantedAddresses ps ∧ st.addresses k = none := by
  rw [missingAddresses, (call.addressOrder.perm _).mem_iff, List.mem_filter, Option.isNone_iff_eq_none]

theorem mem_wantedContracts {ps : List PreparedRow} {k : Text × Bytes32} :
    k ∈ wantedContracts ps ↔ ∃ p ∈ ps, (p.row.contractID, p.raw) = k := by
  rw [wantedContracts, List.mem_dedup, List.mem_map]

theorem mem_wantedFunctions {ps : List PreparedRow} {k : Bytes} :
    k ∈ wantedFunctions ps ↔ ∃ p ∈ ps, p.row.function = k := by
  rw [wantedFunctions, List.mem_dedup, List.mem_map]

/-- The ids a call resolves are the ones of the dictionary. -/
theorem idOf_of_resolvedContracts {d : Dict Bytes32} {missing : List (Text × Bytes32)} {key : Text} {id : Nat}
    (h : resolvedContracts d missing key = some id) : ∃ raw, (key, raw) ∈ missing ∧ d.idOf raw = some id := by
  unfold resolvedContracts at h
  obtain ⟨⟨key', raw⟩, hf, hid⟩ := Option.bind_eq_some_iff.mp h
  split_ifs at hid with hs
  have hkey : key' = key := by simpa using List.find?_some hf
  exact ⟨raw, hkey ▸ List.mem_of_find?_eq_some hf, hid⟩

/-- A key that is resolved has its id in the table. -/
theorem idOf_of_resolvedKeys {κ : Type} [DecidableEq κ] {d : Dict κ} {missing : List κ} {key : κ} {id : Nat}
    (h : resolvedKeys d missing key = some id) : d.idOf key = some id := by
  unfold resolvedKeys at h
  split_ifs at h with hk
  exact h

/-- Merging the ids of a call keeps the caches in agreement with the dictionaries it left. -/
theorem Store.Sound.merged {st : Store} {call : Call} {d d' : Dicts} {rows : List InvocationRow} {ps : List PreparedRow}
    (h : st.Sound d) (hps : rows.mapM prepareRow = .ok ps) (hr : Resolved st call d ps d') :
    (st.merged call d' ps).Sound d' where
  contracts key id hk := by
    rcases mergeInto_eq_some hk with hk | hk
    · obtain ⟨raw, hmem, hid⟩ := idOf_of_resolvedContracts hk
      obtain ⟨p, hp, heq⟩ := mem_wantedContracts.mp (mem_missingContracts.mp hmem).1
      cases heq
      exact ⟨p.raw, decode_of_prepare hps hp, hid⟩
    · exact (h.grows hr.grows).contracts key id hk
  functions key id hk := by
    rcases mergeInto_eq_some hk with hk | hk
    · exact idOf_of_resolvedKeys hk
    · exact (h.grows hr.grows).functions key id hk
  addresses key id hk := by
    rcases mergeInto_eq_some hk with hk | hk
    · exact idOf_of_resolvedKeys hk
    · exact (h.grows hr.grows).addresses key id hk

/-- Every wanted key has an id in the merged map, when those that are not in the old one were resolved. -/
theorem exists_mergeInto_resolvedKeys {κ : Type} [DecidableEq κ] {dst : κ → Option Nat} {wanted missing : List κ} {d : Dict κ}
    (hmissing : ∀ k ∈ wanted, dst k = none → k ∈ missing) (hids : ∀ k ∈ missing, ∃ id, d.idOf k = some id) {k : κ}
    (hk : k ∈ wanted) : ∃ id, mergeInto dst (resolvedKeys d missing) k = some id := by
  cases hc : dst k with
  | some id => exact exists_mergeInto_of_dst _ hc
  | none =>
    have hm := hmissing k hk hc
    obtain ⟨id, hid⟩ := hids k hm
    exact ⟨id, mergeInto_of_src (by rw [resolvedKeys, if_pos hm, hid])⟩

/-- A call finds the id of every function name of its rows. -/
theorem merged_functions {st : Store} {call : Call} {d d' : Dicts} {ps : List PreparedRow} (h : st.Sound d)
    (hr : Resolved st call d ps d') {p : PreparedRow} (hp : p ∈ ps) :
    ∃ id, (st.merged call d' ps).functions p.row.function = some id ∧ d'.functions.idOf p.row.function = some id := by
  have hw : p.row.function ∈ wantedFunctions ps := mem_wantedFunctions.mpr ⟨p, hp, rfl⟩
  obtain ⟨id, hid⟩ := exists_mergeInto_resolvedKeys (fun k hk hc => mem_missingFunctions.mpr ⟨hk, hc⟩)
    (fun k hk => exists_idOf_of_insertAll hr.functions (Or.inr hk)) hw
  refine ⟨id, hid, ?_⟩
  rcases mergeInto_eq_some hid with hk | hk
  · exact idOf_of_resolvedKeys hk
  · exact (h.grows hr.grows).functions _ _ hk

/-! ## What a call can do -/

section Save

variable {acceptsTime : Time → Bool}

/-- What a committed call read and wrote. -/
structure Committed (acceptsTime : Time → Bool) (st : Store) (db : Db) (call : Call) (ledgerSeq : BitVec 32)
    (rows : List InvocationRow) (ps : List PreparedRow) (d : Dicts) (written : List TxRow) (r : Saved) : Prop where
  prepared : rows.mapM prepareRow = .ok ps
  resolved : Resolved st call db.dicts ps d
  accepted : ps.mapM (txRow acceptsTime (st.merged call d ps)) = some written
  store : r.store = st.merged call d ps
  dicts : r.db.dicts = d
  transactions : r.db.transactions = written.foldl insertRow db.transactions
  checkpoints : r.db.checkpoints = advanceWorker db.checkpoints ledgerSeq
  error : r.error = none

/-- What a failed call leaves: everything but the sequences is as it was. -/
structure Failed (st : Store) (db : Db) (r : Saved) : Prop where
  store : r.store = st
  contracts : r.db.dicts.contracts.rows = db.dicts.contracts.rows
  functions : r.db.dicts.functions.rows = db.dicts.functions.rows
  argAddresses : r.db.dicts.argAddresses.rows = db.dicts.argAddresses.rows
  transactions : r.db.transactions = db.transactions
  checkpoints : r.db.checkpoints = db.checkpoints
  error : ∃ e, r.error = some e

theorem failed_rolledBack (st : Store) (db : Db) (d : Dicts) (e : SaveError) : Failed st db (rolledBack st db d e) :=
  ⟨rfl, rfl, rfl, rfl, rfl, rfl, e, rfl⟩

/-- A call fails and leaves everything but the sequences as it was, or it is committed. -/
theorem saveLedger_cases (acceptsTime : Time → Bool) (st : Store) (db : Db) (call : Call) (ledgerSeq : BitVec 32)
    (rows : List InvocationRow) :
    Failed st db (saveLedger acceptsTime st db call ledgerSeq rows) ∨
    ∃ ps d written, Committed acceptsTime st db call ledgerSeq rows ps d written
      (saveLedger acceptsTime st db call ledgerSeq rows) := by
  unfold saveLedger
  split
  · exact Or.inl ⟨rfl, rfl, rfl, rfl, rfl, rfl, _, rfl⟩
  · rename_i ps hps
    split_ifs
    · exact Or.inl ⟨rfl, rfl, rfl, rfl, rfl, rfl, _, rfl⟩
    · split
      · exact Or.inl (failed_rolledBack _ _ _ _)
      · rename_i d hd
        unfold commitBatch
        split
        · exact Or.inl (failed_rolledBack _ _ _ _)
        · rename_i written hw
          split_ifs
          · exact Or.inl (failed_rolledBack _ _ _ _)
          · exact Or.inl (failed_rolledBack _ _ _ _)
          · exact Or.inr ⟨ps, d, written, hps, resolveAll_none hd, hw, rfl, rfl, rfl, rfl, rfl⟩

/-- A call without an error is committed. -/
theorem committed_of_ok {st : Store} {db : Db} {call : Call} {ledgerSeq : BitVec 32} {rows : List InvocationRow}
    (h : (saveLedger acceptsTime st db call ledgerSeq rows).error = none) :
    ∃ ps d written, Committed acceptsTime st db call ledgerSeq rows ps d written
      (saveLedger acceptsTime st db call ledgerSeq rows) := by
  rcases saveLedger_cases acceptsTime st db call ledgerSeq rows with hf | hc
  · obtain ⟨e, he⟩ := hf.error
    rw [h] at he
    cases he
  · exact hc

/-! ## The rows -/

/-- A row that is written holds what its invocation says. -/
theorem txRow_eq {ids : Store} {p : PreparedRow} {r : TxRow} (h : txRow acceptsTime ids p = some r) :
    ∃ args, r = txRow.row ids p args := by
  unfold txRow at h
  split_ifs at h
  split at h
  · cases h
    exact ⟨none, rfl⟩
  · obtain ⟨args, -, rfl⟩ := Option.map_eq_some_iff.mp h
    exact ⟨some args, rfl⟩

/-- The primary key an invocation is stored under. -/
def Invocation.key (inv : Invocation) : Bytes32 × Time := (inv.txHash, inv.closedAt)

/-- The rows of the table after an insert are old ones or new ones. -/
theorem mem_foldl_insertRow {rows txs : List TxRow} {r : TxRow} (h : r ∈ rows.foldl insertRow txs) : r ∈ txs ∨ r ∈ rows := by
  induction rows generalizing txs with
  | nil => exact Or.inl h
  | cons r' rows ih =>
    rw [List.foldl_cons] at h
    rcases ih h with h | h
    · unfold insertRow at h
      split_ifs at h
      · exact Or.inl h
      · rcases List.mem_append.mp h with h | h
        · exact Or.inl h
        · exact Or.inr (List.mem_cons.mpr (Or.inl (List.mem_singleton.mp h)))
    · exact Or.inr (List.mem_cons_of_mem _ h)

/-- Rows that are inserted one after another have the keys that were there and their own. -/
theorem keys_foldl_insertRow {rows txs : List TxRow} {k : Bytes32 × Time} :
    k ∈ (rows.foldl insertRow txs).map TxRow.key ↔ k ∈ txs.map TxRow.key ∨ k ∈ rows.map TxRow.key := by
  induction rows generalizing txs with
  | nil => simp
  | cons r rows ih =>
    rw [List.foldl_cons, ih, List.map_cons, List.mem_cons, ← or_assoc]
    refine or_congr_left ?_
    unfold insertRow
    split_ifs with hr
    · refine ⟨Or.inl, fun h => h.elim id ?_⟩
      rintro rfl
      exact hr
    · rw [List.map_append, List.mem_append, List.map_singleton, List.mem_singleton]

/-- No two stored rows have one key. -/
theorem keys_nodup_foldl_insertRow {rows txs : List TxRow} (h : (txs.map TxRow.key).Nodup) :
    ((rows.foldl insertRow txs).map TxRow.key).Nodup := by
  induction rows generalizing txs with
  | nil => exact h
  | cons r rows ih =>
    rw [List.foldl_cons]
    apply ih
    unfold insertRow
    split_ifs with hr
    · exact h
    · rw [List.map_append, List.map_singleton, ← List.concat_eq_append]
      exact List.Nodup.concat hr h

/-- A committed call wrote one row for each invocation, in their order. -/
theorem Committed.written_of_rows {st : Store} {db : Db} {call : Call} {ledgerSeq : BitVec 32} {rows : List InvocationRow}
    {ps : List PreparedRow} {d : Dicts} {written : List TxRow} {r : Saved}
    (h : Committed acceptsTime st db call ledgerSeq rows ps d written r) :
    List.Forall₂ (fun p row => ∃ args, row = txRow.row (st.merged call d ps) p args) ps written :=
  (forall₂_of_mapM_some h.accepted).imp fun _ _ => txRow_eq

/-- The keys of the rows that are written are those of the rows of the call. -/
theorem Committed.mem_written_keys {st : Store} {db : Db} {call : Call} {ledgerSeq : BitVec 32} {rows : List InvocationRow}
    {ps : List PreparedRow} {d : Dicts} {written : List TxRow} {r : Saved}
    (h : Committed acceptsTime st db call ledgerSeq rows ps d written r) {k : Bytes32 × Time} :
    k ∈ written.map TxRow.key ↔ k ∈ rows.map Invocation.key := by
  have hw := h.written_of_rows
  rw [← map_row_of_prepare h.prepared]
  clear h
  generalize st.merged call d ps = ids at hw
  suffices hkeys : written.map TxRow.key = (ps.map PreparedRow.row).map Invocation.key by rw [hkeys]
  induction hw with
  | nil => rfl
  | cons hp _ ih =>
    obtain ⟨args, rfl⟩ := hp
    rw [List.map_cons, ih]
    rfl

/-- After a committed call the stored keys are the ones that were there and those of the call's rows. -/
theorem Committed.mem_keys {st : Store} {db : Db} {call : Call} {ledgerSeq : BitVec 32} {rows : List InvocationRow}
    {ps : List PreparedRow} {d : Dicts} {written : List TxRow} {r : Saved}
    (h : Committed acceptsTime st db call ledgerSeq rows ps d written r) {k : Bytes32 × Time} :
    k ∈ r.db.transactions.map TxRow.key ↔ k ∈ db.transactions.map TxRow.key ∨ k ∈ rows.map Invocation.key := by
  rw [h.transactions, keys_foldl_insertRow, h.mem_written_keys]

/-- After a committed call a stored row was there, or holds what one of the call's rows says. -/
theorem Committed.mem_transactions {st : Store} {db : Db} {call : Call} {ledgerSeq : BitVec 32} {rows : List InvocationRow}
    {ps : List PreparedRow} {d : Dicts} {written : List TxRow} {r : Saved}
    (h : Committed acceptsTime st db call ledgerSeq rows ps d written r) {row : TxRow} (hrow : row ∈ r.db.transactions) :
    row ∈ db.transactions ∨ ∃ p ∈ ps, p.row ∈ rows ∧ ∃ args, row = txRow.row (st.merged call d ps) p args := by
  rw [h.transactions] at hrow
  rcases mem_foldl_insertRow hrow with hold | hnew
  · exact Or.inl hold
  · obtain ⟨p, hp, args, hargs⟩ := exists_of_forall₂_right h.written_of_rows hnew
    refine Or.inr ⟨p, hp, ?_, args, hargs⟩
    rw [← map_row_of_prepare h.prepared]
    exact List.mem_map_of_mem hp

/-! ## The checkpoint -/

/-- The checkpoint of the worker is at least the ledger. -/
theorem advanceWorker_worker (checkpoints : Text → Option Nat) (ledgerSeq : BitVec 32) :
    (advanceWorker checkpoints ledgerSeq worker).getD 0 = max ((checkpoints worker).getD 0) ledgerSeq.toNat := by
  simp [advanceWorker]

/-- A committed call moves the worker checkpoint forward to its ledger, a failed one leaves it. -/
theorem saveLedger_checkpoint (acceptsTime : Time → Bool) (st : Store) (db : Db) (call : Call) (ledgerSeq : BitVec 32)
    (rows : List InvocationRow) :
    (saveLedger acceptsTime st db call ledgerSeq rows).db.checkpointLedger worker =
      if (saveLedger acceptsTime st db call ledgerSeq rows).error = none
      then max (db.checkpointLedger worker) ledgerSeq.toNat else db.checkpointLedger worker := by
  rcases saveLedger_cases acceptsTime st db call ledgerSeq rows with hf | ⟨ps, d, written, hc⟩
  · obtain ⟨e, he⟩ := hf.error
    rw [if_neg (by rw [he]; simp), Db.checkpointLedger, hf.checkpoints, Db.checkpointLedger]
  · rw [if_pos hc.error, Db.checkpointLedger, hc.checkpoints, advanceWorker_worker, Db.checkpointLedger]

end Save

end Soroscan
