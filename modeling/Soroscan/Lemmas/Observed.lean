import Soroscan.Lemmas.Save

/-!
# What the stored rows say

A row of the table names its contract and its function by dictionary ids; `Db.observe` puts the strkey and the name back, so
that rows of databases that handed out different ids can be compared. A row that a call writes for an invocation says what the
invocation says, and goes on saying it while the dictionaries grow.
-/

namespace Soroscan

/-- What is observed of one row: the contract's strkey, the transaction, the ledger and its close time, the function and the
fee. -/
structure Observed where
  contract : Text
  txHash : Bytes32
  ledger : Nat
  closedAt : Time
  function : Bytes
  feeCharged : Int
  deriving DecidableEq

/-- What a row says, if the dictionaries have its ids. -/
def Dicts.observe (d : Dicts) (r : TxRow) : Option Observed :=
  (d.contracts.keyOf r.contractId).bind fun raw => (d.functions.keyOf r.function).map fun name =>
    { contract := contractStrkey raw, txHash := r.txHash, ledger := r.ledger, closedAt := r.ledgerClosedAt,
      function := name, feeCharged := r.feeCharged }

/-- What the rows of a database say. -/
def Db.observed (db : Db) : List Observed := db.transactions.filterMap db.dicts.observe

/-- The strkey of the contract that a text names, however it spells it. -/
def namedContract (contractID : Text) : Text := ((decodeStrkey contractID strkeyVersionContract).map contractStrkey).getD []

/-- What an invocation says: the strkey of the contract it names, and the rest as it is. -/
def Invocation.observed (inv : Invocation) : Observed where
  contract := namedContract inv.contractID
  txHash := inv.txHash
  ledger := inv.ledger.toNat
  closedAt := inv.closedAt
  function := inv.function
  feeCharged := inv.feeCharged

/-- The contract id is the strkey of a contract. -/
def Invocation.Canonical (inv : Invocation) : Prop := ∃ id, inv.contractID = contractStrkey id

/-- A row that says something says it under grown dictionaries. -/
theorem Dicts.Grows.observe {d d' : Dicts} (h : d.Grows d') {r : TxRow} {o : Observed} (ho : d.observe r = some o) :
    d'.observe r = some o := by
  unfold Dicts.observe at ho ⊢
  obtain ⟨raw, hraw, ho⟩ := Option.bind_eq_some_iff.mp ho
  obtain ⟨name, hname, ho⟩ := Option.map_eq_some_iff.mp ho
  rw [h.contracts.keyOf hraw, Option.bind_some, h.functions.keyOf hname, Option.map_some, ho]

/-- No two rows spell one contract id differently. -/
def OneSpelling (rows : List InvocationRow) : Prop :=
  ∀ row ∈ rows, ∀ row' ∈ rows, ∀ raw, decodeStrkey row.contractID strkeyVersionContract = some raw →
    decodeStrkey row'.contractID strkeyVersionContract = some raw → row.contractID = row'.contractID

/-- The strkey of a contract is one spelling. -/
theorem oneSpelling_of_canonical {rows : List InvocationRow} (hcanon : ∀ row ∈ rows, row.Canonical) : OneSpelling rows := by
  intro row hrow row' hrow' raw hraw hraw'
  obtain ⟨id, hid⟩ := hcanon row hrow
  obtain ⟨id', hid'⟩ := hcanon row' hrow'
  rw [hid, decodeStrkey_contractStrkey] at hraw
  rw [hid', decodeStrkey_contractStrkey] at hraw'
  rw [hid, hid', Option.some.inj hraw, Option.some.inj hraw']

/-- A missing contract is the strkey of a row and the raw id it was read as. -/
theorem row_of_missingContracts {st : Store} {call : Call} {rows : List InvocationRow} {ps : List PreparedRow}
    (hps : rows.mapM prepareRow = .ok ps) {k : Text × Bytes32} (hk : k ∈ missingContracts st call ps) :
    ∃ row ∈ rows, row.contractID = k.1 ∧ decodeStrkey k.1 strkeyVersionContract = some k.2 := by
  obtain ⟨p, hp, rfl⟩ := mem_wantedContracts.mp (mem_missingContracts.mp hk).1
  refine ⟨p.row, ?_, rfl, decode_of_prepare hps hp⟩
  rw [← map_row_of_prepare hps]
  exact List.mem_map_of_mem hp

/-- A raw id of the missing contracts leads back to its strkey. -/
theorem strkeyByRaw_missing {st : Store} {call : Call} {rows : List InvocationRow} {ps : List PreparedRow}
    (hps : rows.mapM prepareRow = .ok ps) (hone : OneSpelling rows) {key : Text} {raw : Bytes32}
    (hmem : (key, raw) ∈ missingContracts st call ps) : strkeyByRaw (missingContracts st call ps) raw = some key := by
  unfold strkeyByRaw
  cases hf : (missingContracts st call ps).reverse.find? fun k => decide (k.2 = raw) with
  | none =>
    have := List.find?_eq_none.mp hf (key, raw) (List.mem_reverse.mpr hmem)
    simp at this
  | some k =>
    have hraw : k.2 = raw := by simpa using List.find?_some hf
    obtain ⟨row, hrow, hkey, hdecode⟩ := row_of_missingContracts hps (List.mem_reverse.mp (List.mem_of_find?_eq_some hf))
    obtain ⟨row', hrow', hkey', hdecode'⟩ := row_of_missingContracts hps hmem
    rw [hraw] at hdecode
    rw [Option.map_some, ← hkey]
    exact congrArg some ((hone row hrow row' hrow' raw (hkey ▸ hdecode) (hkey' ▸ hdecode')).trans hkey')

/-- A missing contract is resolved to the id its raw id has. -/
theorem resolvedContracts_missing {st : Store} {call : Call} {rows : List InvocationRow} {ps : List PreparedRow}
    (hps : rows.mapM prepareRow = .ok ps) (hone : OneSpelling rows) {d : Dict Bytes32} {key : Text} {raw : Bytes32} {id : Nat}
    (hmem : (key, raw) ∈ missingContracts st call ps) (hid : d.idOf raw = some id) :
    resolvedContracts d (missingContracts st call ps) key = some id := by
  have hfind : (missingContracts st call ps).find? (fun k => k.1 = key) = some (key, raw) := by
    cases hf : (missingContracts st call ps).find? fun k => k.1 = key with
    | none =>
      have := List.find?_eq_none.mp hf _ hmem
      simp at this
    | some k =>
      have hkey : k.1 = key := by simpa using List.find?_some hf
      obtain ⟨-, -, -, hdecode⟩ := row_of_missingContracts hps (List.mem_of_find?_eq_some hf)
      obtain ⟨-, -, -, hdecode'⟩ := row_of_missingContracts hps hmem
      rw [hkey, hdecode', Option.some.injEq] at hdecode
      exact congrArg some (Prod.ext hkey hdecode.symm)
  rw [resolvedContracts, hfind, Option.bind_some, if_pos (strkeyByRaw_missing hps hone hmem)]
  exact hid

/-- A call finds the id of the contract of every row, if none is spelled in two ways. -/
theorem merged_contracts {st : Store} {call : Call} {d d' : Dicts} {rows : List InvocationRow} {ps : List PreparedRow}
    (h : st.Sound d) (hps : rows.mapM prepareRow = .ok ps) (hone : OneSpelling rows)
    (hr : Resolved st call d ps d') {p : PreparedRow} (hp : p ∈ ps) :
    ∃ id, (st.merged call d' ps).contracts p.row.contractID = some id ∧ d'.contracts.idOf p.raw = some id := by
  have hw : (p.row.contractID, p.raw) ∈ wantedContracts ps := mem_wantedContracts.mpr ⟨p, hp, rfl⟩
  have hdecode := decode_of_prepare hps hp
  have hsound := h.merged hps hr
  suffices hsome : ∃ id, (st.merged call d' ps).contracts p.row.contractID = some id by
    obtain ⟨id, hid⟩ := hsome
    obtain ⟨raw, hraw, hidOf⟩ := hsound.contracts _ _ hid
    rw [hdecode, Option.some.injEq] at hraw
    exact ⟨id, hid, by rw [hraw]; exact hidOf⟩
  cases hc : st.contracts p.row.contractID with
  | some id => exact exists_mergeInto_of_dst _ hc
  | none =>
    have hm : (p.row.contractID, p.raw) ∈ missingContracts st call ps := mem_missingContracts.mpr ⟨hw, hc⟩
    obtain ⟨id, hid⟩ := exists_idOf_of_insertAll hr.contracts (Or.inr (List.mem_map_of_mem hm))
    exact ⟨id, mergeInto_of_src (resolvedContracts_missing hps hone hm hid)⟩

section Save

variable {acceptsTime : Time → Bool}

/-- A row that a committed call writes says what its invocation says, if the call spells no contract id in two ways. -/
theorem Committed.observe_written {st : Store} {db : Db} {call : Call} {ledgerSeq : BitVec 32} {rows : List InvocationRow}
    {ps : List PreparedRow} {d : Dicts} {written : List TxRow} {r : Saved}
    (h : Committed acceptsTime st db call ledgerSeq rows ps d written r) (hsound : st.Sound db.dicts)
    (hone : OneSpelling rows) {p : PreparedRow} (hp : p ∈ ps) (args : Option Json) :
    d.observe (txRow.row (st.merged call d ps) p args) = some p.row.observed := by
  obtain ⟨cid, hcid, hcidOf⟩ := merged_contracts hsound h.prepared hone h.resolved hp
  obtain ⟨fid, hfid, hfidOf⟩ := merged_functions hsound h.resolved hp
  have hc : d.contracts.keyOf cid = some p.raw := Dict.keyOf_eq_some_iff_idOf.mpr hcidOf
  have hf : d.functions.keyOf fid = some p.row.function := Dict.keyOf_eq_some_iff_idOf.mpr hfidOf
  have hnamed : namedContract p.row.contractID = contractStrkey p.raw := by
    rw [namedContract, decode_of_prepare h.prepared hp, Option.map_some, Option.getD_some]
  simp [Dicts.observe, txRow.row, Invocation.observed, hnamed, hcid, hfid, hc, hf]

end Save

end Soroscan
