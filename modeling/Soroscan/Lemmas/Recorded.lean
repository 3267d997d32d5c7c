import Soroscan.Lemmas.Answers
import Soroscan.Lemmas.Sequences
import Soroscan.Lemmas.Sessions

/-!
# Rows that record an invocation

A row records an invocation when its ids lead back to the contract, the function and the addresses that the invocation names, and
the rest of it is the invocation's own. A committed call writes such rows, they stay so while the dictionaries grow, and what is
shown of them is the invocation.
-/

namespace Soroscan

/-- The row carries the whole of the invocation. -/
structure Records (d : Dicts) (inv : Invocation) (r : TxRow) : Prop extends Carries d inv r where
  contract : CarriesContract d inv r

theorem Records.grows {d d' : Dicts} {inv : Invocation} {r : TxRow} (h : Records d inv r) (hg : d.Grows d') : Records d' inv r :=
  ⟨h.toCarries.grows hg, h.contract.grows hg⟩

theorem Records.key_eq {d : Dicts} {inv : Invocation} {r : TxRow} (h : Records d inv r) : r.key = inv.key := by
  rw [TxRow.key, Invocation.key, h.txHash, h.closedAt]

section

variable {acceptsTime : Time → Bool}

/-! ## Written rows -/

/-- A committed call has an id for every key of its rows. -/
theorem Committed.hasIDs {st : Store} {db : Db} {call : Call} {ledgerSeq : BitVec 32} {rows : List InvocationRow}
    {ps : List PreparedRow} {d : Dicts} {written : List TxRow} {r : Saved}
    (h : Committed acceptsTime st db call ledgerSeq rows ps d written r) (hsound : st.Sound db.dicts) :
    HasIDs (st.merged call d ps) rows ps where
  contracts hone _ hp := (merged_contracts hsound h.prepared hone h.resolved hp).imp fun _ hid => hid.1
  functions _ hname := exists_mergeInto_resolvedKeys (fun _ hk hc => mem_missingFunctions.mpr ⟨hk, hc⟩)
    (fun _ hk => exists_idOf_of_insertAll h.resolved.functions (Or.inr hk)) hname
  addresses _ ha := exists_mergeInto_resolvedKeys (fun _ hk hc => mem_missingAddresses.mpr ⟨hk, hc⟩)
    (fun _ hk => exists_idOf_of_insertAll h.resolved.addresses (Or.inr hk)) ha

/-- A committed call leaves the sequence of the addresses within its column. -/
theorem Committed.last_le {st : Store} {db : Db} {call : Call} {ledgerSeq : BitVec 32} {rows : List InvocationRow}
    {ps : List PreparedRow} {d : Dicts} {written : List TxRow} {r : Saved}
    (h : Committed acceptsTime st db call ledgerSeq rows ps d written r) (hlast : db.dicts.argAddresses.last ≤ serialMax) :
    d.argAddresses.last ≤ serialMax := by
  have htaken := Dict.insertAll_last serialMax db.dicts.argAddresses (missingAddresses st call ps) hlast
  rw [h.resolved.addresses] at htaken
  exact htaken.trans_le (min_le_right _ _)

/-- Each row of a table after a committed call was there before, or records an invocation of the call. -/
theorem Committed.records {st : Store} {db : Db} {call : Call} {ledgerSeq : BitVec 32} {rows : List InvocationRow}
    {ps : List PreparedRow} {d : Dicts} {written : List TxRow} {s : Saved}
    (h : Committed acceptsTime st db call ledgerSeq rows ps d written s) (hsound : st.Sound db.dicts)
    (hlast : db.dicts.argAddresses.last ≤ serialMax) (hcanon : ∀ row ∈ rows, row.Canonical) {r : TxRow}
    (hr : r ∈ s.db.transactions) : r ∈ db.transactions ∨ ∃ inv ∈ rows, Records s.db.dicts inv r := by
  rw [h.transactions] at hr
  rcases mem_foldl_insertRow hr with hr | hr
  · exact Or.inl hr
  · obtain ⟨p, hp, hrow⟩ := exists_of_forall₂_right (forall₂_of_mapM_some h.accepted) hr
    have hids := hsound.merged h.prepared h.resolved
    have hall := h.hasIDs hsound
    have hmem : p.row ∈ rows := by
      rw [← map_row_of_prepare h.prepared]
      exact List.mem_map_of_mem hp
    rw [h.dicts]
    exact Or.inr ⟨p.row, hmem, carries_of_txRow hids (h.last_le hlast) h.prepared hall hp hrow,
      carriesContract_of_txRow hids hall (oneSpelling_of_canonical hcanon) hp hrow⟩

/-! ## The sequence of the addresses -/

theorem proposeKeys_last_le {κ : Type} [DecidableEq κ] (call : Call) (stage : Stage) {limit : Nat} {d : Dict κ} (keys : List κ)
    (hd : d.last ≤ limit) : (proposeKeys call stage limit d keys).1.last ≤ limit :=
  (proposeKeys_last call stage keys hd).trans_le (min_le_right _ _)

/-- The resolve statements leave the sequence of the addresses within its column. -/
theorem resolveAll_last_le (st : Store) (call : Call) {d : Dicts} (ps : List PreparedRow)
    (hlast : d.argAddresses.last ≤ serialMax) : (resolveAll st call d ps).1.argAddresses.last ≤ serialMax := by
  have hproposed := proposeKeys_last_le call .addresses (missingAddresses st call ps) hlast
  unfold resolveAll
  split
  · exact hlast
  · split_ifs
    · split
      · exact hlast
      · split
        rename_i heq
        rwa [heq] at hproposed
    · exact hlast

/-- Every call, committed or not, leaves the sequence of the addresses within its column. -/
theorem saveLedger_last_le (acceptsTime : Time → Bool) (st : Store) {db : Db} (call : Call) (ledgerSeq : BitVec 32)
    (rows : List InvocationRow) (hlast : db.dicts.argAddresses.last ≤ serialMax) :
    (saveLedger acceptsTime st db call ledgerSeq rows).db.dicts.argAddresses.last ≤ serialMax := by
  unfold saveLedger
  split
  · exact hlast
  · rename_i ps _
    have hresolved := resolveAll_last_le st call ps hlast
    split_ifs
    · exact hlast
    · split <;> rename_i heq <;> rw [heq] at hresolved
      · exact max_le hlast hresolved
      · unfold commitBatch
        split
        · exact max_le hlast hresolved
        · split_ifs
          · exact max_le hlast hresolved
          · exact max_le hlast hresolved
          · exact hresolved

end

/-! ## What is shown -/

/-- The text of the arguments of an invocation: the value they are read as, printed. -/
def Invocation.argsText (inv : Invocation) : Option Text :=
  match parsedArgsOf inv.argsJSON with
  | .ok parsed => parsed.map Json.marshal
  | .error _ => none

/-- No object of the arguments reads as a placeholder. -/
def Invocation.PlainArgs (inv : Invocation) : Prop := ∀ v, parsedArgsOf inv.argsJSON = .ok (some v) → Plain v

/-- What the endpoint is to show of an invocation. -/
def Invocation.out (inv : Invocation) : TransactionOut where
  txHash := hexText inv.txHash.bytes
  ledger := inv.ledger
  closedAt := inv.closedAt
  function := inv.function
  args := argsOrNull inv.argsText
  feeCharged := intDecimal inv.feeCharged

/-- An answer's row shows an invocation: everything but the arguments, and these too if none of them reads as a placeholder. -/
structure Presents (o : TransactionOut) (inv : Invocation) : Prop where
  rest : { o with args := [] } = { inv.out with args := [] }
  args : inv.PlainArgs → o = inv.out

end Soroscan
