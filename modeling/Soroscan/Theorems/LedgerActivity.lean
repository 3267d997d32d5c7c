import Soroscan.LedgerActivity

/-!
# The list of a ledger's operations

Eight pages of two hundred operations are loaded at most. The entries are the first operations of the ledger, one entry for each
transaction, whatever page boundaries fall into it. Whether more were there is not known after the last page: the flag only says
that this page was full.
-/

namespace Soroscan

section

variable {Token Detail : Type}

/-! ## Grouping -/

/-- The entries are the records grouped by their transaction. -/
structure Grouped (records : List (OperationRecord Token Detail)) (entries : List (HistoryEntry Token Detail)) : Prop where
  operations : entries.flatMap HistoryEntry.operations = records
  own : ∀ entry ∈ entries, ∀ operation ∈ entry.operations, operation.transactionHash = entry.hash
  lastToken : ∀ entry ∈ entries, entry.operations.getLast?.map OperationRecord.pagingToken = some entry.lastToken
  hashes : (entries.map HistoryEntry.hash).Nodup

namespace Grouped

variable {records : List (OperationRecord Token Detail)} {entries : List (HistoryEntry Token Detail)}

theorem nil : Grouped ([] : List (OperationRecord Token Detail)) [] :=
  ⟨rfl, fun _ h => absurd h List.not_mem_nil, fun _ h => absurd h List.not_mem_nil, List.nodup_nil⟩

/-- No entry is empty. -/
theorem exists_mem (h : Grouped records entries) {entry : HistoryEntry Token Detail} (hentry : entry ∈ entries) :
    ∃ operation ∈ entry.operations, operation.transactionHash = entry.hash := by
  obtain ⟨operation, hlast, -⟩ := Option.map_eq_some_iff.mp (h.lastToken entry hentry)
  have hmem := List.mem_of_getLast? hlast
  exact ⟨operation, hmem, h.own entry hentry operation hmem⟩

/-- An entry of its own for a record of another transaction than those before. -/
theorem append (h : Grouped records entries) (record : OperationRecord Token Detail)
    (hnew : ∀ entry ∈ entries, entry.hash ≠ record.transactionHash) :
    Grouped (records ++ [record]) (entries ++ [⟨record.transactionHash, record.pagingToken, [record]⟩]) := by
  refine ⟨?_, ?_, ?_, ?_⟩
  · rw [List.flatMap_append, h.operations]
    rfl
  · rintro entry hentry operation hoperation
    rcases List.mem_append.mp hentry with hentry | hentry
    · exact h.own entry hentry operation hoperation
    · rw [List.mem_singleton.mp hentry] at hoperation ⊢
      rw [List.mem_singleton.mp hoperation]
  · intro entry hentry
    rcases List.mem_append.mp hentry with hentry | hentry
    · exact h.lastToken entry hentry
    · rw [List.mem_singleton.mp hentry]
      rfl
  · rw [List.map_append, List.nodup_append]
    refine ⟨h.hashes, List.nodup_singleton _, ?_⟩
    rintro _ hhash _ hsingle rfl
    obtain ⟨entry, hentry, heq⟩ := List.mem_map.mp hhash
    exact hnew entry hentry (heq.trans (List.mem_singleton.mp hsingle))

/-- A record of the transaction of the last entry. -/
theorem join {front : List (HistoryEntry Token Detail)} {current : HistoryEntry Token Detail}
    (h : Grouped records (front ++ [current])) {record : OperationRecord Token Detail}
    (hhash : current.hash = record.transactionHash) :
    Grouped (records ++ [record])
      (front ++ [{ current with operations := current.operations ++ [record], lastToken := record.pagingToken }]) := by
  refine ⟨?_, ?_, ?_, ?_⟩
  · rw [← h.operations, List.flatMap_append, List.flatMap_append, List.flatMap_singleton, List.flatMap_singleton,
      List.append_assoc]
  · rintro entry hentry operation hoperation
    rcases List.mem_append.mp hentry with hentry | hentry
    · exact h.own entry (List.mem_append_left _ hentry) operation hoperation
    · rw [List.mem_singleton.mp hentry] at hoperation ⊢
      rcases List.mem_append.mp hoperation with hoperation | hoperation
      · exact h.own current (List.mem_append_right _ List.mem_cons_self) operation hoperation
      · rw [List.mem_singleton.mp hoperation]
        exact hhash.symm
  · intro entry hentry
    rcases List.mem_append.mp hentry with hentry | hentry
    · exact h.lastToken entry (List.mem_append_left _ hentry)
    · rw [List.mem_singleton.mp hentry, List.getLast?_append]
      rfl
  · have hhashes := h.hashes
    rw [List.map_append] at hhashes ⊢
    exact hhashes

/-- One round keeps the entries grouped while the operations of a transaction are adjacent. -/
theorem groupRecord (h : Grouped records entries) {record : OperationRecord Token Detail}
    (hadjacent : Contiguous OperationRecord.transactionHash (records ++ [record])) :
    Grouped (records ++ [record]) (groupRecord entries record) := by
  unfold Soroscan.groupRecord
  cases hlast : entries.getLast? with
  | none =>
    rw [List.getLast?_eq_none_iff.mp hlast] at h ⊢
    exact h.append record fun _ hentry => absurd hentry List.not_mem_nil
  | some current =>
    obtain ⟨front, rfl⟩ := List.getLast?_eq_some_iff.mp hlast
    dsimp only
    by_cases hhash : current.hash = record.transactionHash
    · rw [if_pos hhash, List.dropLast_concat]
      exact h.join hhash
    · rw [if_neg hhash]
      refine h.append record fun entry hentry => ?_
      obtain ⟨operation, hoperation, howner⟩ := h.exists_mem hentry
      obtain ⟨last, hmemLast, hlastHash⟩ := h.exists_mem (List.mem_append_right front List.mem_cons_self)
      rcases List.mem_append.mp hentry with hfront | hcurrent
      · rw [← h.operations, List.flatMap_append, List.flatMap_singleton] at hadjacent
        rw [← howner]
        exact hadjacent.not_mem hmemLast (by rwa [hlastHash]) (List.mem_flatMap.mpr ⟨entry, hfront, hoperation⟩)
      · rw [List.mem_singleton.mp hcurrent]
        exact hhash

end Grouped

/-- The operations are grouped by their transaction when those of a transaction are adjacent. -/
theorem grouped_groupByTransaction {records : List (OperationRecord Token Detail)}
    (hadjacent : Contiguous OperationRecord.transactionHash records) : Grouped records (groupByTransaction records) := by
  unfold groupByTransaction
  induction records using List.reverseRecOn with
  | nil => exact Grouped.nil
  | append_singleton records record ih =>
    rw [List.foldl_concat]
    exact (ih (hadjacent.sublist (List.sublist_append_left _ _))).groupRecord hadjacent

/-! ## Loading -/

variable [LinearOrder Token]

/-- Horizon answers every request. -/
def ClosedLedger.fetch (ε : Type) (ledger : ClosedLedger Token Detail) (limit : Nat) (cursor : Option Token) :
    Except ε (List (OperationRecord Token Detail)) := .ok (ledger.page limit cursor)

/-- The load after the first operations of a ledger. -/
def ClosedLedger.loaded (ledger : ClosedLedger Token Detail) (count : Nat) (truncated : Bool) : LedgerLoad Token Detail :=
  ⟨ledger.operations.take count, (ledger.operations.take count).getLast?.map OperationRecord.pagingToken, truncated⟩

/-- One round ends the load on a page that is not full, or goes on behind it. -/
theorem loadPages_succ {ε : Type} (ledger : ClosedLedger Token Detail) (left : Nat) {count : Nat}
    (hcount : count ≤ ledger.operations.length) :
    loadPages (ledger.fetch ε) (left + 1) (ledger.loaded count false) =
      if ledger.operations.length < count + ledgerOpsPage then
        .ok { ledger.loaded count false with records := ledger.operations.take (count + ledgerOpsPage) }
      else loadPages (ledger.fetch ε) left (ledger.loaded (count + ledgerOpsPage) (decide (left = 0))) := by
  have hbatch : ledger.page ledgerOpsPage (ledger.loaded count false).cursor =
      (ledger.operations.drop count).take ledgerOpsPage := by
    rw [ClosedLedger.page, ClosedLedger.loaded, behind_take ledger.ascending hcount]
  have hrecords : (ledger.loaded count false).records ++ (ledger.operations.drop count).take ledgerOpsPage =
      ledger.operations.take (count + ledgerOpsPage) := List.take_add.symm
  have hshort : ((ledger.operations.drop count).take ledgerOpsPage).length < ledgerOpsPage ↔
      ledger.operations.length < count + ledgerOpsPage := by
    rw [List.length_take, List.length_drop]
    omega
  have hround : loadPages (ledger.fetch ε) (left + 1) (ledger.loaded count false) =
      if (ledger.page ledgerOpsPage (ledger.loaded count false).cursor).length < ledgerOpsPage then
        .ok { ledger.loaded count false with
          records := (ledger.loaded count false).records ++ ledger.page ledgerOpsPage (ledger.loaded count false).cursor }
      else loadPages (ledger.fetch ε) left
        ⟨(ledger.loaded count false).records ++ ledger.page ledgerOpsPage (ledger.loaded count false).cursor,
          ((ledger.loaded count false).records ++ ledger.page ledgerOpsPage (ledger.loaded count false).cursor).getLast?.map
            OperationRecord.pagingToken, decide (left = 0)⟩ := rfl
  rw [hround, hbatch, hrecords]
  exact if_congr hshort rfl rfl

/-- The pages that are left load as many more operations, and the flag says whether the last page was full. -/
theorem loadPages_eq {ε : Type} (ledger : ClosedLedger Token Detail) (left : Nat) {count : Nat}
    (hcount : count ≤ ledger.operations.length) :
    ∃ load, loadPages (ledger.fetch ε) (left + 1) (ledger.loaded count false) = .ok load ∧
      load.records = ledger.operations.take (count + ledgerOpsPage * (left + 1)) ∧
      (load.truncated = true ↔ count + ledgerOpsPage * (left + 1) ≤ ledger.operations.length) := by
  induction left generalizing count with
  | zero =>
    rw [loadPages_succ ledger 0 hcount]
    split_ifs with hshort
    · refine ⟨_, rfl, rfl, ?_⟩
      exact iff_of_false Bool.false_ne_true (by omega)
    · refine ⟨_, rfl, rfl, ?_⟩
      exact iff_of_true rfl (by omega)
  | succ left ih =>
    rw [loadPages_succ ledger (left + 1) hcount]
    have hall : count + ledgerOpsPage * (left + 1 + 1) = count + ledgerOpsPage + ledgerOpsPage * (left + 1) := by ring
    rw [hall]
    split_ifs with hshort
    · refine ⟨_, rfl, ?_, iff_of_false Bool.false_ne_true (by omega)⟩
      -- the page was not full, so there is nothing behind it
      rw [List.take_of_length_le (by omega), List.take_of_length_le (by omega)]
    · exact ih (by omega)

/-- `LEDGER_OPS_MAX_PAGES` full pages: the load cap. -/
def ledgerOpsCap : Nat := ledgerOpsPage * ledgerOpsMaxPages

/-- The entries are the first operations of the ledger, grouped by their transaction, and are counted. -/
structure LedgerActivity.Complete (ledger : ClosedLedger Token Detail) (activity : LedgerActivity Token Detail) : Prop where
  grouped : Grouped (ledger.operations.take ledgerOpsCap) activity.entries
  opCount : activity.opCount = min ledger.operations.length ledgerOpsCap

/-- The list of a ledger's operations is complete up to the cap, and the flag says whether it reached the cap. -/
theorem ledgerOperationsQuery_complete (ε : Type) (ledger : ClosedLedger Token Detail) :
    ∃ activity, ledgerOperationsQuery (ledger.fetch ε) = .ok activity ∧ activity.Complete ledger ∧
      (activity.truncated = true ↔ ledgerOpsCap ≤ ledger.operations.length) := by
  obtain ⟨load, hload, hrecords, htruncated⟩ := loadPages_eq (ε := ε) ledger 7 (Nat.zero_le _)
  rw [Nat.zero_add] at hrecords htruncated
  refine ⟨⟨groupByTransaction load.records, load.records.length, load.truncated⟩, ?_, ⟨?_, ?_⟩, htruncated⟩
  · show (loadPages (ledger.fetch ε) ledgerOpsMaxPages ⟨[], none, false⟩ >>= fun load => _) = _
    rw [show loadPages (ledger.fetch ε) ledgerOpsMaxPages ⟨[], none, false⟩ = .ok load from hload]
    rfl
  · rw [hrecords]
    exact grouped_groupByTransaction (ledger.adjacent.sublist (List.take_sublist _ _))
  · show load.records.length = _
    rw [hrecords, List.length_take, min_comm]
    rfl

/-- The list is complete, and the flag is set exactly when the ledger has more operations than the cap. -/
def HonestActivity (ε : Type) (ledger : ClosedLedger Token Detail) : Prop :=
  ∃ activity, ledgerOperationsQuery (ledger.fetch ε) = .ok activity ∧ activity.Complete ledger ∧
    (activity.truncated = true ↔ ledgerOpsCap < ledger.operations.length)

/-- The flag is honest exactly for the ledgers that do not have as many operations as the cap. -/
theorem honestActivity_iff (ε : Type) (ledger : ClosedLedger Token Detail) :
    HonestActivity ε ledger ↔ ledger.operations.length ≠ ledgerOpsCap := by
  obtain ⟨activity, hquery, hcomplete, htruncated⟩ := ledgerOperationsQuery_complete ε ledger
  constructor
  · rintro ⟨activity', hquery', -, hhonest⟩
    obtain rfl : activity = activity' := Except.ok.inj (hquery.symm.trans hquery')
    intro hlength
    have hlt := hhonest.mp (htruncated.mpr hlength.ge)
    omega
  · intro hlength
    refine ⟨activity, hquery, hcomplete, ?_⟩
    rw [htruncated]
    omega

end

/-! ## A ledger of as many operations as are loaded -/

/-- A ledger of as many transactions as the load cap, of one operation each. -/
def fullLedger : ClosedLedger Nat Unit where
  operations := (List.range ledgerOpsCap).map fun i => ⟨i, decimal i, ()⟩
  ascending := List.pairwise_map.mpr List.pairwise_lt_range
  adjacent := by
    have hascending : ((List.range ledgerOpsCap).map fun i => (⟨i, decimal i, ()⟩ : OperationRecord Nat Unit)).Pairwise
        fun a b => a.transactionHash ≠ b.transactionHash :=
      List.pairwise_map.mpr (List.pairwise_lt_range.imp fun hlt heq => absurd (decimal_injective heq) hlt.ne)
    intro a b c hsub heq
    have hdistinct := hascending.sublist hsub
    exact absurd heq (List.rel_of_pairwise_cons hdistinct (List.mem_cons_of_mem _ List.mem_cons_self))

/-- It is loaded whole, and said to be cut off. -/
theorem fullLedger_truncated :
    fullLedger.operations.length = ledgerOpsCap ∧ ¬HonestActivity String fullLedger := by
  have hlength : fullLedger.operations.length = ledgerOpsCap := by
    rw [fullLedger, List.length_map, List.length_range]
  refine ⟨hlength, ?_⟩
  rintro ⟨activity, hquery, -, hhonest⟩
  obtain ⟨activity', hquery', -, htruncated⟩ := ledgerOperationsQuery_complete String fullLedger
  obtain rfl : activity = activity' := Except.ok.inj (hquery.symm.trans hquery')
  have hlt := hhonest.mp (htruncated.mpr hlength.ge)
  omega

end Soroscan
