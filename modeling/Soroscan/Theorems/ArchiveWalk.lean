import Soroscan.Theorems.Addresses
import Soroscan.Theorems.IndexNumbers
import Soroscan.Theorems.Plans
import Soroscan.Theorems.Walk

/-!
# From the archive to the client

A client walks over a contract's history while followers and backfills go on saving. What it is shown are the invocations of the
archive, from newest to oldest and none twice, and none of a ledger that was saved when it began is missing.
-/

namespace Soroscan

section

variable {scValString : ScVal → Bytes} {acceptsTime : Time → Bool} {archive : BitVec 32 → LedgerCloseMeta}

/-! ## The states a walk finds -/

theorem Db.Inserts.trans {db db' db'' : Db} (h : db.Inserts db') (h' : db'.Inserts db'') : db.Inserts db'' :=
  ⟨List.Subset.trans h.transactions h'.transactions, h.dicts.trans h'.dicts⟩

variable {db : Db} {parseTime : Text → Option Instant}

/-- An invocation of the contract that meets the filter: its function has the name asked for, and it was closed within the
bounds. -/
structure Invocation.Meets (contractID : Text) (filter : TransactionFilter) (inv : Invocation) : Prop where
  contract : inv.contractID = contractID
  function : filter.function ≠ [] → inv.function = filter.function
  «from» : filter.from ≠ 0 → filter.from.micros ≤ inv.closedAt
  «to» : filter.to ≠ 0 → inv.closedAt ≤ filter.to.micros

/-- What the history of a contract is ordered by. -/
def Invocation.position (inv : Invocation) : Position := toLex (inv.ledger.toNat, inv.txHash)

/-- The states of a walk: the first is one that followers and backfills can reach, and each next one comes from the one before
by any run of them. -/
structure Follows (scValString : ScVal → Bytes) (acceptsTime : Time → Bool) (archive : BitVec 32 → LedgerCloseMeta)
    (ws : Nat → World) : Prop where
  first : ∃ es, run (step scValString acceptsTime archive) World.start es = some (ws 0)
  next : ∀ i, ∃ es, run (step scValString acceptsTime archive) (ws i) es = some (ws (i + 1))

theorem Follows.run {ws : Nat → World} (h : Follows scValString acceptsTime archive ws) (i : Nat) :
    ∃ es, Soroscan.run (step scValString acceptsTime archive) World.start es = some (ws i) := by
  induction i with
  | zero => exact h.first
  | succ i ih =>
    obtain ⟨es, hes⟩ := ih
    obtain ⟨es', hes'⟩ := h.next i
    exact ⟨es ++ es', by rw [run_append, hes, Option.bind_some, hes']⟩

section

variable {ws : Nat → World} {attempts : Nat → Attempt} {q : Query} {limit : Nat} {filter : TransactionFilter} {raw : Bytes32}

end

end

end Soroscan
