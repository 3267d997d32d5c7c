import Soroscan.Lemmas.Answers
import Soroscan.Theorems.Storable

/-!
# The two plans of a page

Over one state of the database, the windowed scan gives the rows of the streaming plan: the first ones below the cursor, one more
than the limit; or, when it runs out of budget, all of them from the ledger on where it goes on. Ledger 0 stands for no ledger
in the bounds of the scan, so a row on it is not found; the network has no such ledger.
-/

namespace Soroscan

section

variable {acceptsTime : Time → Bool}

/-! ## What the indexer leaves -/

variable {db : Db}

/-- The rows of a page, shown whole. -/
theorem expanded (h : db.Stored) (contractID : Nat) (functionID : Option Nat) (filter : TransactionFilter) {rows : List TxRow}
    (hmem : ∀ r ∈ rows, r ∈ history db contractID functionID filter) :
    ∃ transactions, expandArgs db (rows.filterMap (scanRow db)) = some transactions ∧
      List.Forall₂ (ReadsWhole db) rows transactions := by
  have hstored : ∀ r ∈ rows, r ∈ db.transactions := fun r hr => (mem_history.mp (hmem r hr)).1
  refine expandArgs_readsWhole (forall₂_scanRow fun r hr => ?_) (fun r hr => h.args r (hstored r hr))
    fun r hr => h.notNull r (hstored r hr)
  obtain ⟨name, hname⟩ := h.functions r (hstored r hr)
  rw [scanRow, hname]
  rfl

/-- What a page of the windowed scan is, over the rows it is to find from below a ledger: it shows the first ones. Without a
ledger to go on below they are one more than the limit, or all; with one they are all from it on, at most as many as the
limit. -/
def IsWindowed (db : Db) (rows : List TxRow) (limit below : Nat) (page : Page) : Prop :=
  ∃ found, found <+: rows ∧ List.Forall₂ (ReadsWhole db) found page.transactions ∧
    (page.continueLedger = 0 → found.length = min (limit + 1) rows.length) ∧
    (page.continueLedger ≠ 0 → found.length ≤ limit ∧
      found = (rows.filter fun r => page.continueLedger.toNat ≤ r.ledger) ∧ page.continueLedger.toNat < below)

/-- Cut to the limit, a page that does not go on shows the first rows. -/
theorem IsWindowed.take {rows : List TxRow} {limit below : Nat} {page : Page} (h : IsWindowed db rows limit below page)
    (hzero : page.continueLedger = 0) : List.Forall₂ (ReadsWhole db) (rows.take limit) (page.transactions.take limit) := by
  obtain ⟨found, hprefix, hreads, hfull, -⟩ := h
  have hfound : found.take limit = rows.take limit := by
    rw [List.prefix_iff_eq_take.mp hprefix, hfull hzero, List.take_take]
    by_cases hlen : limit ≤ rows.length
    · rw [min_eq_left (by omega)]
    · rw [List.take_of_length_le (by omega), List.take_of_length_le (by omega)]
  rw [← hfound]
  exact List.forall₂_take limit hreads

end

end Soroscan
