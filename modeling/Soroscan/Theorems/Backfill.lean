import Soroscan.Lemmas.Backfill
import Soroscan.Theorems.Follower

/-!
# What a range checkpoint claims

Over every run of any number of followers and backfills, with failures, stops and restarts at any point: every ledger from the
first one of a range up to its checkpoint has been fetched, extracted and saved.
-/

namespace Soroscan

section

variable {scValString : ScVal → Bytes} {acceptsTime : Time → Bool} {archive : BitVec 32 → LedgerCloseMeta}

/-- A ledger that was fetched, extracted and saved. The rows of its invocations are in the database. -/
structure KeptLedger (scValString : ScVal → Bytes) (archive : BitVec 32 → LedgerCloseMeta) (w : World) (q : BitVec 32) : Prop where
  saved : q ∈ w.saved
  rows : ∃ result, extract scValString (archive q) = some result ∧
    ∀ inv ∈ result.invocations, inv.key ∈ w.db.transactions.map TxRow.key

/-- Every range checkpoint is a ledger number, and the ledgers it claims are kept. -/
def ClaimsKept (scValString : ScVal → Bytes) (archive : BitVec 32 → LedgerCloseMeta) (w : World) : Prop :=
  ∀ (start stop : BitVec 32) (k : Nat), w.rangeCheckpoint start stop = some k → start.toNat ≤ k →
    k ≤ lastLedger ∧ ∀ q : BitVec 32, start ≤ q → q.toNat ≤ k → KeptLedger scValString archive w q

/-- The saved ledgers were extracted. -/
def SavedAreExtracted (scValString : ScVal → Bytes) (archive : BitVec 32 → LedgerCloseMeta) (w : World) : Prop :=
  ∀ q ∈ w.saved, ∃ result, extract scValString (archive q) = some result

theorem SavedAreExtracted.step {w w' : World} {e : Event} (hx : SavedAreExtracted scValString archive w)
    (h : step scValString acceptsTime archive w e = some w') : SavedAreExtracted scValString archive w' := by
  cases hsaves : e.saves with
  | false =>
    intro q hq
    rw [(quietStep_of_step hsaves h).saved] at hq
    exact hx q hq
  | true =>
    cases steps_of_step h with
    | followSaves _ hresult =>
      intro q hq
      rcases List.mem_cons.mp hq with rfl | hq
      · exact ⟨_, hresult⟩
      · exact hx q hq
    | batchSaves _ _ _ hresults =>
      intro q hq
      rcases List.mem_append.mp hq with hq | hq
      · obtain ⟨result, -, hresult⟩ := exists_of_forall₂_left hresults hq
        exact ⟨result, hresult⟩
      · exact hx q hq
    | _ => cases hsaves

/-- A saved ledger is kept. -/
theorem kept_of_saved {w : World} (hx : SavedAreExtracted scValString archive w) (hk : RowsKept scValString archive w)
    {q : BitVec 32} (hq : q ∈ w.saved) : KeptLedger scValString archive w q := by
  obtain ⟨result, hresult⟩ := hx q hq
  refine ⟨hq, result, hresult, fun inv hinv => hk.present q hq inv ?_⟩
  rw [archived_of_extract hresult]
  exact hinv

/-- In a run from an empty database, no range checkpoint ever claims a ledger that was not fetched, extracted and saved. -/
theorem range_checkpoint_claims_kept (hdel : Delivers scValString archive) (es : List Event) :
    ∀ w ∈ states (step scValString acceptsTime archive) World.start es, ClaimsKept scValString archive w := by
  have hinv : ∀ w ∈ states (step scValString acceptsTime archive) World.start es,
      w.Ranges ∧ SavedAreExtracted scValString archive w ∧ RowsKept scValString archive w :=
    states_invariant (fun w e w' hi h => ⟨hi.1.step h, hi.2.1.step h, hi.2.2.step hdel h⟩)
      ⟨World.ranges_start, (fun q hq => by cases hq), RowsKept.start⟩ es
  intro w hw start stop k hk _
  obtain ⟨hranges, hx, hrows⟩ := hinv w hw
  exact ⟨hranges.bounded start stop k hk, fun q hq hle => kept_of_saved hx hrows (hranges.claimed start stop k hk q hq hle)⟩

end

/-- A backfill of ledgers 5 to 7 in batches of two is stopped after its first batch has its checkpoint, and another one goes on. -/
def stoppedBackfill : List Event :=
  [.startBackfill 0 5 7 2, .batchSaves 0 Call.plain, .batchCheckpoint 0, .stop 0, .startBackfill 1 5 7 64, .batchSaves 1 Call.plain]

/-- Its checkpoint is 6, although ledger 7 is saved too. -/
theorem range_checkpoint_claims_kept_stopped :
    ((run (step (fun _ => []) (fun _ => true) quietArchive) World.start stoppedBackfill).map fun w =>
        (w.rangeCheckpoint 5 7, w.saved)) = some (some 6, [7, 5, 6]) ∧
      ∀ w ∈ states (step (fun _ => []) (fun _ => true) quietArchive) World.start stoppedBackfill,
        ClaimsKept (fun _ => []) quietArchive w :=
  ⟨by decide, range_checkpoint_claims_kept delivers_quietArchive _⟩

end Soroscan
