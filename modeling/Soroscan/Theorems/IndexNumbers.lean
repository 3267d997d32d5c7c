import Soroscan.Theorems.IndexRefines
import Soroscan.Verify

/-!
# The numbers of the index

What the index answers for a ledger, and what the verifier makes of it, while followers and backfills go on saving: the numbers
are those of the archive for a saved ledger and zeros for another one, and the verifier finds exactly the ledgers for which they
differ from the archive's.
-/

namespace Soroscan

section

variable {scValString : ScVal → Bytes} {acceptsTime : Time → Bool} {archive : BitVec 32 → LedgerCloseMeta}

/-! ## The rows of a ledger -/

/-- What the index holds of a ledger. -/
def World.heldOf (scValString : ScVal → Bytes) (archive : BitVec 32 → LedgerCloseMeta) (w : World) (q : BitVec 32) :
    List Invocation :=
  if q ∈ w.saved then archived scValString archive q else []

/-- The invocations of the saved ledgers that carry a sequence number are those of that ledger. -/
theorem perm_filter_invocationsOf (hdel : Delivers scValString archive) (hone : OneEach scValString archive) (w : World)
    (q : BitVec 32) : ((invocationsOf scValString archive w.saved).filter fun inv => inv.ledger = q).Perm
      (w.heldOf scValString archive q) := by
  have hnodup : (w.heldOf scValString archive q).Nodup := by
    unfold World.heldOf
    split_ifs
    · exact List.Nodup.of_map _ (hone.within q)
    · exact List.nodup_nil
  refine (List.perm_ext_iff_of_nodup ((hone.nodup _).filter _) hnodup).mpr fun inv => ?_
  rw [List.mem_filter, mem_invocationsOf, World.heldOf]
  constructor
  · rintro ⟨⟨q', hq', hinv⟩, hledger⟩
    have heq : q' = q := (ledger_of_archived hdel hinv).symm.trans (of_decide_eq_true hledger)
    rw [if_pos (heq ▸ hq')]
    exact heq ▸ hinv
  · intro hinv
    split_ifs at hinv with hq
    · exact ⟨⟨q, hq, hinv⟩, decide_eq_true (ledger_of_archived hdel hinv)⟩
    · cases hinv

/-- The rows of a ledger are those of what the index holds of it. -/
theorem World.Reached.ledgerRows (hdel : Delivers scValString archive) (hone : OneEach scValString archive) {w : World}
    (h : w.Reached scValString archive) (q : BitVec 32) :
    ∃ invs, List.Forall₂ (Records w.db.dicts) invs (w.db.transactions.filter fun r => r.ledger = q.toNat) ∧
      invs.Perm (w.heldOf scValString archive q) := by
  obtain ⟨invs, hinvs, hperm⟩ := h.table hone
  refine ⟨invs.filter fun inv => inv.ledger = q, ?_, (hperm.filter _).trans (perm_filter_invocationsOf hdel hone w q)⟩
  refine List.rel_filter (fun inv r hrecords => ?_) hinvs
  have hledger : inv.ledger = q ↔ r.ledger = q.toNat := by
    rw [hrecords.ledger]
    exact BitVec.toNat_inj.symm
  simpa only [decide_eq_true_eq] using hledger

/-! ## What is answered for a ledger -/

/-- The contract of a recorded strkey. -/
theorem Records.strkey {d : Dicts} {inv : Invocation} {r : TxRow} (h : Records d inv r) (hcanon : inv.Canonical) :
    ∃ raw, inv.contractID = contractStrkey raw ∧ d.contracts.idOf raw = some r.contractId := by
  obtain ⟨raw, hraw, hkey, -⟩ := h.contract
  obtain ⟨key, hid⟩ := hcanon
  rw [hid, decodeStrkey_contractStrkey] at hraw
  cases hraw
  exact ⟨raw, hid, Dict.keyOf_eq_some_iff_idOf.mp hkey⟩

/-- Rows that record strkeys have one contract id exactly when their invocations name one contract. -/
theorem contractId_eq_iff {d : Dicts} {inv inv' : Invocation} {r r' : TxRow} (h : Records d inv r) (h' : Records d inv' r')
    (hcanon : inv.Canonical) (hcanon' : inv'.Canonical) : inv.contractID = inv'.contractID ↔ r.contractId = r'.contractId := by
  obtain ⟨raw, hid, hr⟩ := h.strkey hcanon
  obtain ⟨raw', hid', hr'⟩ := h'.strkey hcanon'
  constructor
  · intro heq
    have hdecoded := congrArg (decodeStrkey · strkeyVersionContract) (hid.symm.trans (heq.trans hid'))
    simp only [decodeStrkey_contractStrkey, Option.some.injEq] at hdecoded
    rw [hdecoded, hr'] at hr
    exact (Option.some.inj hr).symm
  · intro heq
    have hkey := Dict.keyOf_eq_some_iff_idOf.mpr hr
    rw [heq, Dict.keyOf_eq_some_iff_idOf.mpr hr'] at hkey
    rw [hid, hid', Option.some.inj hkey]

theorem function_eq_iff {d : Dicts} {inv inv' : Invocation} {r r' : TxRow} (h : Records d inv r) (h' : Records d inv' r') :
    inv.function = inv'.function ↔ r.function = r'.function := by
  constructor
  · intro heq
    have hr := Dict.keyOf_eq_some_iff_idOf.mp h.function.1
    rw [heq, Dict.keyOf_eq_some_iff_idOf.mp h'.function.1] at hr
    exact (Option.some.inj hr).symm
  · intro heq
    have hkey := h.function.1
    rw [heq, h'.function.1] at hkey
    exact (Option.some.inj hkey).symm

/-- The numbers of some invocations. -/
def LedgerStats.of (invs : List Invocation) (indexed : Bool) : LedgerStats where
  invocations := invs.length
  contracts := (invs.map Invocation.contractID).dedup.length
  functions := (invs.map Invocation.function).dedup.length
  indexed := indexed

theorem LedgerStats.of_perm {invs invs' : List Invocation} (h : invs.Perm invs') (indexed : Bool) :
    LedgerStats.of invs indexed = LedgerStats.of invs' indexed := by
  rw [LedgerStats.of, LedgerStats.of, h.length_eq, (h.map Invocation.contractID).dedup.length_eq,
    (h.map Invocation.function).dedup.length_eq]

theorem canonical_of_held {w : World} {q : BitVec 32} {inv : Invocation} (h : inv ∈ w.heldOf scValString archive q) :
    inv.Canonical := by
  unfold World.heldOf at h
  split_ifs at h
  · exact canonical_of_archived h
  · cases h

/-- The numbers a reachable state gives for a ledger are those of what the index holds of it. -/
theorem World.Reached.ledgerStats (hdel : Delivers scValString archive) (hone : OneEach scValString archive) {w : World}
    (h : w.Reached scValString archive) (q : BitVec 32) :
    w.db.ledgerStats q = LedgerStats.of (w.heldOf scValString archive q) (decide (q.toNat ≤ w.checkpoint)) := by
  obtain ⟨invs, hinvs, hperm⟩ := h.ledgerRows hdel hone q
  have hcanon : ∀ inv ∈ invs, inv.Canonical := fun inv hinv => canonical_of_held (hperm.mem_iff.mp hinv)
  have hcontracts : (invs.map Invocation.contractID).dedup.length =
      ((w.db.transactions.filter fun r => r.ledger = q.toNat).map TxRow.contractId).dedup.length := by
    refine length_dedup_of_forall₂ (R := fun inv r => inv.Canonical ∧ Records w.db.dicts inv r)
      (fun inv r inv' r' hr hr' => contractId_eq_iff hr.2 hr'.2 hr.1 hr'.1) ?_
    exact (forall₂_and_right hinvs.flip hcanon).flip
  have hfunctions : (invs.map Invocation.function).dedup.length =
      ((w.db.transactions.filter fun r => r.ledger = q.toNat).map TxRow.function).dedup.length :=
    length_dedup_of_forall₂ (fun inv r inv' r' hr hr' => function_eq_iff hr hr') hinvs
  rw [← LedgerStats.of_perm hperm, LedgerStats.of, hcontracts, hfunctions, hinvs.length_eq]
  rfl

/-- Every step keeps the saved ledgers. -/
theorem saved_step {w w' : World} {e : Event} (hstep : step scValString acceptsTime archive w e = some w') {q : BitVec 32}
    (hq : q ∈ w.saved) : q ∈ w'.saved := by
  cases steps_of_step hstep with
  | followRefused => exact hq
  | followStarts => exact hq
  | followSaves => exact List.mem_cons_of_mem _ hq
  | followFails hf hround => exact hround.quiet.saved ▸ hq
  | backfillStarts => exact hq
  | batchSaves => exact List.mem_append_right _ hq
  | batchFails hb hround => exact hround.quiet.saved ▸ hq
  | batchCheckpoint => exact hq
  | stops => exact hq

theorem saved_run {w w' : World} {es : List Event} (hrun : run (step scValString acceptsTime archive) w es = some w')
    {q : BitVec 32} (hq : q ∈ w.saved) : q ∈ w'.saved :=
  run_invariant (P := fun w => q ∈ w.saved) (fun _ _ _ hs hstep => saved_step hstep hs) hq hrun

/-- The answer for a ledger, its checkpoint read at one point of any run and its rows counted at a later one: the numbers of the
archive if the ledger was saved by then, and otherwise zeros. A ledger saved before the checkpoint was read is counted. -/
theorem ledger_stats_exact (hdel : Delivers scValString archive) (hone : OneEach scValString archive) {es es' : List Event}
    {w w' : World} (hrun : run (step scValString acceptsTime archive) World.start es = some w)
    (hrun' : run (step scValString acceptsTime archive) w es' = some w') (q : BitVec 32) :
    ledgerStats w.db w'.db q =
        LedgerStats.of (if q ∈ w'.saved then archived scValString archive q else []) (decide (q.toNat ≤ w.checkpoint)) ∧
      (q ∈ w.saved → q ∈ w'.saved) := by
  have hreached := World.reached_of_run hdel World.reached_start hrun
  refine ⟨?_, saved_run hrun'⟩
  rw [Soroscan.ledgerStats, (World.reached_of_run hdel hreached hrun').ledgerStats hdel hone q]
  rfl

/-! ## The verifier -/

namespace Verify

end Verify

end

/-! ## The archive of calls -/

theorem exists_callsSaved : ∃ w, run (step (fun _ => []) (fun _ => true) callArchive) World.start callsSaved = some w ∧
    w.db.checkpoints worker = some 50457425 := by
  have hend : (run (step (fun _ => []) (fun _ => true) callArchive) World.start callsSaved).map
      (fun w => w.db.checkpoints worker) = some (some 50457425) := by
    decide +kernel
  exact Option.map_eq_some_iff.mp hend

/-- The numbers of a ledger that was saved. -/
theorem ledger_stats_exact_calls :
    ∃ w, run (step (fun _ => []) (fun _ => true) callArchive) World.start callsSaved = some w ∧
      ledgerStats World.start.db w.db 50457424 =
          LedgerStats.of (if 50457424 ∈ w.saved then archived (fun _ => []) callArchive 50457424 else [])
            (decide ((50457424 : BitVec 32).toNat ≤ World.start.checkpoint)) ∧
        (50457424 ∈ World.start.saved → 50457424 ∈ w.saved) := by
  obtain ⟨w, hw, -⟩ := exists_callsSaved
  exact ⟨w, hw, ledger_stats_exact delivers_callArchive oneEach_callArchive (run_nil _ _) hw 50457424⟩

end Soroscan
