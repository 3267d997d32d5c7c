import Soroscan.Lemmas.Batches

/-!
# The ledgers a backfill requests

For every range, batch size and checkpoint that `run` lets through, and a backfill in which nothing fails: when it comes to its
end, requests the rest of its range and nothing else, each ledger once, and leaves the end as its checkpoint. It fails where
the 32-bit arithmetic of the loop runs over the last number; the condition here is exact. `loop_of_run` is what the loop has to
do with the runs of the indexer.
-/

namespace Soroscan

section

variable {db : Db} {start stop concurrency : BitVec 32}

/-- The ledger a backfill goes on at: the one behind its range checkpoint, or its first one. -/
def resumePoint (db : Db) (start stop : BitVec 32) : Nat :=
  if start.toNat ≤ db.checkpointLedger (backfillName start stop) then db.checkpointLedger (backfillName start stop) + 1
  else start.toNat

/-- The backfill comes to its end, requests only ledgers of its range, each one from where it goes on exactly once and none at all
when it was complete, and leaves the end of the range as its checkpoint. -/
def RequestsRest (db : Db) (start stop concurrency : BitVec 32) : Prop :=
  ∃ rounds requested, backfill rounds db start stop concurrency = some (requested, stop.toNat) ∧
    (∀ q ∈ requested, start ≤ q ∧ q ≤ stop) ∧
    (∀ q : BitVec 32, resumePoint db start stop ≤ q.toNat → q ≤ stop → requested.count q = 1) ∧
    (db.checkpointLedger (backfillName start stop) = stop.toNat → requested = [])

/-- The range ends before the last number; and, unless it is complete, its last batch, taken in its full size, ends with the
numbers or before them. -/
structure FitsNumbers (db : Db) (start stop concurrency : BitVec 32) : Prop where
  stop_lt : stop.toNat < lastLedger
  last_le : db.checkpointLedger (backfillName start stop) = stop.toNat ∨
    lastBatchStart (resumePoint db start stop) stop.toNat concurrency.toNat + concurrency.toNat ≤ 2 ^ 32

/-- The checkpoint of a range is none, or one of its ledgers. -/
def CheckpointInRange (db : Db) (start stop : BitVec 32) : Prop :=
  db.checkpointLedger (backfillName start stop) = 0 ∨
    start.toNat ≤ db.checkpointLedger (backfillName start stop) ∧ db.checkpointLedger (backfillName start stop) ≤ stop.toNat

theorem startBackfill_eq (db : Db) (start stop concurrency : BitVec 32) :
    startBackfill db start stop concurrency =
      if BitVec.ofNat 32 (resumePoint db start stop) ≤ stop then
        some ⟨start, stop, concurrency, BitVec.ofNat 32 (resumePoint db start stop), none, Store.new⟩
      else none := by
  have hnext : (if start.toNat ≤ db.checkpointLedger (backfillName start stop)
      then uint32 (db.checkpointLedger (backfillName start stop)) + 1 else start) =
      BitVec.ofNat 32 (resumePoint db start stop) := by
    unfold resumePoint
    split_ifs
    · rw [BitVec.ofNat_add]
      rfl
    · rw [BitVec.ofNat_toNat, BitVec.setWidth_eq]
  unfold startBackfill
  simp only [hnext]

theorem one_le_of_flags (hflags : backfillFlagsOk start stop concurrency = true) : 1 ≤ concurrency := by
  simp only [backfillFlagsOk, Bool.and_eq_true, decide_eq_true_eq] at hflags
  exact hflags.1.2

/-- A range that is not complete goes on inside it. -/
theorem resumePoint_bounds (hflags : backfillFlagsOk start stop concurrency = true) (hd : CheckpointInRange db start stop) :
    start.toNat ≤ resumePoint db start stop ∧ resumePoint db start stop ≤ stop.toNat + 1 ∧
      (resumePoint db start stop = stop.toNat + 1 ↔ db.checkpointLedger (backfillName start stop) = stop.toNat) := by
  simp only [backfillFlagsOk, Bool.and_eq_true, decide_eq_true_eq] at hflags
  obtain ⟨⟨⟨⟨hstart, -⟩, hle⟩, -⟩, -⟩ := hflags
  have hpos : 0 < start.toNat := Nat.pos_of_ne_zero fun h => hstart (BitVec.eq_of_toNat_eq h)
  rw [BitVec.le_def] at hle
  unfold CheckpointInRange at hd
  unfold resumePoint
  split_ifs <;> omega

/-- A backfill of a range that does not fit requests ledger 0. -/
theorem not_requestsRest (hflags : backfillFlagsOk start stop concurrency = true) {b : Backfill}
    (hb : startBackfill db start stop concurrency = some b) (hc : 1 ≤ b.concurrency) (hnext : b.next ≤ b.end)
    (hfit : ¬b.Fits) : ¬RequestsRest db start stop concurrency := by
  simp only [backfillFlagsOk, Bool.and_eq_true, decide_eq_true_eq] at hflags
  rintro ⟨rounds, requested, hrun, hrange, -, -⟩
  rw [backfill, hb] at hrun
  have hzero := (hrange 0 (zero_mem_of_loop hc hnext hfit hrun)).1
  rw [BitVec.le_def] at hzero
  exact hflags.1.1.1.1 (BitVec.eq_of_toNat_eq (Nat.le_zero.mp hzero))

/-- The resume point is the number of a ledger, when the range ends before the last one. -/
theorem toNat_resumePoint (hstop : stop.toNat < lastLedger) (hlast : resumePoint db start stop ≤ stop.toNat + 1) :
    (BitVec.ofNat 32 (resumePoint db start stop)).toNat = resumePoint db start stop := by
  unfold lastLedger at hstop
  rw [BitVec.toNat_ofNat, Nat.mod_eq_of_lt (by omega)]

/-- What a backfill begins with fits exactly when the rest of its range does. -/
theorem fits_iff (hflags : backfillFlagsOk start stop concurrency = true) (hd : CheckpointInRange db start stop)
    (hnext : BitVec.ofNat 32 (resumePoint db start stop) ≤ stop) :
    (Backfill.mk start stop concurrency (BitVec.ofNat 32 (resumePoint db start stop)) none Store.new).Fits ↔
      FitsNumbers db start stop concurrency := by
  obtain ⟨-, hlast, hcomplete⟩ := resumePoint_bounds hflags hd
  constructor
  · rintro ⟨hstop, hle⟩
    rw [toNat_resumePoint hstop hlast] at hle
    exact ⟨hstop, Or.inr hle⟩
  · rintro ⟨hstop, hle⟩
    have hnat := toNat_resumePoint hstop hlast
    rw [BitVec.le_def, hnat] at hnext
    refine ⟨hstop, ?_⟩
    rw [hnat]
    rcases hle with hwhole | hle
    · have := hcomplete.mpr hwhole
      omega
    · exact hle

/-- A backfill of a range that fits requests the rest of it. -/
theorem requestsRest_of_fits (hflags : backfillFlagsOk start stop concurrency = true) (hd : CheckpointInRange db start stop)
    (hnext : BitVec.ofNat 32 (resumePoint db start stop) ≤ stop) (hfit : FitsNumbers db start stop concurrency) :
    RequestsRest db start stop concurrency := by
  obtain ⟨hfirst, hlast, hcomplete⟩ := resumePoint_bounds hflags hd
  have hstart := startBackfill_eq db start stop concurrency
  rw [if_pos hnext] at hstart
  have hloop := loop_of_fits (one_le_of_flags hflags) hnext ((fits_iff hflags hd hnext).mpr hfit)
    (db.checkpointLedger (backfillName start stop))
  have hnat := toNat_resumePoint hfit.stop_lt hlast
  have hstop := stop.isLt
  rw [BitVec.le_def, hnat] at hnext
  simp only [hnat] at hloop
  have hmem : ∀ q : BitVec 32, q ∈ ledgersFrom (resumePoint db start stop) (stop.toNat + 1 - resumePoint db start stop) ↔
      resumePoint db start stop ≤ q.toNat ∧ q.toNat ≤ stop.toNat := by
    intro q
    rw [mem_ledgersFrom (by omega)]
    omega
  refine ⟨_, _, by rw [backfill, hstart]; exact hloop, fun q hq => ?_, fun q hq hle => ?_, fun hwhole => ?_⟩
  · have := (hmem q).mp hq
    rw [BitVec.le_def, BitVec.le_def]
    omega
  · exact List.count_eq_one_of_mem (nodup_ledgersFrom (by omega)) ((hmem q).mpr ⟨hq, hle⟩)
  · have := hcomplete.mpr hwhole
    omega

/-- A backfill in which nothing fails requests the rest of its range, each ledger once, exactly when the range fits the
numbers. -/
theorem requests_rest_iff (hflags : backfillFlagsOk start stop concurrency = true) (hd : CheckpointInRange db start stop) :
    RequestsRest db start stop concurrency ↔ FitsNumbers db start stop concurrency := by
  obtain ⟨-, hlast, hcomplete⟩ := resumePoint_bounds hflags hd
  have hstop := stop.isLt
  have hstart := startBackfill_eq db start stop concurrency
  split_ifs at hstart with hnext
  · have hiff := fits_iff hflags hd hnext
    by_cases hfits : FitsNumbers db start stop concurrency
    · exact iff_of_true (requestsRest_of_fits hflags hd hnext hfits) hfits
    · exact iff_of_false (not_requestsRest hflags hstart (one_le_of_flags hflags) hnext fun h => hfits (hiff.mp h)) hfits
  · -- the range is complete, and its end is not the last number
    rw [BitVec.le_def, BitVec.toNat_ofNat] at hnext
    have hwhole := hcomplete.mp (by omega)
    refine iff_of_true ⟨0, [], by rw [backfill, hstart, hwhole], by simp, fun q hq hle => ?_, fun _ => rfl⟩
      ⟨by unfold lastLedger; omega, Or.inl hwhole⟩
    rw [BitVec.le_def] at hle
    omega

end

/-! ## The loop and the runs -/

section

variable {scValString : ScVal → Bytes} {acceptsTime : Time → Bool} {archive : BitVec 32 → LedgerCloseMeta}

/-- The loop does not look at the caches. -/
theorem loop_store (b : Backfill) (st : Store) (rounds done : Nat) :
    Backfill.loop rounds { b with store := st } done = b.loop rounds done := by
  induction rounds generalizing b done with
  | zero => rfl
  | succ rounds ih =>
    rw [Backfill.loop, Backfill.loop]
    have hround : Backfill.roundDone { b with store := st } = { b.roundDone with store := st } := rfl
    rw [hround, ih]
    rfl

/-- What a round in which nothing fails leaves: the backfill behind its batch, the batch among the saved ledgers, and its end as
the range checkpoint. -/
theorem full_round {w w₁ w₂ : World} {pid : Nat} {call : Call} {b : Backfill} (hb : w.processes pid = some (.backfill b))
    (h₁ : step scValString acceptsTime archive w (.batchSaves pid call) = some w₁)
    (h₂ : step scValString acceptsTime archive w₁ (.batchCheckpoint pid) = some w₂) :
    b.next ≤ b.end ∧ (∃ st, w₂.processes pid = some (.backfill { b.roundDone with store := st })) ∧
      w₂.saved = batchLedgers b.next b.batchEnd ++ w.saved ∧
      w₂.db.checkpointLedger (backfillName b.start b.end) = b.batchEnd.toNat := by
  cases steps_of_step h₁ with
  | @batchSaves _ _ b₁ results hb₁ _ hnext =>
    cases hb.symm.trans hb₁
    cases steps_of_step h₂ with
    | @batchCheckpoint _ b₂ batchEnd hb₂ hpending =>
      cases (put_processes_self w pid _).symm.trans hb₂
      cases hpending
      refine ⟨hnext, ⟨_, put_processes_self _ pid _⟩, rfl, ?_⟩
      simp [Db.checkpointLedger, Db.setCheckpoint]

/-- The events of some rounds in which nothing fails: each batch is saved and gets its checkpoint. -/
def fullRounds (pid : Nat) (calls : List Call) : List Event :=
  calls.flatMap fun call => [.batchSaves pid call, .batchCheckpoint pid]

theorem fullRounds_cons (pid : Nat) (call : Call) (calls : List Call) :
    fullRounds pid (call :: calls) = .batchSaves pid call :: .batchCheckpoint pid :: fullRounds pid calls := rfl

/-- A run in which a backfill goes on to its end and nothing fails is its loop: the ledgers it saves are the ones the loop requests,
and its range checkpoint is the one the loop leaves. -/
theorem loop_of_run {w w' : World} {pid : Nat} {b b' : Backfill} {calls : List Call}
    (hb : w.processes pid = some (.backfill b))
    (hrun : run (step scValString acceptsTime archive) w (fullRounds pid calls) = some w')
    (hb' : w'.processes pid = some (.backfill b')) (hend : ¬b'.next ≤ b'.end) :
    ∃ requested, b.loop calls.length (w.db.checkpointLedger (backfillName b.start b.end)) =
        some (requested, w'.db.checkpointLedger (backfillName b.start b.end)) ∧
      w'.saved.Perm (requested ++ w.saved) := by
  induction calls generalizing w b with
  | nil =>
    cases hrun
    rw [hb] at hb'
    cases hb'
    exact ⟨[], loop_of_done hend, List.Perm.refl _⟩
  | cons call calls ih =>
    rw [fullRounds_cons, run_cons] at hrun
    obtain ⟨w₁, h₁, hrun⟩ := Option.bind_eq_some_iff.mp hrun
    rw [run_cons] at hrun
    obtain ⟨w₂, h₂, hrun⟩ := Option.bind_eq_some_iff.mp hrun
    obtain ⟨hnext, ⟨st, hb₂⟩, hsaved, hcheckpoint⟩ := full_round hb h₁ h₂
    obtain ⟨rest, hloop, hperm⟩ := ih hb₂ hrun
    have hname : w₂.db.checkpointLedger (backfillName b.roundDone.start b.roundDone.end) = b.batchEnd.toNat := hcheckpoint
    rw [loop_store] at hloop
    refine ⟨batchLedgers b.next b.batchEnd ++ rest, ?_, ?_⟩
    · rw [List.length_cons, loop_succ hnext, ← hname]
      exact Option.map_eq_some_iff.mpr ⟨_, hloop, rfl⟩
    · rw [hsaved] at hperm
      rw [List.append_assoc]
      exact hperm.trans (List.perm_append_comm_assoc _ _ _)

end

/-! ## Where it fails -/

/-- The rest of a range of ten ledgers, after a checkpoint in its middle. -/
theorem requests_rest_resumed : RequestsRest (Db.empty.setCheckpoint (backfillName 11 20) 15) 11 20 4 := by
  have hcheckpoint : (Db.empty.setCheckpoint (backfillName 11 20) 15).checkpointLedger (backfillName 11 20) = 15 := by
    simp [Db.checkpointLedger, Db.setCheckpoint]
  refine (requests_rest_iff (by decide) (Or.inr (by rw [hcheckpoint]; decide))).mpr ⟨by decide, Or.inr ?_⟩
  rw [resumePoint, hcheckpoint]
  decide

/-- With the default batch size, the one batch of the ledgers 4294967290 to 4294967294 runs over the last number, and requests
ledger 0. -/
theorem last_batch_wraps : ¬RequestsRest Db.empty 4294967290 4294967294 32 := by
  refine not_requestsRest (by decide) (startBackfill_eq _ _ _ _) (by decide) (by decide) fun hfit => ?_
  have hle := hfit.last_le
  revert hle
  decide

end Soroscan
