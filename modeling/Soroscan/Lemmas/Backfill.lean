import Soroscan.Lemmas.Indexer

/-!
# Backfills and their range checkpoints

Only two events move a range: a batch that is saved, and its range checkpoint. `step_range_cases` says that every other event
leaves the range checkpoints, loses no saved ledger and adds only backfills that have just begun. `Spans` is what is known of
every backfill that is alive: the ledgers from its first one up to where it is, and up to the batch it has saved, are saved.
-/

namespace Soroscan

/-! ## The names of the ranges -/

/-- Two ranges with one checkpoint name are the same. -/
theorem backfillName_injective {start stop start' stop' : BitVec 32}
    (h : backfillName start stop = backfillName start' stop') : start = start' ∧ stop = stop' := by
  unfold backfillName at h
  rw [List.append_assoc, List.append_assoc, List.append_cancel_left_eq,
    List.append_cons_inj_of_notMem (not_minus_mem_decimal _) (not_minus_mem_decimal _)] at h
  exact ⟨BitVec.eq_of_toNat_eq (decimal_injective h.1), BitVec.eq_of_toNat_eq (decimal_injective h.2.2)⟩

/-- The checkpoint of a range, if one was written. -/
def World.rangeCheckpoint (w : World) (start stop : BitVec 32) : Option Nat := w.db.checkpoints (backfillName start stop)

/-- The checkpoint of the worker moves, and the ones of the ranges stay. -/
theorem advanceWorker_backfill (checkpoints : Text → Option Nat) (ledgerSeq start stop : BitVec 32) :
    advanceWorker checkpoints ledgerSeq (backfillName start stop) = checkpoints (backfillName start stop) := by
  rw [advanceWorker, Function.update_of_ne (backfillName_ne_worker start stop)]

/-! ## The ledgers of a batch -/

/-- Consecutive ledgers. -/
def ledgersFrom (first count : Nat) : List (BitVec 32) := (List.range' first count).map (BitVec.ofNat 32)

/-- The ledgers of a batch are the ones from its first to its last, as long as the batch is not the whole of the numbers. -/
theorem batchLedgers_eq {start stop : BitVec 32} (h : start ≤ stop) (hlen : stop.toNat - start.toNat < lastLedger) :
    batchLedgers start stop = ledgersFrom start.toNat (stop.toNat - start.toNat + 1) := by
  have hone : (1 : BitVec 32).toNat = 1 := rfl
  have hcount : (stop - start + 1).toNat = stop.toNat - start.toNat + 1 := by
    rw [BitVec.toNat_add, BitVec.toNat_sub_of_le h, hone]
    unfold lastLedger at hlen
    omega
  rw [batchLedgers, hcount, ledgersFrom, List.range'_eq_map_range, List.map_map]
  refine List.map_congr_left fun i _ => ?_
  rw [Function.comp_apply, BitVec.ofNat_add, BitVec.ofNat_toNat, BitVec.setWidth_eq]

/-- The ledgers from one on, up to as many as there are numbers. -/
theorem mem_ledgersFrom {first count : Nat} (hfit : first + count ≤ 2 ^ 32) {q : BitVec 32} :
    q ∈ ledgersFrom first count ↔ first ≤ q.toNat ∧ q.toNat < first + count := by
  rw [ledgersFrom, List.mem_map]
  constructor
  · rintro ⟨n, hn, rfl⟩
    rw [List.mem_range'_1] at hn
    rw [BitVec.toNat_ofNat, Nat.mod_eq_of_lt (by omega)]
    exact hn
  · intro h
    exact ⟨q.toNat, List.mem_range'_1.mpr h, by rw [BitVec.ofNat_toNat, BitVec.setWidth_eq]⟩

theorem nodup_ledgersFrom {first count : Nat} (hfit : first + count ≤ 2 ^ 32) : (ledgersFrom first count).Nodup := by
  refine (List.nodup_range' 1 Nat.one_pos).map_on fun m hm n hn heq => ?_
  rw [List.mem_range'_1] at hm hn
  have := congrArg BitVec.toNat heq
  rw [BitVec.toNat_ofNat, BitVec.toNat_ofNat, Nat.mod_eq_of_lt (by omega), Nat.mod_eq_of_lt (by omega)] at this
  exact this

/-- Every ledger of a batch is fetched. -/
theorem mem_batchLedgers {start stop q : BitVec 32} (hstart : start ≤ q) (hstop : q ≤ stop)
    (hlen : stop.toNat - start.toNat < lastLedger) : q ∈ batchLedgers start stop := by
  rw [BitVec.le_def] at hstart hstop
  have := stop.isLt
  rw [batchLedgers_eq (by rw [BitVec.le_def]; omega) hlen, mem_ledgersFrom (by omega)]
  omega

/-- A batch of at least one ledger is never the whole of the numbers. -/
theorem batchEnd_sub_lt {b : Backfill} (hc : 1 ≤ b.concurrency) : b.batchEnd.toNat - b.next.toNat < lastLedger := by
  have hone : (1 : BitVec 32).toNat = 1 := rfl
  rw [BitVec.le_def, hone] at hc
  have hle : b.batchEnd ≤ b.next + b.concurrency - 1 := by
    unfold Backfill.batchEnd
    split_ifs with h
    · exact BitVec.le_of_lt h
    · exact BitVec.le_refl _
  have := b.next.isLt
  have := b.concurrency.isLt
  rw [BitVec.le_def, BitVec.toNat_sub, BitVec.toNat_add, hone] at hle
  unfold lastLedger
  omega

section

variable {scValString : ScVal → Bytes} {acceptsTime : Time → Bool} {archive : BitVec 32 → LedgerCloseMeta}

/-! ## What a step does to the ranges -/

/-- A step that moves no range: the range checkpoints stay, no saved ledger is lost, and every backfill was there before or has
just begun. -/
structure RangeQuiet (w w' : World) : Prop where
  saved : w.saved ⊆ w'.saved
  ranges : ∀ start stop, w'.rangeCheckpoint start stop = w.rangeCheckpoint start stop
  backfills : ∀ pid b, w'.processes pid = some (.backfill b) → w.processes pid = some (.backfill b) ∨
    ∃ start stop concurrency, backfillFlagsOk start stop concurrency = true ∧
      startBackfill w.db start stop concurrency = some b

/-- A save, whether it fails or not, leaves the range checkpoints. -/
theorem saveLedger_backfill (acceptsTime : Time → Bool) (st : Store) (db : Db) (call : Call) (seq : BitVec 32)
    (rows : List InvocationRow) (start stop : BitVec 32) :
    (saveLedger acceptsTime st db call seq rows).db.checkpoints (backfillName start stop) =
      db.checkpoints (backfillName start stop) := by
  rcases saveLedger_cases acceptsTime st db call seq rows with hf | ⟨ps, d, written, hc⟩
  · rw [hf.checkpoints]
  · rw [hc.checkpoints, advanceWorker_backfill]

/-- A failed round moves no range. -/
theorem FailedRound.rangeQuiet {st : Store} {call : Call} {w w' : World} (h : FailedRound acceptsTime st call w w') :
    RangeQuiet w w' where
  saved := h.quiet.saved ▸ List.Subset.refl _
  ranges start stop := by
    rcases h with rfl | ⟨seq, rows, -, rfl⟩
    · rfl
    · exact saveLedger_backfill acceptsTime st w.db call seq rows start stop
  backfills pid b hb := Or.inl (by rw [← h.processes]; exact hb)

/-- Backfills of a world in which one process was replaced by no backfill. -/
theorem backfills_put {w : World} {pid pid' : Nat} {p : Option Process} {b : Backfill} (hp : ∀ b, p ≠ some (.backfill b))
    (h : (w.put pid p).processes pid' = some (.backfill b)) : w.processes pid' = some (.backfill b) := by
  by_cases hpid : pid' = pid
  · subst hpid
    rw [put_processes_self] at h
    exact absurd h (hp b)
  · rwa [put_processes_of_ne hpid] at h

/-- An event that saves a batch or writes a range checkpoint. -/
def Event.movesRange : Event → Bool
  | .batchSaves _ _ => true
  | .batchCheckpoint _ => true
  | _ => false

/-- Every other event moves no range. -/
theorem rangeQuiet_of_step {w w' : World} {e : Event} (he : e.movesRange = false)
    (h : step scValString acceptsTime archive w e = some w') : RangeQuiet w w' := by
  cases steps_of_step h with
  | batchSaves => cases he
  | batchCheckpoint => cases he
  | followRefused => exact ⟨List.Subset.refl _, fun _ _ => rfl, fun _ _ hb => Or.inl hb⟩
  | followStarts => exact ⟨List.Subset.refl _, fun _ _ => rfl, fun _ _ hb => Or.inl (backfills_put (by simp) hb)⟩
  | followSaves =>
    exact ⟨List.subset_cons_self _ _, fun start stop => saveLedger_backfill acceptsTime _ _ _ _ _ start stop,
      fun _ _ hb => Or.inl (backfills_put (by simp) hb)⟩
  | followFails _ hround => exact hround.rangeQuiet
  | batchFails _ hround => exact hround.rangeQuiet
  | @backfillStarts pid start stop concurrency _ hflags =>
    refine ⟨List.Subset.refl _, fun _ _ => rfl, fun pid' b hb => ?_⟩
    by_cases hpid : pid' = pid
    · subst hpid
      rw [put_processes_self] at hb
      obtain ⟨b', hb', heq⟩ := Option.map_eq_some_iff.mp hb
      cases heq
      exact Or.inr ⟨start, stop, concurrency, hflags, hb'⟩
    · exact Or.inl (by rwa [put_processes_of_ne hpid] at hb)
  | stops => exact ⟨List.Subset.refl _, fun _ _ => rfl, fun _ _ hb => Or.inl (backfills_put (by simp) hb)⟩

/-! ## What is known of the ranges -/

/-- What is known of a backfill: the ledgers behind it are saved, and those of the batch that awaits its checkpoint. -/
structure Spans (saved : List (BitVec 32)) (b : Backfill) : Prop where
  concurrency : 1 ≤ b.concurrency
  behind : ∀ q, b.start ≤ q → q < b.next → q ∈ saved
  pending : ∀ batchEnd, b.pending = some batchEnd → ∀ q, b.start ≤ q → q ≤ batchEnd → q ∈ saved

theorem Spans.mono {saved saved' : List (BitVec 32)} {b : Backfill} (h : Spans saved b) (hs : saved ⊆ saved') :
    Spans saved' b where
  concurrency := h.concurrency
  behind q hq hlt := hs (h.behind q hq hlt)
  pending batchEnd hp q hq hle := hs (h.pending batchEnd hp q hq hle)

/-- What is known of a world's ranges: their checkpoints are ledger numbers that claim only saved ledgers, and every backfill
spans its range. -/
structure World.Ranges (w : World) : Prop where
  bounded : ∀ start stop k, w.rangeCheckpoint start stop = some k → k ≤ lastLedger
  claimed : ∀ start stop k, w.rangeCheckpoint start stop = some k → ∀ q, start ≤ q → q.toNat ≤ k → q ∈ w.saved
  spans : ∀ pid b, w.processes pid = some (.backfill b) → Spans w.saved b

theorem World.ranges_start : World.start.Ranges where
  bounded start stop k hk := by cases hk
  claimed start stop k hk := by cases hk
  spans pid b hb := by cases hb

/-- A backfill that has just begun is at the end of what its range checkpoint claims. -/
theorem spans_startBackfill {w : World} (hr : w.Ranges) {start stop concurrency : BitVec 32} {b : Backfill}
    (hflags : backfillFlagsOk start stop concurrency = true) (hb : startBackfill w.db start stop concurrency = some b) :
    Spans w.saved b := by
  simp only [backfillFlagsOk, Bool.and_eq_true, decide_eq_true_eq] at hflags
  have hpos : 0 < start.toNat := Nat.pos_of_ne_zero fun h => hflags.1.1.1.1 (BitVec.eq_of_toNat_eq h)
  have hclaimed := hr.claimed start stop
  unfold World.rangeCheckpoint at hclaimed
  unfold startBackfill Db.checkpointLedger at hb
  simp only [Option.ite_none_right_eq_some, Option.some.injEq] at hb
  obtain ⟨-, rfl⟩ := hb
  refine ⟨hflags.1.2, fun q hq hlt => ?_, fun _ hp => by cases hp⟩
  have hq : start ≤ q := hq
  have hone : (1 : BitVec 32).toNat = 1 := rfl
  simp only at hlt
  split_ifs at hlt with hdone
  · cases hk : w.db.checkpoints (backfillName start stop) with
    | none =>
      rw [hk, Option.getD_none] at hdone
      omega
    | some k =>
      refine hclaimed k hk q hq ?_
      rw [hk, Option.getD_some, BitVec.lt_def, BitVec.toNat_add, uint32, BitVec.toNat_ofNat, hone] at hlt
      omega
  · rw [BitVec.le_def] at hq
    rw [BitVec.lt_def] at hlt
    omega

/-- A batch that is saved reaches the ledgers up to its end. -/
theorem Spans.batchSaved {saved : List (BitVec 32)} {b : Backfill} (h : Spans saved b) (st : Store) :
    Spans (batchLedgers b.next b.batchEnd ++ saved) { b with pending := some b.batchEnd, store := st } where
  concurrency := h.concurrency
  behind q hq hlt := List.mem_append_right _ (h.behind q hq hlt)
  pending batchEnd hp q hq hle := by
    cases hp
    by_cases hlt : q < b.next
    · exact List.mem_append_right _ (h.behind q hq hlt)
    · rw [BitVec.not_lt] at hlt
      exact List.mem_append_left _ (mem_batchLedgers hlt hle (batchEnd_sub_lt h.concurrency))

/-- A backfill whose batch has its checkpoint goes on behind it. -/
theorem Spans.checkpointed {saved : List (BitVec 32)} {b : Backfill} {batchEnd : BitVec 32} (h : Spans saved b)
    (hp : b.pending = some batchEnd) : Spans saved { b with next := batchEnd + 1, pending := none } where
  concurrency := h.concurrency
  behind q hq hlt := by
    refine h.pending batchEnd hp q hq ?_
    have hone : (1 : BitVec 32).toNat = 1 := rfl
    have hlt : q < batchEnd + 1 := hlt
    rw [BitVec.lt_def, BitVec.toNat_add, hone] at hlt
    rw [BitVec.le_def]
    omega
  pending _ hp' := by cases hp'

/-- Every step keeps what is known of the ranges. -/
theorem World.Ranges.step {w w' : World} {e : Event} (hr : w.Ranges)
    (h : step scValString acceptsTime archive w e = some w') : w'.Ranges := by
  cases hmoves : e.movesRange with
  | false =>
    have hq := rangeQuiet_of_step hmoves h
    refine ⟨fun start stop k hk => ?_, fun start stop k hk => ?_, fun pid b hb => ?_⟩
    · rw [hq.ranges] at hk
      exact hr.bounded start stop k hk
    · rw [hq.ranges] at hk
      exact fun q hle hc => hq.saved (hr.claimed start stop k hk q hle hc)
    · rcases hq.backfills pid b hb with hb | ⟨start, stop, concurrency, hflags, hb⟩
      · exact (hr.spans pid b hb).mono hq.saved
      · exact (spans_startBackfill hr hflags hb).mono hq.saved
  | true =>
    cases steps_of_step h with
    | @batchSaves pid call b results hb =>
      have hsame := saveLedger_backfill acceptsTime b.store w.db call b.batchEnd (results.flatMap LedgerResult.invocations)
      refine ⟨fun start stop k hk => ?_, fun start stop k hk q hle hc => ?_, fun pid' b' hb' => ?_⟩
      · exact hr.bounded start stop k ((hsame start stop).symm.trans hk)
      · exact List.mem_append_right _ (hr.claimed start stop k ((hsame start stop).symm.trans hk) q hle hc)
      · by_cases hpid : pid' = pid
        · subst hpid
          cases (put_processes_self w pid' _).symm.trans hb'
          exact (hr.spans pid' b hb).batchSaved _
        · have hb' := (put_processes_of_ne hpid).symm.trans hb'
          exact (hr.spans pid' b' hb').mono (List.subset_append_right _ _)
    | @batchCheckpoint pid b batchEnd hb hpending =>
      have hspans := hr.spans pid b hb
      -- the checkpoint that was written is the one of the backfill's own range
      have hwritten : ∀ {start stop k},
          Function.update w.db.checkpoints (backfillName b.start b.end) (some batchEnd.toNat) (backfillName start stop) = some k →
            (start = b.start ∧ k = batchEnd.toNat) ∨ w.rangeCheckpoint start stop = some k := by
        intro start stop k hk
        by_cases hname : backfillName start stop = backfillName b.start b.end
        · rw [hname, Function.update_self] at hk
          exact Or.inl ⟨(backfillName_injective hname).1, (Option.some.inj hk).symm⟩
        · rw [Function.update_of_ne hname] at hk
          exact Or.inr hk
      refine ⟨fun start stop k hk => ?_, fun start stop k hk => ?_, fun pid' b' hb' => ?_⟩
      · rcases hwritten hk with ⟨-, rfl⟩ | hk
        · exact toNat_le_lastLedger batchEnd
        · exact hr.bounded start stop k hk
      · rcases hwritten hk with ⟨rfl, rfl⟩ | hk
        · exact fun q hle hc => hspans.pending batchEnd hpending q hle (by rwa [BitVec.le_def])
        · exact hr.claimed start stop k hk
      · by_cases hpid : pid' = pid
        · subst hpid
          cases (put_processes_self w pid' _).symm.trans hb'
          exact hspans.checkpointed hpending
        · exact hr.spans pid' b' ((put_processes_of_ne hpid).symm.trans hb')
    | _ => cases hmoves

end

end Soroscan
