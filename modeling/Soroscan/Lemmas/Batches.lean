import Soroscan.Lemmas.Backfill

/-!
# The batches of a backfill

The loop of `backfill` in 32-bit arithmetic. As long as the last batch, taken in its full size, ends with the ledger numbers or
before them, the loop requests the ledgers from where it is to the end of its range, one after another (`loop_of_fits`). If it
does not, or if the range ends with the last number, the batch or the round after it begins again at ledger 0
(`zero_mem_of_loop`).
-/

namespace Soroscan

/-- Where the last batch begins, for a range that is walked from a ledger on. -/
def lastBatchStart (resume stop concurrency : Nat) : Nat := resume + (stop - resume) / concurrency * concurrency

/-- A batch that is not the last one is one of the batches before the last one. -/
theorem batches_succ {resume stop concurrency : Nat} (hc : 0 < concurrency) (h : resume + concurrency ≤ stop) :
    (stop - resume) / concurrency = (stop - (resume + concurrency)) / concurrency + 1 := by
  rw [← Nat.add_div_right _ hc]
  congr 1
  omega

/-- A batch that is not the last one leaves the beginning of the last one. -/
theorem lastBatchStart_add {resume stop concurrency : Nat} (hc : 0 < concurrency) (h : resume + concurrency ≤ stop) :
    lastBatchStart (resume + concurrency) stop concurrency = lastBatchStart resume stop concurrency := by
  rw [lastBatchStart, lastBatchStart, batches_succ hc h, Nat.add_mul, Nat.one_mul]
  omega

/-- The last batch begins where it is. -/
theorem lastBatchStart_self {resume stop concurrency : Nat} (h : stop < resume + concurrency) (hle : resume ≤ stop) :
    lastBatchStart resume stop concurrency = resume := by
  rw [lastBatchStart, Nat.div_eq_of_lt (by omega), Nat.zero_mul, Nat.add_zero]

section

variable {b : Backfill}

/-! ## The end of a batch -/

/-- The end of a batch in its full size, when it does not run over the last number. -/
theorem toNat_next_add_concurrency (hc : 1 ≤ b.concurrency) (hfit : b.next.toNat + b.concurrency.toNat ≤ 2 ^ 32) :
    (b.next + b.concurrency - 1).toNat = b.next.toNat + b.concurrency.toNat - 1 := by
  have hone : (1 : BitVec 32).toNat = 1 := rfl
  rw [BitVec.le_def, hone] at hc
  rw [BitVec.toNat_sub, BitVec.toNat_add, hone]
  omega

/-- A batch that is not the last one has its full size. -/
theorem batchEnd_of_room (hc : 1 ≤ b.concurrency) (hroom : b.next.toNat + b.concurrency.toNat ≤ b.end.toNat) :
    b.batchEnd.toNat = b.next.toNat + b.concurrency.toNat - 1 := by
  have := b.end.isLt
  have hend := toNat_next_add_concurrency hc (by omega)
  rw [Backfill.batchEnd, if_neg (by rw [BitVec.lt_def, hend]; omega), hend]

/-- The last batch ends with the range, when it does not run over the last number. -/
theorem batchEnd_of_last (hc : 1 ≤ b.concurrency) (hlast : b.end.toNat < b.next.toNat + b.concurrency.toNat)
    (hfit : b.next.toNat + b.concurrency.toNat ≤ 2 ^ 32) : b.batchEnd = b.end := by
  have hend := toNat_next_add_concurrency hc hfit
  unfold Backfill.batchEnd
  split_ifs with hlt
  · rfl
  · rw [BitVec.lt_def, hend] at hlt
    apply BitVec.eq_of_toNat_eq
    omega

/-- A batch that runs over the last number requests ledger 0. -/
theorem zero_mem_of_wraps (hnext : b.next ≤ b.end) (hwrap : 2 ^ 32 < b.next.toNat + b.concurrency.toNat) :
    0 ∈ batchLedgers b.next b.batchEnd := by
  have hone : (1 : BitVec 32).toNat = 1 := rfl
  have hn := b.next.isLt
  have hc := b.concurrency.isLt
  rw [BitVec.le_def] at hnext
  have hend : b.batchEnd = b.next + b.concurrency - 1 := by
    unfold Backfill.batchEnd
    rw [if_neg]
    rw [BitVec.lt_def, BitVec.toNat_sub, BitVec.toNat_add, hone]
    omega
  have hcount : (b.batchEnd - b.next + 1).toNat = b.concurrency.toNat := by
    rw [hend, BitVec.toNat_add, BitVec.toNat_sub, BitVec.toNat_sub, BitVec.toNat_add, hone]
    omega
  refine List.mem_map.mpr ⟨2 ^ 32 - b.next.toNat, List.mem_range.mpr (by rw [hcount]; omega), ?_⟩
  apply BitVec.eq_of_toNat_eq
  have hzero : (0 : BitVec 32).toNat = 0 := rfl
  rw [BitVec.toNat_add, BitVec.toNat_ofNat, hzero]
  omega

/-- Where the round after a batch that is not the last one begins. -/
theorem toNat_roundDone_next (hc : 1 ≤ b.concurrency) (hroom : b.next.toNat + b.concurrency.toNat ≤ b.end.toNat) :
    b.roundDone.next.toNat = b.next.toNat + b.concurrency.toNat := by
  have hone : (1 : BitVec 32).toNat = 1 := rfl
  have hstop := b.end.isLt
  have hend := batchEnd_of_room hc hroom
  rw [BitVec.le_def, hone] at hc
  show (b.batchEnd + 1).toNat = _
  rw [BitVec.toNat_add, hone, hend]
  omega

/-! ## The loop -/

theorem loop_of_done {rounds done : Nat} (h : ¬b.next ≤ b.end) : b.loop rounds done = some ([], done) := by
  cases rounds <;> rw [Backfill.loop, if_neg h]

theorem loop_succ {rounds done : Nat} (h : b.next ≤ b.end) :
    b.loop (rounds + 1) done =
      (b.roundDone.loop rounds b.batchEnd.toNat).map fun r => (batchLedgers b.next b.batchEnd ++ r.1, r.2) := by
  rw [Backfill.loop, if_pos h]

/-- What a loop requests begins with its first batch. -/
theorem mem_of_loop {rounds done : Nat} {requested : List (BitVec 32)} {checkpoint : Nat} (h : b.next ≤ b.end)
    (hloop : b.loop rounds done = some (requested, checkpoint)) :
    ∃ rounds' rest, b.roundDone.loop rounds' b.batchEnd.toNat = some (rest, checkpoint) ∧
      requested = batchLedgers b.next b.batchEnd ++ rest ∧ rounds' < rounds := by
  cases rounds with
  | zero =>
    rw [Backfill.loop, if_pos h] at hloop
    cases hloop
  | succ rounds =>
    rw [loop_succ h] at hloop
    obtain ⟨r, hr, heq⟩ := Option.map_eq_some_iff.mp hloop
    cases heq
    exact ⟨rounds, r.1, hr, rfl, Nat.lt_succ_self _⟩

/-- The range of a backfill fits: it ends before the last number, and its last batch does not run over it. -/
structure Backfill.Fits (b : Backfill) : Prop where
  stop_lt : b.end.toNat < lastLedger
  last_le : lastBatchStart b.next.toNat b.end.toNat b.concurrency.toNat + b.concurrency.toNat ≤ 2 ^ 32

/-- A round that is not the last one leaves whether the range fits. -/
theorem fits_roundDone_iff (hc : 1 ≤ b.concurrency) (hroom : b.next.toNat + b.concurrency.toNat ≤ b.end.toNat) :
    b.roundDone.Fits ↔ b.Fits := by
  have hstart : lastBatchStart b.roundDone.next.toNat b.end.toNat b.concurrency.toNat =
      lastBatchStart b.next.toNat b.end.toNat b.concurrency.toNat := by
    rw [toNat_roundDone_next hc hroom, lastBatchStart_add (by rwa [BitVec.le_def] at hc) hroom]
  constructor
  · rintro ⟨hstop, hlast⟩
    exact ⟨hstop, hstart ▸ hlast⟩
  · rintro ⟨hstop, hlast⟩
    exact ⟨hstop, hstart.symm ▸ hlast⟩

/-- The ledgers of the batches, one after another. -/
theorem ledgersFrom_append (first m n : Nat) : ledgersFrom first m ++ ledgersFrom (first + m) n = ledgersFrom first (m + n) := by
  rw [ledgersFrom, ledgersFrom, ledgersFrom, ← List.map_append, List.range'_append_1]

/-- The ledgers of a batch, by its length. -/
theorem batchLedgers_of_length (hc : 1 ≤ b.concurrency) {n : Nat} (hn : 0 < n)
    (hend : b.batchEnd.toNat + 1 = b.next.toNat + n) :
    batchLedgers b.next b.batchEnd = ledgersFrom b.next.toNat n := by
  rw [batchLedgers_eq (by rw [BitVec.le_def]; omega) (batchEnd_sub_lt hc)]
  congr 1
  omega

/-- A loop over a range that fits requests its ledgers one after another, and leaves its end as the checkpoint. -/
theorem loop_of_fits (hc : 1 ≤ b.concurrency) (hnext : b.next ≤ b.end) (hfit : b.Fits) (done : Nat) :
    b.loop ((b.end.toNat - b.next.toNat) / b.concurrency.toNat + 1) done =
      some (ledgersFrom b.next.toNat (b.end.toNat + 1 - b.next.toNat), b.end.toNat) := by
  have hone : (1 : BitVec 32).toNat = 1 := rfl
  have hpos : 0 < b.concurrency.toNat := by rwa [BitVec.le_def] at hc
  have hle := hnext
  rw [BitVec.le_def] at hle
  -- on the number of batches before the last one
  generalize hn : (b.end.toNat - b.next.toNat) / b.concurrency.toNat = n
  induction n generalizing b done with
  | zero =>
    have hlast : b.end.toNat < b.next.toNat + b.concurrency.toNat := by
      have := (Nat.div_eq_zero_iff_lt hpos).mp hn
      omega
    have hend := batchEnd_of_last hc hlast (by rw [← lastBatchStart_self hlast hle]; exact hfit.last_le)
    have hafter : ¬b.roundDone.next ≤ b.roundDone.end := by
      have hstop := hfit.stop_lt
      unfold lastLedger at hstop
      show ¬b.batchEnd + 1 ≤ b.end
      rw [hend, BitVec.le_def, BitVec.toNat_add, hone]
      omega
    rw [loop_succ hnext, loop_of_done hafter, Option.map_some, List.append_nil, hend,
      ← batchLedgers_of_length hc (n := b.end.toNat + 1 - b.next.toNat) (by omega) (by rw [hend]; omega), hend]
  | succ n ih =>
    have hroom : b.next.toNat + b.concurrency.toNat ≤ b.end.toNat := by
      have := (Nat.div_pos_iff.mp (by rw [hn]; omega : 0 < (b.end.toNat - b.next.toNat) / b.concurrency.toNat)).2
      omega
    have hend := batchEnd_of_room hc hroom
    have hnext' := toNat_roundDone_next hc hroom
    have hle' : b.roundDone.next.toNat ≤ b.roundDone.end.toNat := by rwa [hnext']
    have hn' : (b.roundDone.end.toNat - b.roundDone.next.toNat) / b.roundDone.concurrency.toNat = n := by
      rw [hnext']
      show (b.end.toNat - (b.next.toNat + b.concurrency.toNat)) / b.concurrency.toNat = n
      rw [batches_succ hpos hroom] at hn
      exact Nat.succ.inj hn
    have hrest := ih (b := b.roundDone) hc (by rwa [BitVec.le_def]) ((fits_roundDone_iff hc hroom).mpr hfit)
      b.batchEnd.toNat hpos hle' hn'
    rw [loop_succ hnext, hrest, Option.map_some, batchLedgers_of_length hc hpos (by omega), hnext', ledgersFrom_append]
    congr 3
    show b.concurrency.toNat + (b.end.toNat + 1 - (b.next.toNat + b.concurrency.toNat)) = _
    omega

/-- A loop over a range that does not fit requests ledger 0, if it ends at all. -/
theorem zero_mem_of_loop (hc : 1 ≤ b.concurrency) (hnext : b.next ≤ b.end) (hfit : ¬b.Fits) {rounds done : Nat}
    {requested : List (BitVec 32)} {checkpoint : Nat} (hloop : b.loop rounds done = some (requested, checkpoint)) :
    0 ∈ requested := by
  have hle := hnext
  rw [BitVec.le_def] at hle
  induction rounds generalizing b done requested with
  | zero =>
    rw [Backfill.loop, if_pos hnext] at hloop
    cases hloop
  | succ rounds ih =>
    rw [loop_succ hnext] at hloop
    obtain ⟨⟨rest, checkpoint'⟩, hrest, heq⟩ := Option.map_eq_some_iff.mp hloop
    cases heq
    by_cases hroom : b.next.toNat + b.concurrency.toNat ≤ b.end.toNat
    · have hnext' := toNat_roundDone_next hc hroom
      have hle' : b.roundDone.next.toNat ≤ b.roundDone.end.toNat := by rwa [hnext']
      exact List.mem_append_right _ (ih (b := b.roundDone) hc (by rwa [BitVec.le_def])
        (fun h => hfit ((fits_roundDone_iff hc hroom).mp h)) hrest hle')
    · rw [not_le] at hroom
      by_cases hwrap : 2 ^ 32 < b.next.toNat + b.concurrency.toNat
      · exact List.mem_append_left _ (zero_mem_of_wraps hnext hwrap)
      · -- the range ends with the last number, and the next round begins at ledger 0
        have hend := batchEnd_of_last hc hroom (by omega)
        have hlast : b.end.toNat = lastLedger := by
          by_contra hne
          have := toNat_le_lastLedger b.end
          refine hfit ⟨by omega, ?_⟩
          rw [lastBatchStart_self hroom hle]
          omega
        have hzero : b.roundDone.next = 0 := by
          show b.batchEnd + 1 = 0
          apply BitVec.eq_of_toNat_eq
          rw [hend, BitVec.toNat_add, hlast]
          rfl
        have hnext' : b.roundDone.next ≤ b.roundDone.end := by
          rw [hzero, BitVec.le_def]
          exact Nat.zero_le _
        obtain ⟨-, rest', -, rfl, -⟩ := mem_of_loop hnext' hrest
        refine List.mem_append_right _ (List.mem_append_left _ ?_)
        exact mem_batchLedgers (by rw [hzero]; exact BitVec.le_refl 0) (by rw [BitVec.le_def]; exact Nat.zero_le _)
          (batchEnd_sub_lt hc)

end

end Soroscan
