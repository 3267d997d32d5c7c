import Soroscan.Live
import Soroscan.Lib.Descending

/-!
# Merging records

What `mergeRecords` does to the list: which records are in it afterwards, which were dropped, and when the order survives.
-/

namespace Soroscan

namespace StreamOptions

variable {R K : Type} [DecidableEq K] (o : StreamOptions R K)

theorem seen_iff {records : List R} {record : R} :
    o.seen records record = true ↔ ∃ r ∈ records, o.keyOf r = o.keyOf record := by
  rw [seen, List.any_eq_true]
  simp only [decide_eq_true_eq]

theorem deduped_concat (incoming : List R) (record : R) :
    o.deduped (incoming ++ [record]) =
      if o.seen (o.deduped incoming) record then o.deduped incoming else o.deduped incoming ++ [record] := by
  rw [deduped, deduped, List.foldl_append]
  rfl

theorem deduped_sublist (incoming : List R) : (o.deduped incoming).Sublist incoming := by
  induction incoming using List.reverseRecOn with
  | nil => exact List.Sublist.refl _
  | append_singleton incoming record ih =>
    rw [deduped_concat]
    split_ifs
    · exact ih.trans (List.sublist_append_left _ _)
    · exact ih.append (List.Sublist.refl _)

/-- Each key stays. -/
theorem seen_deduped (incoming : List R) (record : R) : o.seen (o.deduped incoming) record = o.seen incoming record := by
  induction incoming using List.reverseRecOn with
  | nil => rfl
  | append_singleton incoming last ih =>
    rw [deduped_concat]
    have hsplit : o.seen (incoming ++ [last]) record = (o.seen incoming record || decide (o.keyOf last = o.keyOf record)) := by
      rw [seen, List.any_append, List.any_cons, List.any_nil, Bool.or_false]
      rfl
    split_ifs with hseen
    · rw [ih, hsplit]
      by_cases hkey : o.keyOf last = o.keyOf record
      · -- a key that was there already
        obtain ⟨r, hr, hrkey⟩ := o.seen_iff.mp hseen
        rw [← ih, o.seen_iff.mpr ⟨r, hr, hrkey.trans hkey⟩, Bool.true_or]
      · rw [decide_eq_false hkey, Bool.or_false]
    · rw [hsplit, ← ih, seen, List.any_append, List.any_cons, List.any_nil, Bool.or_false]
      rfl

/-- Each key stays once. -/
theorem deduped_keys (incoming : List R) : (o.deduped incoming).Pairwise fun r s => o.keyOf r ≠ o.keyOf s := by
  induction incoming using List.reverseRecOn with
  | nil => exact List.Pairwise.nil
  | append_singleton incoming record ih =>
    rw [deduped_concat]
    split_ifs with hseen
    · exact ih
    · refine List.pairwise_append.mpr ⟨ih, List.pairwise_singleton _ _, fun r hr s hs hkey => ?_⟩
      rw [List.mem_singleton.mp hs] at hkey
      exact hseen (o.seen_iff.mpr ⟨r, hr, hkey⟩)

/-- The records of the list that a batch does not repeat. -/
def kept (existing incoming : List R) : List R := existing.filter fun record => !o.seen incoming record

/-- The records that a merge puts together, before the cap. -/
def joined (existing incoming : List R) : List R := o.deduped incoming ++ o.kept existing incoming

theorem mem_kept {existing incoming : List R} {r : R} :
    r ∈ o.kept existing incoming ↔ r ∈ existing ∧ ∀ s ∈ incoming, o.keyOf s ≠ o.keyOf r := by
  rw [kept, List.mem_filter, Bool.not_eq_true', ← Bool.not_eq_true, seen_iff]
  push Not
  rfl

/-- A merge keeps the front of what it puts together. -/
theorem mergeRecords_eq {existing : List R} (hcap : existing.length ≤ o.cap) (incoming : List R) :
    o.mergeRecords existing incoming = (o.joined existing incoming).take o.cap := by
  cases incoming with
  | nil =>
    have hkept : o.kept existing [] = existing := List.filter_eq_self.mpr fun _ _ => rfl
    rw [joined, hkept]
    exact (List.take_of_length_le hcap).symm
  | cons record incoming =>
    rw [mergeRecords, joined, kept]
    simp only [seen_deduped]
    rfl

/-- What a merge puts together has each key once. -/
theorem joined_keys {existing : List R} (hexisting : existing.Pairwise fun r s => o.keyOf r ≠ o.keyOf s) (incoming : List R) :
    (o.joined existing incoming).Pairwise fun r s => o.keyOf r ≠ o.keyOf s := by
  refine List.pairwise_append.mpr ⟨o.deduped_keys incoming, hexisting.sublist List.filter_sublist, fun r hr s hs => ?_⟩
  exact (o.mem_kept.mp hs).2 r ((o.deduped_sublist incoming).subset hr)

/-- Every record of the list and of the batch is put together, under its key. -/
theorem exists_joined {existing incoming : List R} {r : R} (hr : r ∈ existing ++ incoming) :
    ∃ s ∈ o.joined existing incoming, o.keyOf s = o.keyOf r := by
  by_cases hseen : o.seen incoming r = true
  · rw [← seen_deduped] at hseen
    obtain ⟨s, hs, hkey⟩ := o.seen_iff.mp hseen
    exact ⟨s, List.mem_append_left _ hs, hkey⟩
  · refine ⟨r, List.mem_append_right _ (List.mem_filter.mpr ⟨?_, by simpa using hseen⟩), rfl⟩
    rcases List.mem_append.mp hr with hr | hr
    · exact hr
    · exact absurd (o.seen_iff.mpr ⟨r, hr, rfl⟩) hseen

/-- The records that an update drops: those of the list and of the batch whose key is not in the result. -/
def dropped (existing incoming result : List R) : List R :=
  (existing ++ incoming).filter fun record => !o.seen result record

section Ledgers

variable (ledger : R → Nat)

/-- No record of the list that the batch lacks is newer than one that the batch brings to the list. -/
def InOrder (existing incoming : List R) : Prop :=
  ∀ r ∈ existing, (∀ s ∈ incoming, o.keyOf s ≠ o.keyOf r) → ∀ s ∈ (o.deduped incoming).take o.cap, ledger r < ledger s

/-- What was dropped is older than what is there. -/
def KeepsNewest (droppedRecords records : List R) : Prop := ∀ r ∈ droppedRecords, ∀ s ∈ records, ledger r < ledger s

variable {ledger} (hkey : ∀ r s, o.keyOf r = o.keyOf s ↔ ledger r = ledger s)

include hkey

/-- A batch in weakly descending order is strictly descending without its repetitions. -/
theorem descending_deduped {incoming : List R} (h : incoming.Pairwise fun r s => ledger s ≤ ledger r) :
    Descending ledger (o.deduped incoming) := by
  refine ((h.sublist (o.deduped_sublist incoming)).and (o.deduped_keys incoming)).imp fun {r s} hrs => ?_
  exact lt_of_le_of_ne hrs.1 fun heq => hrs.2 ((hkey r s).mpr heq.symm)

omit [DecidableEq K] in
theorem keys_of_descending {records : List R} (h : Descending ledger records) :
    records.Pairwise fun r s => o.keyOf r ≠ o.keyOf s :=
  h.imp fun {r s} hrs heq => absurd ((hkey r s).mp heq) hrs.ne'

/-- A merge into a list in order leaves a list in order, and drops only older records, exactly when the batch comes in order. -/
theorem merge_iff {existing incoming : List R} (hcap : existing.length ≤ o.cap) (hexisting : Descending ledger existing)
    (hincoming : incoming.Pairwise fun r s => ledger s ≤ ledger r) :
    (Descending ledger (o.mergeRecords existing incoming) ∧
      KeepsNewest ledger (o.dropped existing incoming (o.mergeRecords existing incoming)) (o.mergeRecords existing incoming)) ↔
    o.InOrder ledger existing incoming := by
  have hdeduped := o.descending_deduped hkey hincoming
  have hkept : Descending ledger (o.kept existing incoming) := hexisting.filter _
  have hkeys := o.joined_keys (o.keys_of_descending hkey hexisting) incoming
  have hsplit : o.mergeRecords existing incoming = (o.deduped incoming).take o.cap ++
      (o.kept existing incoming).take (o.cap - (o.deduped incoming).length) := by
    rw [o.mergeRecords_eq hcap, joined, List.take_append]
  constructor
  · rintro ⟨hdesc, hnewest⟩ r hr hnot s hs
    have hrkept : r ∈ o.kept existing incoming := o.mem_kept.mpr ⟨hr, hnot⟩
    rw [hsplit] at hdesc
    by_cases hin : r ∈ (o.kept existing incoming).take (o.cap - (o.deduped incoming).length)
    · exact (List.pairwise_append.mp hdesc).2.2 s hs r hin
    · refine hnewest r (List.mem_filter.mpr ⟨List.mem_append_left _ hr, ?_⟩) s (hsplit ▸ List.mem_append_left _ hs)
      rw [Bool.not_eq_true', ← Bool.not_eq_true, seen_iff]
      rintro ⟨t, ht, htkey⟩
      rw [hsplit] at ht
      rcases List.mem_append.mp ht with ht | ht
      · exact hnot t ((o.deduped_sublist incoming).subset (List.mem_of_mem_take ht)) htkey
      · exact hin (hkept.eq_of_key_eq (List.mem_of_mem_take ht) hrkept ((hkey t r).mp htkey) ▸ ht)
  · intro horder
    have hcross : ∀ s ∈ (o.deduped incoming).take o.cap, ∀ t ∈ o.kept existing incoming, ledger t < ledger s := by
      intro s hs t ht
      obtain ⟨hmem, hnot⟩ := o.mem_kept.mp ht
      exact horder t hmem hnot s hs
    refine ⟨?_, fun r hr s hs => ?_⟩
    · rw [hsplit]
      exact (hdeduped.take _).append (hkept.take _) fun s hs t ht => hcross s hs t (List.mem_of_mem_take ht)
    · obtain ⟨hmem, hgone⟩ := List.mem_filter.mp hr
      obtain ⟨t, ht, htkey⟩ := o.exists_joined hmem
      have htgone : t ∉ o.mergeRecords existing incoming := by
        intro hin
        rw [o.seen_iff.mpr ⟨t, hin, htkey⟩] at hgone
        cases hgone
      rw [hsplit, List.mem_append, not_or] at htgone
      rw [hsplit] at hs
      rw [← (hkey t r).mp htkey]
      rcases List.mem_append.mp ht with ht | ht
      · -- a record of the batch is dropped when the batch alone is longer than the cap
        rcases List.mem_append.mp hs with hs | hs
        · exact hdeduped.lt_of_take hs ht htgone.1
        · have hlong : o.cap < (o.deduped incoming).length := by
            by_contra hle
            rw [List.take_of_length_le (not_lt.mp hle)] at htgone
            exact htgone.1 ht
          rw [Nat.sub_eq_zero_of_le hlong.le, List.take_zero] at hs
          exact absurd hs List.not_mem_nil
      · rcases List.mem_append.mp hs with hs | hs
        · exact hcross s hs t ht
        · exact hkept.lt_of_take hs ht htgone.2

end Ledgers

end StreamOptions

/-! ## What an input does to the lists -/

section

variable {R K : Type} [DecidableEq K] (o : StreamOptions R K)

/-- Every input merges what it brings. -/
theorem Hook.records_step (h : Hook R K) (input : Input R K) :
    (h.step o input).1.records = o.mergeRecords h.records (h.incoming input) := by
  cases input with
  | flush =>
    rw [Hook.step, Hook.incoming]
    split_ifs with hempty
    · rw [List.isEmpty_iff.mp hempty]
      rfl
    · rfl
  | failed =>
    rw [Hook.step, Hook.onError]
    split_ifs <;> rfl
  | _ => rfl

/-- The buffer is emptied by a flush, and grows by a message. -/
theorem Hook.buffer_step (h : Hook R K) (input : Input R K) :
    (h.step o input).1.buffer = match input with
      | .flush => []
      | .message _ record _ => h.buffer ++ record.toList
      | _ => h.buffer := by
  cases input with
  | flush =>
    rw [Hook.step]
    split_ifs with hempty
    · exact List.isEmpty_iff.mp hempty
    · rfl
  | failed =>
    rw [Hook.step, Hook.onError]
    split_ifs <;> rfl
  | _ => rfl

end

end Soroscan
