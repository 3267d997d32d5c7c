import Soroscan.Lemmas.Live

/-!
# The live list is newest first, if batches come in order

Two producers merge into the live list: pages that Horizon answers, and the buffer of the stream. `mergeRecords` takes every
batch to be newer than the list. A run keeps the list newest first exactly when every batch is.
-/

namespace Soroscan

variable {R K : Type} [DecidableEq K]

/-- The hook among its producers: the ledger of the latest message, and what the latest update dropped. -/
structure Feed (R K : Type) where
  hook : Hook R K
  lastLedger : Option Nat
  dropped : List R

/-- The hook when it is mounted. -/
def Feed.mount : Feed R K := ⟨Hook.mount.1, none, []⟩

section Run

variable (o : StreamOptions R K) (ledger : R → Nat)

/-- What the producers may do: messages come in ascending order, and a page comes newest first. Pages are only asked for again
once the stream has failed. -/
def Feed.enabled (f : Feed R K) : Input R K → Bool
  | .message _ (some record) _ => f.lastLedger.all fun last => decide (last ≤ ledger record)
  | .page list => decide (list.Pairwise fun r s => ledger s < ledger r)
  | .poll => f.hook.polling
  | _ => true

/-- The ledger of the latest message, after an input. -/
def Feed.nextLedger (f : Feed R K) : Input R K → Option Nat
  | .message _ (some record) _ => some (ledger record)
  | _ => f.lastLedger

/-- One input, if the producers may send it. -/
def Feed.step (f : Feed R K) (input : Input R K) : Option (Feed R K) :=
  if f.enabled ledger input then
    some ⟨(f.hook.step o input).1, f.nextLedger ledger input,
      o.dropped f.hook.records (f.hook.incoming input) (f.hook.step o input).1.records⟩
  else none

/-- The list has no key twice and at most as many records as the cap, its ledgers descend strictly, and what the latest update
dropped is older than everything in it. -/
structure Feed.NewestFirst (f : Feed R K) : Prop where
  keys : (f.hook.records.map o.keyOf).Nodup
  length_le : f.hook.records.length ≤ o.cap
  descending : Descending ledger f.hook.records
  newest : StreamOptions.KeepsNewest ledger f.dropped f.hook.records

/-- What every run keeps, whatever the order of the batches. -/
structure Feed.Kept (f : Feed R K) : Prop where
  keys : (f.hook.records.map o.keyOf).Nodup
  length_le : f.hook.records.length ≤ o.cap
  buffer : f.hook.buffer.Pairwise fun r s => ledger r ≤ ledger s
  latest : ∀ r ∈ f.hook.buffer, ∃ last, f.lastLedger = some last ∧ ledger r ≤ last

variable {ledger} (hkey : ∀ r s, o.keyOf r = o.keyOf s ↔ ledger r = ledger s)

omit [DecidableEq K] in
/-- What an input brings is in weakly descending order. -/
theorem Feed.Kept.incoming {f : Feed R K} (h : f.Kept o ledger) {input : Input R K} (henabled : f.enabled ledger input = true) :
    (f.hook.incoming input).Pairwise fun r s => ledger s ≤ ledger r := by
  cases input with
  | flush => exact List.pairwise_reverse.mpr h.buffer
  | page list => exact (of_decide_eq_true henabled).imp le_of_lt
  | _ => exact List.Pairwise.nil

/-- The buffer stays in ascending order. -/
theorem Feed.Kept.buffer_step {f : Feed R K} (h : f.Kept o ledger) {input : Input R K}
    (henabled : f.enabled ledger input = true) :
    (f.hook.step o input).1.buffer.Pairwise (fun r s => ledger r ≤ ledger s) ∧
      ∀ r ∈ (f.hook.step o input).1.buffer, ∃ last, f.nextLedger ledger input = some last ∧ ledger r ≤ last := by
  rw [Hook.buffer_step]
  cases input with
  | flush => exact ⟨List.Pairwise.nil, fun r hr => absurd hr List.not_mem_nil⟩
  | message id record now =>
    cases record with
    | none =>
      simp only [Option.toList_none, List.append_nil]
      exact ⟨h.buffer, h.latest⟩
    | some record =>
      have hlast : ∀ r ∈ f.hook.buffer, ledger r ≤ ledger record := by
        intro r hr
        obtain ⟨last, hsome, hle⟩ := h.latest r hr
        rw [Feed.enabled, hsome, Option.all_some, decide_eq_true_eq] at henabled
        exact hle.trans henabled
      simp only [Option.toList_some]
      refine ⟨List.pairwise_append.mpr ⟨h.buffer, List.pairwise_singleton _ _, fun r hr s hs => ?_⟩, fun r hr => ?_⟩
      · rw [List.mem_singleton.mp hs]
        exact hlast r hr
      · refine ⟨ledger record, rfl, ?_⟩
        rcases List.mem_append.mp hr with hr | hr
        · exact hlast r hr
        · rw [List.mem_singleton.mp hr]
  | _ => exact ⟨h.buffer, h.latest⟩

/-- Every input keeps the keys apart, the cap and the order of the buffer. -/
theorem Feed.Kept.step {f f' : Feed R K} (h : f.Kept o ledger) {input : Input R K} (hstep : f.step o ledger input = some f') :
    f'.Kept o ledger := by
  unfold Feed.step at hstep
  split_ifs at hstep with henabled
  cases hstep
  obtain ⟨hbuffer, hlatest⟩ := h.buffer_step o henabled
  have hrecords := f.hook.records_step o input
  rw [o.mergeRecords_eq h.length_le] at hrecords
  refine ⟨?_, ?_, hbuffer, hlatest⟩
  · rw [hrecords]
    exact List.pairwise_map.mpr ((o.joined_keys (List.pairwise_map.mp h.keys) _).sublist (List.take_sublist _ _))
  · rw [hrecords, List.length_take]
    exact min_le_left _ _

omit [DecidableEq K] in
theorem Feed.kept_mount : (Feed.mount : Feed R K).Kept o ledger :=
  ⟨List.nodup_nil, Nat.zero_le _, List.Pairwise.nil, fun _ hr => absurd hr List.not_mem_nil⟩

include hkey

/-- Where the list is newest first, an input leaves it so exactly when what it brings comes in order. -/
theorem Feed.NewestFirst.step_iff {f f' : Feed R K} (hkept : f.Kept o ledger) (h : f.NewestFirst o ledger) {input : Input R K}
    (hstep : f.step o ledger input = some f') :
    f'.NewestFirst o ledger ↔ o.InOrder ledger f.hook.records (f.hook.incoming input) := by
  have hkept' := hkept.step o hstep
  unfold Feed.step at hstep
  split_ifs at hstep with henabled
  cases hstep
  rw [← o.merge_iff hkey h.length_le h.descending (hkept.incoming o henabled), ← Hook.records_step]
  exact ⟨fun h' => ⟨h'.descending, h'.newest⟩, fun h' => ⟨hkept'.keys, hkept'.length_le, h'.1, h'.2⟩⟩

end Run

/-- In every run of the hook, whatever the order in which messages, flushes and pages land: the list is newest first after every
update exactly when every batch comes in order, that is when no record on the list that the batch lacks is newer than one that
the batch brings. The key of a record goes with its ledger. -/
theorem newestFirst_iff_inOrder (o : StreamOptions R K) (ledger : R → Nat)
    (hkey : ∀ r s, o.keyOf r = o.keyOf s ↔ ledger r = ledger s) (inputs : List (Input R K)) :
    (∀ f ∈ states (Feed.step o ledger) Feed.mount inputs, f.NewestFirst o ledger) ↔
      EachStep (Feed.step o ledger) (fun f input => o.InOrder ledger f.hook.records (f.hook.incoming input)) Feed.mount inputs :=
  states_iff_eachStep (fun _ _ _ hkept hstep => hkept.step o hstep)
    (fun _ _ _ hkept h hstep => h.step_iff o hkey hkept hstep) (Feed.kept_mount o)
    ⟨List.nodup_nil, Nat.zero_le _, List.Pairwise.nil, fun _ hr => absurd hr List.not_mem_nil⟩ inputs

/-! ## A page that comes late -/

/-- A list of at most three ledgers, which are their own keys. -/
def ledgerOptions : StreamOptions Nat Nat := ⟨3, id⟩

/-- The page answered before ledger 101 closed arrives after the flush of its message. -/
def lateInputs : List (Input Nat Nat) := [.message (some 101) (some 101) 61000, .flush, .page [100, 99, 98]]

/-- The same page, arriving before the flush. -/
def promptInputs : List (Input Nat Nat) := [.message (some 101) (some 101) 61000, .page [100, 99, 98], .flush]

theorem newestFirst_promptInputs :
    EachStep (Feed.step ledgerOptions id)
        (fun f input => ledgerOptions.InOrder id f.hook.records (f.hook.incoming input)) Feed.mount promptInputs ∧
      ∀ f ∈ states (Feed.step ledgerOptions id) Feed.mount promptInputs, f.NewestFirst ledgerOptions id := by
  refine (fun hok => ⟨hok, (newestFirst_iff_inOrder ledgerOptions id (fun _ _ => Iff.rfl) promptInputs).mpr hok⟩) ?_
  rintro f₁ ⟨rfl⟩
  refine ⟨fun r hr => absurd hr List.not_mem_nil, ?_⟩
  rintro f₂ ⟨rfl⟩
  refine ⟨fun r hr => absurd hr List.not_mem_nil, ?_⟩
  rintro f₃ ⟨rfl⟩
  refine ⟨?_, trivial⟩
  show ∀ r ∈ [100, 99, 98], _ → ∀ s ∈ [101], r < s
  decide

/-- The late page takes the place of the newer record: the list ends with 100 at its top. -/
theorem newestFirst_fails_lateInputs :
    ∃ f ∈ states (Feed.step ledgerOptions id) Feed.mount lateInputs, ¬f.NewestFirst ledgerOptions id := by
  refine ⟨_, List.mem_cons_of_mem _ (List.mem_cons_of_mem _ (List.mem_cons_of_mem _ List.mem_cons_self)), fun h => ?_⟩
  have hdropped := h.newest 101 (by decide) 100 (by decide)
  exact absurd hdropped (by decide)

end Soroscan
