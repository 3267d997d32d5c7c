import Soroscan.Lib.Dictionary

/-!
# A dictionary table under open transactions

The same table while several transactions write into it. A row that a transaction wrote is seen by that transaction alone until
it is committed; when the transaction ends without a commit, its rows go. The sequence and the two uniqueness rules are shared
by all: an id is handed out once, and a key that an open transaction has proposed makes every other one that proposes it wait
until the first one has ended.
-/

namespace Soroscan

namespace Dict

variable {κ : Type*}

/-- The rows whose ids are kept. The sequence stays where it is. -/
def keep (d : Dict κ) (p : Nat → Bool) : Dict κ where
  rows := d.rows.filter fun r => p r.1
  last := d.last
  ids_le r hr := d.ids_le r (List.mem_filter.mp hr).1
  ids_nodup := d.ids_nodup.sublist (List.Sublist.map _ List.filter_sublist)
  keys_nodup := d.keys_nodup.sublist (List.Sublist.map _ List.filter_sublist)

theorem mem_keep {d : Dict κ} {p : Nat → Bool} {r : Nat × κ} : r ∈ (d.keep p).rows ↔ r ∈ d.rows ∧ p r.1 = true :=
  List.mem_filter

variable [DecidableEq κ]

/-- A row of the table after a proposal was there, or is the new key under the next value. -/
theorem mem_propose {d : Dict κ} {k : κ} {r : Nat × κ} (h : r ∈ (d.propose k).rows) : r ∈ d.rows ∨ r = (d.last + 1, k) := by
  unfold propose at h
  split at h
  · exact Or.inl h
  · exact (List.mem_append.mp h).imp_right List.mem_singleton.mp

/-- Where the next value of the sequence is not kept, a proposal leaves the rows that are kept. -/
theorem keep_propose_rows (d : Dict κ) (k : κ) {p q : Nat → Bool} (hnew : q (d.last + 1) = false)
    (hold : ∀ r ∈ d.rows, q r.1 = p r.1) : ((d.propose k).keep q).rows = (d.keep p).rows := by
  have hrows : d.rows.filter (fun r => q r.1) = d.rows.filter fun r => p r.1 := List.filter_congr hold
  unfold propose
  split
  · exact hrows
  · show (d.rows ++ [(d.last + 1, k)]).filter (fun r => q r.1) = d.rows.filter fun r => p r.1
    rw [List.filter_append, hrows, List.filter_cons_of_neg (by simp [hnew]), List.filter_nil, List.append_nil]

end Dict

/-- A dictionary table that transactions share: every row, and the open transaction that took each value of the sequence. A
value without one is committed, if a row has it. -/
structure Shared (κ τ : Type*) where
  all : Dict κ
  writer : Nat → Option τ

namespace Shared

variable {κ τ : Type*}

/-- A table without open transactions. -/
def ofDict (d : Dict κ) : Shared κ τ := ⟨d, fun _ => none⟩

/-- The rows everyone sees. -/
def committed (s : Shared κ τ) : Dict κ := s.all.keep fun id => (s.writer id).isNone

theorem mem_committed {s : Shared κ τ} {r : Nat × κ} : r ∈ s.committed.rows ↔ r ∈ s.all.rows ∧ s.writer r.1 = none := by
  rw [committed, Dict.mem_keep, Option.isNone_iff_eq_none]

@[simp] theorem committed_ofDict (d : Dict κ) : (ofDict d : Shared κ τ).committed = d :=
  Dict.ext_rows (List.filter_eq_self.mpr fun _ _ => rfl) rfl

variable [DecidableEq τ]

/-- The rows a transaction sees: the committed ones and its own. -/
def seen (s : Shared κ τ) (t : τ) : Dict κ := s.all.keep fun id => decide (s.writer id = none ∨ s.writer id = some t)

/-- A transaction ends with its rows. -/
def commit (s : Shared κ τ) (t : τ) : Shared κ τ where
  all := s.all
  writer id := if s.writer id = some t then none else s.writer id

/-- A transaction ends without its rows. -/
def abort (s : Shared κ τ) (t : τ) : Shared κ τ where
  all := s.all.keep fun id => decide (s.writer id ≠ some t)
  writer := s.writer

/-- There is nothing to roll back without an open transaction. -/
@[simp] theorem abort_ofDict (d : Dict κ) (t : τ) : (ofDict d : Shared κ τ).abort t = ofDict d := by
  have hkeep : d.keep (fun _ => decide ((none : Option τ) ≠ some t)) = d :=
    Dict.ext_rows (List.filter_eq_self.mpr fun _ _ => by simp) rfl
  rw [abort, ofDict, hkeep]

theorem mem_seen {s : Shared κ τ} {t : τ} {r : Nat × κ} :
    r ∈ (s.seen t).rows ↔ r ∈ s.all.rows ∧ (s.writer r.1 = none ∨ s.writer r.1 = some t) := by
  rw [seen, Dict.mem_keep, decide_eq_true_iff]

theorem committed_grows_seen (s : Shared κ τ) (t : τ) : s.committed.Grows (s.seen t) := fun _ hr =>
  mem_seen.mpr ⟨(mem_committed.mp hr).1, Or.inl (mem_committed.mp hr).2⟩

/-! ## Ending a transaction -/

/-- What a transaction saw is what everyone sees once it is committed. -/
theorem seen_grows_commit (s : Shared κ τ) (t : τ) : (s.seen t).Grows (s.commit t).committed := by
  intro r hr
  obtain ⟨hall, hwriter⟩ := mem_seen.mp hr
  refine mem_committed.mpr ⟨hall, ?_⟩
  rcases hwriter with hw | hw <;> simp [commit, hw]

/-- A commit takes no row from another transaction. -/
theorem seen_grows_commit_other (s : Shared κ τ) {t t' : τ} (h : t' ≠ t) : (s.seen t').Grows ((s.commit t).seen t') := by
  intro r hr
  obtain ⟨hall, hwriter⟩ := mem_seen.mp hr
  refine mem_seen.mpr ⟨hall, ?_⟩
  rcases hwriter with hw | hw
  · exact Or.inl (by simp [commit, hw])
  · exact Or.inr (by simp [commit, hw, h])

/-- Everyone else sees the same rows when a transaction ends without a commit. -/
theorem committed_abort_rows (s : Shared κ τ) (t : τ) : (s.abort t).committed.rows = s.committed.rows := by
  show (s.all.rows.filter fun r => decide (s.writer r.1 ≠ some t)).filter (fun r => (s.writer r.1).isNone) =
    s.all.rows.filter fun r => (s.writer r.1).isNone
  rw [List.filter_filter]
  refine List.filter_congr fun r _ => ?_
  cases s.writer r.1 <;> simp

theorem seen_grows_abort_other (s : Shared κ τ) {t t' : τ} (h : t' ≠ t) : (s.seen t').Grows ((s.abort t).seen t') := by
  intro r hr
  obtain ⟨hall, hwriter⟩ := mem_seen.mp hr
  refine mem_seen.mpr ⟨Dict.mem_keep.mpr ⟨hall, ?_⟩, hwriter⟩
  rcases hwriter with hw | hw <;> simp [hw, h]

/-! ## Proposing a row -/

variable [DecidableEq κ]

/-- The key stands in a row of another open transaction. -/
def Waits (s : Shared κ τ) (t : τ) (k : κ) : Prop := ∃ r ∈ s.all.rows, r.2 = k ∧ s.writer r.1 ≠ none ∧ s.writer r.1 ≠ some t

instance (s : Shared κ τ) (t : τ) (k : κ) : Decidable (s.Waits t k) :=
  inferInstanceAs (Decidable (∃ r ∈ s.all.rows, r.2 = k ∧ s.writer r.1 ≠ none ∧ s.writer r.1 ≠ some t))

/-- Propose one row inside a transaction, which has to wait while another open one has the key. -/
def propose (s : Shared κ τ) (t : τ) (k : κ) : Option (Shared κ τ) :=
  if s.Waits t k then none else some ⟨s.all.propose k, Function.update s.writer (s.all.last + 1) (some t)⟩

section

variable {s s' : Shared κ τ} {t t' : τ} {k : κ}

theorem propose_eq (h : s.propose t k = some s') :
    ¬s.Waits t k ∧ s' = ⟨s.all.propose k, Function.update s.writer (s.all.last + 1) (some t)⟩ := by
  unfold propose at h
  split_ifs at h with hw
  exact ⟨hw, (Option.some.inj h).symm⟩

omit [DecidableEq τ] [DecidableEq κ] in
/-- The writer of a row that is there stays when the next value is taken. -/
theorem update_writer_of_mem (s : Shared κ τ) (w : Option τ) {r : Nat × κ} (hr : r ∈ s.all.rows) :
    Function.update s.writer (s.all.last + 1) w r.1 = s.writer r.1 := by
  have := (s.all.ids_le r hr).2
  exact Function.update_of_ne (by omega) _ _

theorem propose_last (h : s.propose t k = some s') : s'.all.last = s.all.last + 1 := by
  rw [(propose_eq h).2]
  exact Dict.propose_last _ _

/-- A proposal is not seen outside its transaction. -/
theorem committed_propose_rows (h : s.propose t k = some s') : s'.committed.rows = s.committed.rows := by
  rw [(propose_eq h).2]
  exact Dict.keep_propose_rows _ _ (by simp) fun r hr => congrArg Option.isNone (update_writer_of_mem s _ hr)

theorem seen_grows_propose (h : s.propose t k = some s') (t' : τ) : (s.seen t').Grows (s'.seen t') := by
  intro r hr
  obtain ⟨hall, hwriter⟩ := mem_seen.mp hr
  rw [(propose_eq h).2]
  refine mem_seen.mpr ⟨Dict.grows_propose _ _ hall, ?_⟩
  show Function.update s.writer (s.all.last + 1) (some t) r.1 = none ∨
    Function.update s.writer (s.all.last + 1) (some t) r.1 = some t'
  rw [update_writer_of_mem s _ hall]
  exact hwriter

/-- After its proposal a transaction sees the key, under an old id or a new one. -/
theorem mem_seen_keys_propose (h : s.propose t k = some s') : k ∈ (s'.seen t).keys := by
  obtain ⟨hw, hs'⟩ := propose_eq h
  by_cases hk : k ∈ s.all.keys
  · -- the row is committed or the transaction's own: another open one would make it wait
    obtain ⟨r, hr, hrk⟩ := List.mem_map.mp hk
    have hwriter : s.writer r.1 = none ∨ s.writer r.1 = some t := by
      by_contra hno
      rw [not_or] at hno
      exact hw ⟨r, hr, hrk, hno.1, hno.2⟩
    exact List.mem_map.mpr ⟨r, seen_grows_propose h t (mem_seen.mpr ⟨hr, hwriter⟩), hrk⟩
  · rw [hs']
    refine List.mem_map.mpr ⟨(s.all.last + 1, k), mem_seen.mpr ⟨?_, Or.inr (Function.update_self _ _ _)⟩, rfl⟩
    rw [Dict.propose, dif_neg hk]
    exact List.mem_append_right _ (List.mem_singleton_self _)

end

/-! ## One open transaction -/

/-- No transaction but one is open: it sees every row, and its work began on a table of which the rows are still the committed
ones. -/
structure Alone (s : Shared κ τ) (t : τ) (before now : Dict κ) : Prop where
  all : s.all = now
  mine : ∀ r ∈ s.all.rows, s.writer r.1 = none ∨ s.writer r.1 = some t
  committed : s.committed.rows = before.rows
  last : before.last ≤ now.last

omit [DecidableEq τ] [DecidableEq κ] in
theorem alone_ofDict (d : Dict κ) (t : τ) : (ofDict d : Shared κ τ).Alone t d d :=
  ⟨rfl, fun _ _ => Or.inl rfl, by rw [committed_ofDict], le_refl _⟩

omit [DecidableEq κ] in
theorem Alone.seen {s : Shared κ τ} {t : τ} {before now : Dict κ} (h : s.Alone t before now) : s.seen t = now := by
  refine Dict.ext_rows ?_ (by rw [← h.all]; rfl)
  rw [← h.all]
  exact List.filter_eq_self.mpr fun r hr => decide_eq_true (h.mine r hr)

omit [DecidableEq κ] in
theorem Alone.commit {s : Shared κ τ} {t : τ} {before now : Dict κ} (h : s.Alone t before now) :
    (s.commit t).committed = now := by
  refine Dict.ext_rows ?_ (by rw [← h.all]; rfl)
  rw [← h.all]
  refine List.filter_eq_self.mpr fun r hr => ?_
  rcases h.mine r hr with hw | hw <;> simp [Shared.commit, hw]

omit [DecidableEq κ] in
theorem Alone.abort {s : Shared κ τ} {t : τ} {before now : Dict κ} (h : s.Alone t before now) :
    (s.abort t).committed = before.burn now.last := by
  refine Dict.ext_rows ((committed_abort_rows s t).trans h.committed) ?_
  show s.all.last = max before.last now.last
  rw [h.all, max_eq_right h.last]

theorem Alone.propose {s : Shared κ τ} {t : τ} {before now : Dict κ} (h : s.Alone t before now) (k : κ) :
    ∃ s', s.propose t k = some s' ∧ s'.Alone t before (now.propose k) := by
  have hfree : ¬s.Waits t k := by
    rintro ⟨r, hr, -, hopen, hother⟩
    exact (h.mine r hr).elim hopen hother
  have hs' : s.propose t k = some ⟨s.all.propose k, Function.update s.writer (s.all.last + 1) (some t)⟩ := if_neg hfree
  refine ⟨_, hs', ⟨by rw [h.all], fun r hr => ?_, (committed_propose_rows hs').trans h.committed, ?_⟩⟩
  · show Function.update s.writer (s.all.last + 1) (some t) r.1 = none ∨
      Function.update s.writer (s.all.last + 1) (some t) r.1 = some t
    rcases Dict.mem_propose hr with hr | rfl
    · rw [update_writer_of_mem s _ hr]
      exact h.mine r hr
    · exact Or.inr (Function.update_self _ _ _)
  · rw [Dict.propose_last]
    exact h.last.trans (Nat.le_succ _)

end Shared

end Soroscan
