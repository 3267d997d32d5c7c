import Soroscan.Lib.Reader

/-!
# Readers that keep a log

A reading program with a log of what it did, whether it fails or not: how often its procedure was called, and where it read how many
bytes. `Meters width most k p q P` says that `p` is the program `q` with a log, and what the log costs: every read is inside the
bytes, there are at most `most` reads to a call and `k` others, and every call that returns has taken `width` bytes for itself. Only
a last call, in which the program fails, may have taken fewer. `P` relates the value to the number of calls.
-/

namespace Soroscan

/-- How many calls there were, and where how many bytes were read. -/
structure ReadLog where
  calls : Nat
  reads : List (Nat × Nat)
  deriving DecidableEq, Repr

namespace ReadLog

/-- Nothing was done. -/
def empty : ReadLog := ⟨0, []⟩

/-- One log after another. -/
def append (log log' : ReadLog) : ReadLog := ⟨log.calls + log'.calls, log.reads ++ log'.reads⟩

@[simp] theorem empty_calls : empty.calls = 0 := rfl

@[simp] theorem empty_reads : empty.reads = [] := rfl

@[simp] theorem append_calls (log log' : ReadLog) : (log.append log').calls = log.calls + log'.calls := rfl

@[simp] theorem append_reads (log log' : ReadLog) : (log.append log').reads = log.reads ++ log'.reads := rfl

theorem append_assoc (log log' log'' : ReadLog) : (log.append log').append log'' = log.append (log'.append log'') := by
  simp only [append, Nat.add_assoc, List.append_assoc]

end ReadLog

/-- Programs that read, may fail with an error, and leave a log in any case. -/
def LoggedM (ε α : Type) : Type := Reader → ReadLog × Except ε (α × Reader)

namespace LoggedM

variable {ε α β : Type}

/-- The second program runs where the first one ends, unless that fails. -/
def andThen (p : LoggedM ε α) (f : α → LoggedM ε β) : LoggedM ε β := fun r =>
  match p r with
  | (log, .ok (a, r')) => (log.append (f a r').1, (f a r').2)
  | (log, .error e) => (log, .error e)

instance : Monad (LoggedM ε) where
  pure a := fun r => (.empty, .ok (a, r))
  bind := andThen

/-- The program fails. -/
def fail (e : ε) : LoggedM ε α := fun _ => (.empty, .error e)

/-- The next `count` bytes are read, or there are fewer and nothing is read. -/
def fixed (e : ε) (count : Nat) : LoggedM ε Bytes := fun r =>
  if h : r.pos + count ≤ r.bytes.length then
    (⟨0, [(r.pos, count)]⟩, .ok ((r.bytes.drop r.pos).take count, ⟨r.bytes, r.pos + count, h⟩))
  else (.empty, .error e)

/-- How many bytes are left. -/
def left : LoggedM ε Nat := fun r => (.empty, .ok (r.remaining, r))

/-- A call of a procedure with this body. -/
def call (body : LoggedM ε α) : LoggedM ε α := fun r => (ReadLog.append ⟨1, []⟩ (body r).1, (body r).2)

/-- One item after another, as many as the count says. -/
def many (item : LoggedM ε α) : Nat → LoggedM ε (List α)
  | 0 => pure []
  | n + 1 => do
    let a ← item
    let as ← many item n
    return a :: as

/-! ## What a program costs -/

/-- What a run from a reader may leave in the log for its outcome. -/
structure Costs (width most : Nat) (k : Int) (P : α → Nat → Prop) (r : Reader) (log : ReadLog) (outcome : Except ε (α × Reader)) :
    Prop where
  inside : ∀ read ∈ log.reads, read.1 + read.2 ≤ r.bytes.length
  reads_le : (log.reads.length : Int) ≤ k + most * log.calls
  ok : ∀ a r', outcome = .ok (a, r') → r'.bytes = r.bytes ∧ r.pos + width * log.calls ≤ r'.pos ∧ P a log.calls
  error : ∀ e, outcome = .error e → r.pos + width * log.calls ≤ r.bytes.length + width

/-- `p` is `q` with a log, and costs no more than this. -/
def Meters (width most : Nat) (k : Int) (p : LoggedM ε α) (q : ReadM ε α) (P : α → Nat → Prop) : Prop :=
  ∀ r, (p r).2 = q r ∧ Costs width most k P r (p r).1 (q r)

section

variable {width most : Nat} {k m : Int} {p : LoggedM ε α} {q : ReadM ε α} {f : α → LoggedM ε β} {g : α → ReadM ε β}
  {P Q : α → Nat → Prop} {R : β → Nat → Prop}

theorem Meters.mono (h : Meters width most k p q P) (hk : k ≤ m) (hPQ : ∀ a n, P a n → Q a n) : Meters width most m p q Q := by
  intro r
  obtain ⟨herase, hcosts⟩ := h r
  refine ⟨herase, hcosts.inside, hcosts.reads_le.trans (Int.add_le_add_right hk _), fun a r' hrun => ?_, hcosts.error⟩
  obtain ⟨hbytes, hpos, hvalue⟩ := hcosts.ok a r' hrun
  exact ⟨hbytes, hpos, hPQ a _ hvalue⟩

/-- A value that costs nothing. -/
theorem costs_ok {a : α} {r : Reader} (h : P a 0) : Costs width most 0 P r .empty (.ok (a, r) : Except ε (α × Reader)) where
  inside _ hread := absurd hread List.not_mem_nil
  reads_le := by simp
  ok := by
    rintro _ _ ⟨⟩
    exact ⟨rfl, Nat.le_refl _, h⟩
  error := by rintro e ⟨⟩

/-- A failure that costs nothing. -/
theorem costs_error {e : ε} {r : Reader} (hk : 0 ≤ k) : Costs width most k P r .empty (.error e) where
  inside _ hread := absurd hread List.not_mem_nil
  reads_le := by simpa using hk
  ok := by rintro a r' ⟨⟩
  error _ _ := Nat.le_add_right_of_le r.pos_le

theorem meters_pure {a : α} (h : P a 0) : Meters width most 0 (pure a : LoggedM ε α) (pure a) P :=
  fun _ => ⟨rfl, costs_ok h⟩

theorem meters_fail (e : ε) (hk : 0 ≤ k) : Meters width most k (fail e : LoggedM ε α) (throw e) P :=
  fun _ => ⟨rfl, costs_error hk⟩

theorem meters_left : Meters width most 0 (left : LoggedM ε Nat) Reader.left fun _ _ => True :=
  fun _ => ⟨rfl, costs_ok trivial⟩

theorem meters_fixed (e : ε) (count : Nat) : Meters width most 1 (fixed e count) (Reader.fixed e count) fun _ _ => True := by
  intro r
  unfold fixed Reader.fixed
  split
  · next hle =>
    refine ⟨rfl, ?_, ?_, ?_, ?_⟩
    · intro read hread
      obtain rfl := List.mem_singleton.mp hread
      exact hle
    · simp
    · rintro _ _ ⟨⟩
      exact ⟨rfl, Nat.le_add_right _ _, trivial⟩
    · rintro e ⟨⟩
  · exact ⟨rfl, costs_error Int.one_nonneg⟩

/-! ## One program after another -/

theorem andThen_ok {r r' : Reader} {a : α} (h : (p r).2 = .ok (a, r')) :
    (p >>= f) r = ((p r).1.append (f a r').1, (f a r').2) := by
  show andThen p f r = _
  unfold andThen
  rw [show p r = ((p r).1, .ok (a, r')) from Prod.ext rfl h]

theorem andThen_error {r : Reader} {e : ε} (h : (p r).2 = .error e) : (p >>= f) r = ((p r).1, .error e) := by
  show andThen p f r = _
  unfold andThen
  rw [show p r = ((p r).1, .error e) from Prod.ext rfl h]

theorem bind_ok {r r' : Reader} {a : α} (h : q r = .ok (a, r')) : (q >>= g) r = g a r' := by
  show (q r >>= fun ar => g ar.1 ar.2) = _
  rw [h]
  rfl

theorem bind_error {r : Reader} {e : ε} (h : q r = .error e) : (q >>= g) r = .error e := by
  show (q r >>= fun ar => g ar.1 ar.2) = _
  rw [h]
  rfl

/-- A program after another one costs what both do. -/
theorem Meters.bind (hp : Meters width most k p q P) (hm : 0 ≤ m)
    (hf : ∀ a n, P a n → Meters width most m (f a) (g a) fun b n' => R b (n + n')) :
    Meters width most (k + m) (p >>= f) (q >>= g) R := by
  intro r
  obtain ⟨herase, hcosts⟩ := hp r
  have hreads := hcosts.reads_le
  cases hq : q r with
  | error e =>
    rw [andThen_error (herase.trans hq), bind_error hq]
    refine ⟨rfl, hcosts.inside, ?_, by rintro b r' ⟨⟩, fun _ _ => hcosts.error e hq⟩
    dsimp only
    omega
  | ok ar =>
    obtain ⟨hbytes, hpos, hvalue⟩ := hcosts.ok ar.1 ar.2 hq
    obtain ⟨herase', hcosts'⟩ := hf ar.1 _ hvalue ar.2
    have hreads' := hcosts'.reads_le
    rw [andThen_ok (herase.trans hq), bind_ok hq]
    refine ⟨herase', ?_, ?_, ?_, ?_⟩
    · intro read hread
      rcases List.mem_append.mp hread with hread | hread
      · exact hcosts.inside read hread
      · rw [← hbytes]
        exact hcosts'.inside read hread
    · simp only [ReadLog.append_calls, ReadLog.append_reads, List.length_append, Int.natCast_add, Int.mul_add]
      omega
    · intro b r'' hrun
      obtain ⟨hbytes', hpos', hvalue'⟩ := hcosts'.ok b r'' hrun
      simp only [ReadLog.append_calls, Nat.mul_add]
      exact ⟨hbytes'.trans hbytes, by omega, hvalue'⟩
    · intro e hrun
      have herror := hcosts'.error e hrun
      rw [hbytes] at herror
      simp only [ReadLog.append_calls, Nat.mul_add]
      omega

/-- A value that is made into another one, without reading on. -/
theorem Meters.map (hp : Meters width most k p q P) {h : α → β} (hR : ∀ a n, P a n → R (h a) n) :
    Meters width most k (p >>= fun a => pure (h a)) (q >>= fun a => pure (h a)) R :=
  (hp.bind (Int.le_refl 0) fun a n ha => meters_pure (hR a n ha)).mono (Int.le_of_eq (Int.add_zero k)) fun _ _ hR => hR

theorem Meters.ite {c : Prop} [Decidable c] {p' : LoggedM ε α} {q' : ReadM ε α} (h : c → Meters width most k p q P)
    (h' : ¬c → Meters width most k p' q' P) :
    Meters width most k (if c then p else p') (if c then q else q') P := by
  by_cases hc : c
  · rw [if_pos hc, if_pos hc]
    exact h hc
  · rw [if_neg hc, if_neg hc]
    exact h' hc

/-- A check, after which the program fails or goes on. -/
theorem meters_unless {c : Prop} [Decidable c] (e : ε) {next : LoggedM ε β} {next' : ReadM ε β} (hk : 0 ≤ k)
    (h : ¬c → Meters width most k next next' R) :
    Meters width most k (if c then fail e >>= f else next) (if c then throw e >>= g else next') R :=
  Meters.ite (fun _ => fun _ => ⟨rfl, costs_error hk⟩) h

/-- As many items as the count says: every one costs what it does alone. -/
theorem Meters.many {item : LoggedM ε α} {item' : ReadM ε α} {S : α → Prop} {weight : α → Nat}
    (h : Meters width most 0 item item' fun a n => S a ∧ weight a ≤ n) (count : Nat) :
    Meters width most 0 (many item count) (Reader.many item' count) fun as n => (∀ a ∈ as, S a) ∧ (as.map weight).sum ≤ n := by
  induction count with
  | zero => exact meters_pure ⟨fun _ ha => absurd ha List.not_mem_nil, Nat.le_refl 0⟩
  | succ count ih =>
    refine h.bind (Int.le_refl 0) fun a n ha => ih.map fun as n' has => ⟨List.forall_mem_cons.mpr ⟨ha.1, has.1⟩, ?_⟩
    rw [List.map_cons, List.sum_cons]
    exact Nat.add_le_add ha.2 has.2

/-! ## Calls -/

theorem call_apply (p : LoggedM ε α) (r : Reader) : call p r = (ReadLog.append ⟨1, []⟩ (p r).1, (p r).2) := rfl

theorem call_bind (p : LoggedM ε α) (f : α → LoggedM ε β) : call (p >>= f) = call p >>= f := by
  funext r
  rw [call_apply]
  cases hp : (p r).2 with
  | error e =>
    have hcall : (call p r).2 = .error e := hp
    rw [andThen_error hp, andThen_error hcall, call_apply]
  | ok ar =>
    have hcall : (call p r).2 = .ok (ar.1, ar.2) := hp
    rw [andThen_ok hp, andThen_ok hcall, call_apply, ReadLog.append_assoc]

/-- A call pays for itself with the bytes it reads first. What it does not read, others may. -/
theorem meters_call_fixed (e : ε) :
    Meters width most (1 - most) (call (fixed e width)) (Reader.fixed e width) fun _ n => n = 1 := by
  intro r
  unfold call fixed Reader.fixed
  split
  · next hle =>
    refine ⟨rfl, ?_, ?_, ?_, ?_⟩
    · intro read hread
      obtain rfl := List.mem_singleton.mp hread
      exact hle
    · simp
    · rintro _ _ ⟨⟩
      exact ⟨rfl, Nat.le_of_eq (by simp), rfl⟩
    · rintro e ⟨⟩
  · refine ⟨rfl, fun _ hread => absurd hread List.not_mem_nil, ?_, by rintro a r' ⟨⟩, fun _ _ => ?_⟩
    · simp
    · exact Nat.add_le_add r.pos_le (Nat.le_of_eq (Nat.mul_one width))

/-- A call that fails at once. -/
theorem meters_call_fail (e : ε) : Meters width most 0 (call (fail e) : LoggedM ε α) (throw e) P := by
  intro r
  refine ⟨rfl, fun _ hread => absurd hread List.not_mem_nil, ?_, by rintro a r' ⟨⟩, fun _ _ => ?_⟩
  · simp [call, fail]
  · exact Nat.add_le_add r.pos_le (Nat.le_of_eq (Nat.mul_one width))

end

end LoggedM

end Soroscan
