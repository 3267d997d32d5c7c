import Soroscan.Lib.Utf8

/-!
# Bounds-checked readers

A reader is a byte string and how far it has been read; a read past the end is an error, so the position never leaves the
bytes. `Parses p bs o` says what a reading program makes of the bytes in front of it: it takes exactly `bs` off and returns a
value, or it fails on them. The rules compose it along the program, piece by piece of the bytes.
-/

namespace Soroscan

/-- A byte string, and how much of it has been read. -/
structure Reader where
  bytes : Bytes
  pos : Nat
  pos_le : pos ≤ bytes.length

/-- Programs that read, and may fail with an error. -/
abbrev ReadM (ε α : Type) : Type := StateT Reader (Except ε) α

namespace Reader

variable {ε α β γ : Type}

/-- Nothing has been read yet. -/
def start (bytes : Bytes) : Reader := ⟨bytes, 0, Nat.zero_le _⟩

/-- The bytes that have not been read. -/
def rest (r : Reader) : Bytes := r.bytes.drop r.pos

/-- How many bytes have not been read. -/
def remaining (r : Reader) : Nat := r.bytes.length - r.pos

/-- The next `count` bytes, or the error if there are fewer. -/
def fixed (e : ε) (count : Nat) : ReadM ε Bytes := fun r =>
  if h : r.pos + count ≤ r.bytes.length then .ok ((r.bytes.drop r.pos).take count, ⟨r.bytes, r.pos + count, h⟩)
  else .error e

/-- How many bytes are left. -/
def left : ReadM ε Nat := fun r => .ok (r.remaining, r)

/-- One item after another, as many as the count says. -/
def many (item : ReadM ε α) : Nat → ReadM ε (List α)
  | 0 => pure []
  | n + 1 => do
    let a ← item
    let as ← many item n
    return a :: as

theorem rest_start (bs : Bytes) : (start bs).rest = bs := rfl

theorem remaining_eq (r : Reader) : r.remaining = r.rest.length := List.length_drop.symm

/-! ## What a program makes of the bytes in front of it -/

/-- On every reader that has `bs` in front of it, the program takes exactly `bs` off and returns the value; with no value, it
fails. -/
def Parses (p : ReadM ε α) (bs : Bytes) : Option α → Prop
  | some a => ∀ (r : Reader) (after : Bytes), r.rest = bs ++ after → ∃ r', p r = .ok (a, r') ∧ r'.rest = after
  | none => ∀ (r : Reader) (after : Bytes), r.rest = bs ++ after → ∃ e, p r = .error e

theorem parses_pure (a : α) : Parses (pure a : ReadM ε α) [] (some a) :=
  fun r _ h => ⟨r, rfl, h⟩

theorem parses_throw (e : ε) (bs : Bytes) : Parses (throw e : ReadM ε α) bs none :=
  fun _ _ _ => ⟨e, rfl⟩

/-- A program after one that returned a value. -/
theorem Parses.bind {p : ReadM ε α} {f : α → ReadM ε β} {xs ys : Bytes} {a : α} {o : Option β} (hp : Parses p xs (some a))
    (hf : Parses (f a) ys o) : Parses (p >>= f) (xs ++ ys) o := by
  cases o with
  | none =>
    intro r after h
    obtain ⟨r', hr', hrest⟩ := hp r (ys ++ after) (by rw [h, List.append_assoc])
    obtain ⟨e, he⟩ := hf r' after hrest
    refine ⟨e, ?_⟩
    show (p r >>= fun ar => f ar.1 ar.2) = _
    rw [hr']
    exact he
  | some b =>
    intro r after h
    obtain ⟨r', hr', hrest⟩ := hp r (ys ++ after) (by rw [h, List.append_assoc])
    obtain ⟨r'', hr'', hrest'⟩ := hf r' after hrest
    refine ⟨r'', ?_, hrest'⟩
    show (p r >>= fun ar => f ar.1 ar.2) = _
    rw [hr']
    exact hr''

/-- No program runs after one that failed. -/
theorem Parses.bind_none {p : ReadM ε α} {xs : Bytes} (hp : Parses p xs none) (f : α → ReadM ε β) (ys : Bytes) :
    Parses (p >>= f) (xs ++ ys) none := by
  intro r after h
  obtain ⟨e, he⟩ := hp r (ys ++ after) (by rw [h, List.append_assoc])
  refine ⟨e, ?_⟩
  show (p r >>= fun ar => f ar.1 ar.2) = _
  rw [he]
  rfl

/-- A value that is made into another one, without reading on. -/
theorem Parses.map {p : ReadM ε α} {xs : Bytes} {o : Option α} (hp : Parses p xs o) (g : α → β) :
    Parses (p >>= fun a => pure (g a)) xs (o.map g) := by
  rw [← List.append_nil xs]
  cases o with
  | none => exact hp.bind_none _ []
  | some a => exact hp.bind (parses_pure (g a))

theorem parses_fixed (e : ε) {count : Nat} {bs : Bytes} (h : bs.length = count) : Parses (fixed e count) bs (some bs) := by
  intro r after hrest
  have hlen : r.bytes.length - r.pos = bs.length + after.length := by
    rw [← List.length_append, ← hrest, rest, List.length_drop]
  have hle : r.pos + count ≤ r.bytes.length := by
    have := r.pos_le
    omega
  refine ⟨⟨r.bytes, r.pos + count, hle⟩, ?_, ?_⟩
  · rw [fixed, dif_pos hle, ← rest, hrest, List.take_left' h]
  · rw [rest, ← List.drop_drop, ← rest, hrest, List.drop_left' h]

/-- A program that looks at how many bytes are left: at least those in front of it. -/
theorem parses_left {f : Nat → ReadM ε β} {bs : Bytes} {o : Option β} (h : ∀ n, bs.length ≤ n → Parses (f n) bs o) :
    Parses (left >>= f) bs o := by
  have hle : ∀ (r : Reader) (after : Bytes), r.rest = bs ++ after → bs.length ≤ r.remaining := by
    intro r after hrest
    rw [remaining_eq, hrest, List.length_append]
    exact Nat.le_add_right _ _
  cases o with
  | none => exact fun r after hrest => h r.remaining (hle r after hrest) r after hrest
  | some b => exact fun r after hrest => h r.remaining (hle r after hrest) r after hrest

/-- As many items as are in front of the reader: it fails if one of them fails. -/
theorem parses_many {item : ReadM ε β} {encode : α → Bytes} {shown : α → Option β} :
    ∀ {as : List α}, (∀ a ∈ as, Parses item (encode a) (shown a)) →
      Parses (many item as.length) (as.flatMap encode) (as.mapM shown)
  | [], _ => by
    rw [List.mapM_nil]
    exact parses_pure []
  | a :: as, h => by
    have hhead := h a List.mem_cons_self
    have htail := parses_many fun a' ha' => h a' (List.mem_cons_of_mem _ ha')
    rw [List.mapM_cons, List.flatMap_cons]
    cases hb : shown a with
    | none =>
      rw [hb] at hhead
      exact hhead.bind_none _ _
    | some b =>
      rw [hb] at hhead
      refine hhead.bind ?_
      cases hbs : as.mapM shown with
      | none =>
        rw [hbs] at htail
        exact htail.map _
      | some bs =>
        rw [hbs] at htail
        exact htail.map _

/-- What is left of a run from the start. -/
theorem Parses.run {p : ReadM ε α} {bs : Bytes} {o : Option α} (h : Parses p bs o) :
    (p (start bs)).toOption.map Prod.fst = o := by
  have hstart : (start bs).rest = bs ++ [] := by rw [rest_start, List.append_nil]
  cases o with
  | none =>
    obtain ⟨e, he⟩ := h _ _ hstart
    rw [he]
    rfl
  | some a =>
    obtain ⟨r', hr', -⟩ := h _ _ hstart
    rw [hr']
    rfl

/-! ## Bytes that are accepted, whatever their value -/

/-- On every reader that has `bs` in front of it, the program takes exactly `bs` off. -/
def Accepts (p : ReadM ε α) (bs : Bytes) : Prop :=
  ∀ (r : Reader) (after : Bytes), r.rest = bs ++ after → ∃ a r', p r = .ok (a, r') ∧ r'.rest = after

theorem Parses.accepts {p : ReadM ε α} {bs : Bytes} {a : α} (h : Parses p bs (some a)) : Accepts p bs := by
  intro r after hrest
  obtain ⟨r', hr', hafter⟩ := h r after hrest
  exact ⟨a, r', hr', hafter⟩

theorem Accepts.bind {p : ReadM ε α} {f : α → ReadM ε β} {xs ys : Bytes} (hp : Accepts p xs) (hf : ∀ a, Accepts (f a) ys) :
    Accepts (p >>= f) (xs ++ ys) := by
  intro r after h
  obtain ⟨a, r', hr', hrest⟩ := hp r (ys ++ after) (by rw [h, List.append_assoc])
  obtain ⟨b, r'', hr'', hrest'⟩ := hf a r' after hrest
  refine ⟨b, r'', ?_, hrest'⟩
  show (p r >>= fun ar => f ar.1 ar.2) = _
  rw [hr']
  exact hr''

/-- A program after one whose value is known. -/
theorem Parses.bind_accepts {p : ReadM ε α} {f : α → ReadM ε β} {xs ys : Bytes} {a : α} (hp : Parses p xs (some a))
    (hf : Accepts (f a) ys) : Accepts (p >>= f) (xs ++ ys) := by
  intro r after h
  obtain ⟨r', hr', hrest⟩ := hp r (ys ++ after) (by rw [h, List.append_assoc])
  obtain ⟨b, r'', hr'', hrest'⟩ := hf r' after hrest
  refine ⟨b, r'', ?_, hrest'⟩
  show (p r >>= fun ar => f ar.1 ar.2) = _
  rw [hr']
  exact hr''

theorem accepts_pure (a : α) : Accepts (pure a : ReadM ε α) [] := (parses_pure a).accepts

theorem Accepts.map {p : ReadM ε α} {xs : Bytes} (hp : Accepts p xs) (g : α → β) : Accepts (p >>= fun a => pure (g a)) xs := by
  rw [← List.append_nil xs]
  exact hp.bind fun a => accepts_pure (g a)

theorem accepts_left {f : Nat → ReadM ε β} {bs : Bytes} (h : ∀ n, bs.length ≤ n → Accepts (f n) bs) :
    Accepts (left >>= f) bs := by
  intro r after hrest
  refine h r.remaining ?_ r after hrest
  rw [remaining_eq, hrest, List.length_append]
  exact Nat.le_add_right _ _

theorem accepts_many {item : ReadM ε β} {encode : α → Bytes} {as : List α} (h : ∀ a ∈ as, Accepts item (encode a)) :
    Accepts (many item as.length) (as.flatMap encode) := by
  induction as with
  | nil => exact accepts_pure []
  | cons a as ih =>
    rw [List.flatMap_cons]
    exact (h a List.mem_cons_self).bind fun _ => (ih fun a' ha' => h a' (List.mem_cons_of_mem _ ha')).map _

/-! ## What a program has taken off -/

/-- Whenever the program succeeds, the bytes it has taken off are right for the value it returns. -/
def Yields (p : ReadM ε α) (P : α → Bytes → Prop) : Prop :=
  ∀ r a r', p r = .ok (a, r') → ∃ bs, r.rest = bs ++ r'.rest ∧ P a bs

theorem yields_pure {P : α → Bytes → Prop} {a : α} (h : P a []) : Yields (pure a : ReadM ε α) P := by
  rintro r _ _ ⟨⟩
  exact ⟨[], rfl, h⟩

theorem yields_throw (e : ε) (P : α → Bytes → Prop) : Yields (throw e : ReadM ε α) P := by
  rintro r a r' ⟨⟩

theorem Yields.mono {p : ReadM ε α} {P Q : α → Bytes → Prop} (h : Yields p P) (hPQ : ∀ a bs, P a bs → Q a bs) : Yields p Q := by
  intro r a r' hrun
  obtain ⟨bs, hbs, hP⟩ := h r a r' hrun
  exact ⟨bs, hbs, hPQ a bs hP⟩

/-- A program after another one: together they have taken off what both have. -/
theorem Yields.bind {p : ReadM ε α} {f : α → ReadM ε β} {P : α → Bytes → Prop} {Q : β → Bytes → Prop} (hp : Yields p P)
    (hf : ∀ a xs, P a xs → Yields (f a) fun b ys => Q b (xs ++ ys)) : Yields (p >>= f) Q := by
  intro r b r'' hrun
  have hrun' : (p r >>= fun ar => f ar.1 ar.2) = .ok (b, r'') := hrun
  cases hpr : p r with
  | error e =>
    rw [hpr] at hrun'
    cases hrun'
  | ok ar =>
    rw [hpr] at hrun'
    obtain ⟨xs, hxs, hP⟩ := hp r ar.1 ar.2 hpr
    obtain ⟨ys, hys, hQ⟩ := hf ar.1 xs hP ar.2 b r'' hrun'
    exact ⟨xs ++ ys, by rw [hxs, hys, List.append_assoc], hQ⟩

/-- The bytes are those of the value the program makes of them. -/
theorem Yields.parses {p : ReadM ε α} {P Q : α → Bytes → Prop} (hp : Yields p P)
    (h : ∀ a bs, P a bs → ∃ a', Parses p bs (some a') ∧ Q a' bs) : Yields p Q := by
  intro r a r' hrun
  obtain ⟨bs, hbs, hP⟩ := hp r a r' hrun
  obtain ⟨a', hparses, hQ⟩ := h a bs hP
  obtain ⟨r'', hr'', -⟩ := hparses r r'.rest hbs
  rw [hrun] at hr''
  cases hr''
  exact ⟨bs, hbs, hQ⟩

theorem yields_fixed (e : ε) (count : Nat) : Yields (fixed e count) fun data bs => bs = data ∧ data.length = count := by
  intro r data r' hrun
  unfold fixed at hrun
  split_ifs at hrun with h
  cases hrun
  refine ⟨(r.bytes.drop r.pos).take count, ?_, rfl, ?_⟩
  · rw [rest, rest, ← List.drop_drop, List.take_append_drop]
  · rw [List.length_take, List.length_drop]
    omega

theorem yields_left {f : Nat → ReadM ε β} {Q : β → Bytes → Prop} (h : ∀ n, Yields (f n) Q) : Yields (left >>= f) Q :=
  fun r b r' hrun => h r.remaining r b r' hrun

theorem yields_many {item : ReadM ε β} {encode : α → Bytes} {P : α → Prop}
    (h : Yields item fun _ bs => ∃ a, P a ∧ bs = encode a) (n : Nat) :
    Yields (many item n) fun _ bs => ∃ as : List α, as.length = n ∧ (∀ a ∈ as, P a) ∧ bs = as.flatMap encode := by
  induction n with
  | zero => exact yields_pure ⟨[], rfl, fun _ ha => absurd ha List.not_mem_nil, rfl⟩
  | succ n ih =>
    refine h.bind ?_
    rintro _ _ ⟨a, ha, rfl⟩
    refine ih.bind ?_
    rintro _ _ ⟨as, hlength, has, rfl⟩
    refine yields_pure ⟨a :: as, by rw [List.length_cons, hlength], List.forall_mem_cons.mpr ⟨ha, has⟩, ?_⟩
    rw [List.append_nil, List.flatMap_cons]

/-- A program that takes a fixed number of bytes off, whatever they are. -/
structure Exactly (n : Nat) (p : ReadM ε α) : Prop where
  accepts : ∀ bs : Bytes, bs.length = n → Accepts p bs
  yields : Yields p fun _ bs => bs.length = n

theorem exactly_fixed (e : ε) (count : Nat) : Exactly count (fixed e count) where
  accepts _ h := (parses_fixed e h).accepts
  yields := (yields_fixed e count).mono fun _ _ h => h.1 ▸ h.2

theorem exactly_pure (a : α) : Exactly 0 (pure a : ReadM ε α) where
  accepts bs h := by
    rw [List.length_eq_zero_iff.mp h]
    exact accepts_pure a
  yields := yields_pure rfl

theorem Exactly.bind {m n : Nat} {p : ReadM ε α} {f : α → ReadM ε β} (hp : Exactly m p) (hf : ∀ a, Exactly n (f a)) :
    Exactly (m + n) (p >>= f) where
  accepts bs h := by
    rw [← List.take_append_drop m bs]
    refine (hp.accepts _ ?_).bind fun a => (hf a).accepts _ ?_
    · rw [List.length_take]
      omega
    · rw [List.length_drop]
      omega
  yields := hp.yields.bind fun a xs hxs => (hf a).yields.mono fun _ ys hys => by rw [List.length_append, hxs, hys]

end Reader

end Soroscan
