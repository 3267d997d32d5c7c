import Mathlib.Data.List.Nodup
import Mathlib.Tactic

/-!
# A dictionary table with a sequence

A table of keys under ids that a sequence hands out: each key stands once, each id once, and no id is past the last value of
the sequence. A proposed row takes a value of the sequence before it is known whether its key is new, and the value is not
given back: proposing a key that is there leaves the rows and moves the sequence. The sequence has a limit; a statement that
proposes several rows stops with an error at the first row for which no value is left.
-/

namespace Soroscan

/-- A dictionary table: rows of an id and a key, and the last value its sequence handed out. -/
structure Dict (κ : Type*) where
  rows : List (Nat × κ)
  last : Nat
  ids_le : ∀ r ∈ rows, 0 < r.1 ∧ r.1 ≤ last
  ids_nodup : (rows.map (·.1)).Nodup
  keys_nodup : (rows.map (·.2)).Nodup

namespace Dict

variable {κ : Type*} [DecidableEq κ]

/-- The empty table, before its sequence was used. -/
def empty : Dict κ := ⟨[], 0, by simp, by simp, by simp⟩

/-- The keys of a table. -/
def keys (d : Dict κ) : List κ := d.rows.map (·.2)

/-- The id a key has. -/
def idOf (d : Dict κ) (k : κ) : Option Nat := (d.rows.find? fun r => decide (r.2 = k)).map (·.1)

/-- The key an id stands for. -/
def keyOf (d : Dict κ) (id : Nat) : Option κ := (d.rows.find? fun r => decide (r.1 = id)).map (·.2)

/-- Move the sequence to a value it has reached, and leave the rows: what a rolled back statement leaves behind. -/
def burn (d : Dict κ) (n : Nat) : Dict κ where
  rows := d.rows
  last := max d.last n
  ids_le r hr := ⟨(d.ids_le r hr).1, le_trans (d.ids_le r hr).2 (le_max_left _ _)⟩
  ids_nodup := d.ids_nodup
  keys_nodup := d.keys_nodup

/-- Add a key under the next value of the sequence. -/
def add (d : Dict κ) (k : κ) (hk : k ∉ d.keys) : Dict κ where
  rows := d.rows ++ [(d.last + 1, k)]
  last := d.last + 1
  ids_le := by
    intro r hr
    rcases List.mem_append.mp hr with hr | hr
    · have := d.ids_le r hr
      exact ⟨this.1, by omega⟩
    · rw [List.mem_singleton.mp hr]
      simp
  ids_nodup := by
    rw [List.map_append, List.nodup_append]
    refine ⟨d.ids_nodup, by simp, ?_⟩
    intro a ha b hb hab
    obtain ⟨r, hr, rfl⟩ := List.mem_map.mp ha
    have := (d.ids_le r hr).2
    simp only [List.map_cons, List.map_nil, List.mem_singleton] at hb
    omega
  keys_nodup := by
    rw [List.map_append, List.nodup_append]
    refine ⟨d.keys_nodup, by simp, ?_⟩
    rintro a ha b hb rfl
    simp only [List.map_cons, List.map_nil, List.mem_singleton] at hb
    exact hk (hb ▸ ha)

/-- Propose one row: a value of the sequence is taken, and the key is added when it is not there. -/
def propose (d : Dict κ) (k : κ) : Dict κ :=
  if hk : k ∈ d.keys then d.burn (d.last + 1) else d.add k hk

/-- Propose a row for each key in turn, as one statement. The flag is false when the sequence ran out on the way. -/
def insertAll (limit : Nat) : Dict κ → List κ → Dict κ × Bool
  | d, [] => (d, true)
  | d, k :: ks => if d.last < limit then insertAll limit (d.propose k) ks else (d, false)

omit [DecidableEq κ] in
/-- A table is its rows and the last value of its sequence. -/
theorem ext_rows {d d' : Dict κ} (hrows : d.rows = d'.rows) (hlast : d.last = d'.last) : d = d' := by
  cases d
  cases d'
  cases hrows
  cases hlast
  rfl

/-! ## Ids and keys -/

theorem idOf_eq_some_iff {d : Dict κ} {k : κ} {id : Nat} : d.idOf k = some id ↔ (id, k) ∈ d.rows := by
  have hinj := List.inj_on_of_nodup_map d.keys_nodup
  rw [idOf, Option.map_eq_some_iff]
  constructor
  · rintro ⟨r, hf, rfl⟩
    have hk : r.2 = k := by simpa using List.find?_some hf
    exact hk ▸ List.mem_of_find?_eq_some hf
  · intro hmem
    cases hf : d.rows.find? fun r => decide (r.2 = k) with
    | none =>
      have := List.find?_eq_none.mp hf _ hmem
      simp at this
    | some r =>
      have hk : r.2 = k := by simpa using List.find?_some hf
      exact ⟨r, rfl, by rw [hinj (List.mem_of_find?_eq_some hf) hmem hk]⟩

omit [DecidableEq κ] in
theorem keyOf_eq_some_iff {d : Dict κ} {k : κ} {id : Nat} : d.keyOf id = some k ↔ (id, k) ∈ d.rows := by
  have hinj := List.inj_on_of_nodup_map d.ids_nodup
  rw [keyOf, Option.map_eq_some_iff]
  constructor
  · rintro ⟨r, hf, rfl⟩
    have hk : r.1 = id := by simpa using List.find?_some hf
    exact hk ▸ List.mem_of_find?_eq_some hf
  · intro hmem
    cases hf : d.rows.find? fun r => decide (r.1 = id) with
    | none =>
      have := List.find?_eq_none.mp hf _ hmem
      simp at this
    | some r =>
      have hk : r.1 = id := by simpa using List.find?_some hf
      exact ⟨r, rfl, by rw [hinj (List.mem_of_find?_eq_some hf) hmem hk]⟩

/-- The id of a key stands for that key, and only for it. -/
theorem keyOf_eq_some_iff_idOf {d : Dict κ} {k : κ} {id : Nat} : d.keyOf id = some k ↔ d.idOf k = some id := by
  rw [keyOf_eq_some_iff, idOf_eq_some_iff]

theorem mem_keys_iff {d : Dict κ} {k : κ} : k ∈ d.keys ↔ ∃ id, d.idOf k = some id := by
  simp only [keys, List.mem_map, idOf_eq_some_iff]
  constructor
  · rintro ⟨r, hr, rfl⟩
    exact ⟨r.1, hr⟩
  · rintro ⟨id, h⟩
    exact ⟨_, h, rfl⟩

/-! ## Growing -/

/-- One table holds every row of another. -/
def Grows (d d' : Dict κ) : Prop := d.rows ⊆ d'.rows

omit [DecidableEq κ] in
theorem Grows.refl (d : Dict κ) : d.Grows d := fun _ h => h

omit [DecidableEq κ] in
theorem Grows.trans {d d' d'' : Dict κ} (h : d.Grows d') (h' : d'.Grows d'') : d.Grows d'' := fun _ hr => h' (h hr)

/-- A key keeps its id when a table grows. -/
theorem Grows.idOf {d d' : Dict κ} (h : d.Grows d') {k : κ} {id : Nat} (hk : d.idOf k = some id) :
    d'.idOf k = some id := idOf_eq_some_iff.mpr (h (idOf_eq_some_iff.mp hk))

omit [DecidableEq κ] in
/-- An id keeps its key when a table grows. -/
theorem Grows.keyOf {d d' : Dict κ} (h : d.Grows d') {k : κ} {id : Nat} (hk : d.keyOf id = some k) :
    d'.keyOf id = some k := keyOf_eq_some_iff.mpr (h (keyOf_eq_some_iff.mp hk))

omit [DecidableEq κ] in
theorem grows_burn (d : Dict κ) (n : Nat) : d.Grows (d.burn n) := fun _ h => h

/-- Proposing a row takes exactly one value of the sequence, whether the key is new or not. -/
@[simp] theorem propose_last (d : Dict κ) (k : κ) : (d.propose k).last = d.last + 1 := by
  unfold propose
  split
  · exact max_eq_right (Nat.le_succ _)
  · rfl

theorem propose_keys (d : Dict κ) (k : κ) : (d.propose k).keys = if k ∈ d.keys then d.keys else d.keys ++ [k] := by
  unfold propose
  split
  · rfl
  · simp [keys, add]

theorem mem_propose_keys {d : Dict κ} {k k' : κ} : k' ∈ (d.propose k).keys ↔ k' ∈ d.keys ∨ k' = k := by
  rw [propose_keys]
  split_ifs with h
  · exact ⟨Or.inl, fun hk => hk.elim id fun e => e ▸ h⟩
  · rw [List.mem_append, List.mem_singleton]

theorem grows_propose (d : Dict κ) (k : κ) : d.Grows (d.propose k) := by
  unfold propose
  split
  · exact grows_burn d _
  · exact fun r hr => List.mem_append_left _ hr

/-- A statement that proposes rows only adds rows. -/
theorem grows_insertAll (limit : Nat) (d : Dict κ) (ks : List κ) : d.Grows (insertAll limit d ks).1 := by
  induction ks generalizing d with
  | nil => exact Grows.refl d
  | cons k ks ih =>
    unfold insertAll
    split
    · exact (grows_propose d k).trans (ih _)
    · exact Grows.refl d

/-- A statement that proposes rows finds a value of the sequence for each of them exactly when enough are left. -/
theorem insertAll_ok_iff (limit : Nat) (d : Dict κ) (ks : List κ) (hd : d.last ≤ limit) :
    (insertAll limit d ks).2 = true ↔ d.last + ks.length ≤ limit := by
  induction ks generalizing d with
  | nil => simpa [insertAll] using hd
  | cons k ks ih =>
    unfold insertAll
    split
    · rename_i hlt
      rw [ih _ (by rw [propose_last]; omega), propose_last, List.length_cons]
      omega
    · rename_i hlt
      simp only [List.length_cons, Bool.false_eq_true, false_iff]
      omega

/-- What a statement that proposes rows takes from the sequence: one value for each row, or all that are left. -/
theorem insertAll_last (limit : Nat) (d : Dict κ) (ks : List κ) (hd : d.last ≤ limit) :
    (insertAll limit d ks).1.last = min (d.last + ks.length) limit := by
  induction ks generalizing d with
  | nil => simp [insertAll, hd]
  | cons k ks ih =>
    unfold insertAll
    split
    · rw [ih _ (by rw [propose_last]; omega), propose_last, List.length_cons]
      omega
    · simp only [List.length_cons]
      omega

/-- A statement that found a value for each of its rows leaves exactly the keys that were there and the proposed ones. -/
theorem mem_insertAll_keys {limit : Nat} {d : Dict κ} {ks : List κ} (h : (insertAll limit d ks).2 = true) {k : κ} :
    k ∈ (insertAll limit d ks).1.keys ↔ k ∈ d.keys ∨ k ∈ ks := by
  induction ks generalizing d with
  | nil => simp [insertAll]
  | cons k' ks ih =>
    unfold insertAll at h ⊢
    split at h
    · rename_i hlt
      rw [if_pos hlt, ih h, mem_propose_keys, List.mem_cons, or_assoc]
    · cases h

end Dict

end Soroscan
