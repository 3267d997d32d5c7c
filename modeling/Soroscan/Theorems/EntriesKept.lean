import Soroscan.Lemmas.Lookalikes

/-!
# The entries of a map in the stored arguments

Whether every entry of every map of a call's arguments has a member of its own once the printed text is read. The name of an
entry shows its key without the key's type, and of members with one name the reader keeps the last: the entries are kept exactly
when no map has two keys that look alike.
-/

namespace Soroscan

section Kept

variable (scValString : ScVal → Bytes)

mutual

/-- Every map of a value has exactly one member for each entry, named as the key is rendered. A map inside a key is part of a
name and has no members. -/
def EntriesKept : ScVal → Json → Prop
  | .vec (some vals), j => ∃ items, j = .arr items ∧ EntriesKeptItems vals items
  | .map none, j => j = .obj []
  | .map (some entries), j => ∃ members listed, j = .obj members ∧ members.Perm listed ∧ EntriesKeptMembers entries listed
  | _, _ => True

def EntriesKeptItems : List ScVal → List Json → Prop
  | [], items => items = []
  | v :: vs, items => ∃ j rest, items = j :: rest ∧ EntriesKept v j ∧ EntriesKeptItems vs rest

/-- The members of a map in the order of its entries. -/
def EntriesKeptMembers : List (ScVal × ScVal) → List (Text × Json) → Prop
  | [], members => members = []
  | (k, v) :: es, members =>
    ∃ name j rest, members = (name, j) :: rest ∧ renderedKey scValString k = some (.str name) ∧ EntriesKept v j ∧
      EntriesKeptMembers es rest

end

/-- The items of a call's arguments: those of a present vector, and a single one else. -/
def EntriesKeptArgs : ScVal → List Json → Prop
  | .vec (some vals), items => EntriesKeptItems scValString vals items
  | data, items => ∃ j, items = [j] ∧ EntriesKept scValString data j

mutual

/-- No map of a value has two keys that look alike, the maps inside keys left out. -/
def NoLookalikes : ScVal → Prop
  | .vec (some vals) => NoLookalikesItems vals
  | .map (some entries) =>
    (entries.Pairwise fun e e' => ¬Alike (look scValString e.1) (look scValString e'.1)) ∧ NoLookalikesEntries entries
  | _ => True

def NoLookalikesItems : List ScVal → Prop
  | [] => True
  | v :: vs => NoLookalikes v ∧ NoLookalikesItems vs

def NoLookalikesEntries : List (ScVal × ScVal) → Prop
  | [] => True
  | (_, v) :: es => NoLookalikes v ∧ NoLookalikesEntries es

end

/-- No two keys of a map look alike exactly when its members have different names. -/
theorem pairwise_not_alike_iff (es : List (ScVal × ScVal)) :
    (es.Pairwise fun e e' => ¬Alike (look scValString e.1) (look scValString e'.1)) ↔
      ((entriesJson scValString es).map (·.1)).Nodup := by
  rw [← renderedKeys_nodup_iff, List.Nodup, List.pairwise_map]
  simp only [ne_eq, renderedKey_eq_iff_alike]

/-- Kept members have the names of the entries. -/
theorem EntriesKeptMembers.names {es : List (ScVal × ScVal)} {members : List (Text × Json)}
    (h : EntriesKeptMembers scValString es members) : members.map (·.1) = (entriesJson scValString es).map (·.1) := by
  induction es generalizing members with
  | nil =>
    rw [EntriesKeptMembers] at h
    rw [h]
    rfl
  | cons e es ih =>
    obtain ⟨k, v⟩ := e
    obtain ⟨name, j, rest, rfl, hname, -, hrest⟩ := h
    rw [List.map_cons, ih hrest, (renderedKey_eq_iff scValString).mp hname]
    rfl

/-- Two lists of members with the same names in the same order, all different, are one list if they have the same members. -/
theorem eq_of_perm_of_names {ms ms' : List (Text × Json)} (hperm : ms.Perm ms') (hnames : ms.map (·.1) = ms'.map (·.1))
    (hnodup : (ms'.map (·.1)).Nodup) : ms = ms' := by
  induction ms generalizing ms' with
  | nil => exact hperm.nil_eq
  | cons m ms ih =>
    cases ms' with
    | nil => cases hnames
    | cons m' ms' =>
      rw [List.map_cons, List.map_cons, List.cons.injEq] at hnames
      rw [List.map_cons, List.nodup_cons] at hnodup
      have hm : m = m' := by
        rcases List.mem_cons.mp (hperm.subset List.mem_cons_self) with h | h
        · exact h
        · exact absurd (hnames.1 ▸ List.mem_map_of_mem h) hnodup.1
      subst hm
      rw [ih hperm.cons_inv hnames.2 hnodup.2]

mutual

/-- The members of every map are kept exactly when no two keys of one map look alike. -/
theorem entriesKept_valJson_iff : ∀ v : ScVal, EntriesKept scValString v (valJson scValString v) ↔ NoLookalikes scValString v
  | .vec (some vals) => by
    rw [EntriesKept, NoLookalikes, ← entriesKept_valsJson_iff vals, valJson]
    constructor
    · rintro ⟨items, hitems, h⟩
      rw [Json.arr.inj hitems]
      exact h
    · intro h
      exact ⟨_, rfl, h⟩
  | .map (some entries) => by
    rw [EntriesKept, NoLookalikes, pairwise_not_alike_iff, ← entriesKept_entriesJson_iff entries, valJson]
    constructor
    · rintro ⟨members, listed, hmembers, hperm, h⟩
      rw [← Json.obj.inj hmembers] at hperm
      have hnames := EntriesKeptMembers.names scValString h
      have hnodup : ((entriesJson scValString entries).map (·.1)).Nodup := by
        rw [← hnames]
        exact (hperm.map (·.1)).nodup_iff.mp (Json.objectOf_nodup _)
      have hall := Json.objectOf_perm_iff.mpr hnodup
      have hlisted := eq_of_perm_of_names (hperm.symm.trans hall) hnames hnodup
      exact ⟨hnodup, hlisted ▸ h⟩
    · rintro ⟨hnodup, h⟩
      exact ⟨_, _, rfl, Json.objectOf_perm_iff.mpr hnodup, h⟩
  | .vec none => Iff.rfl
  | .map none => by simp [EntriesKept, NoLookalikes, valJson]
  | .bool _ => Iff.rfl
  | .void => Iff.rfl
  | .error _ => Iff.rfl
  | .u32 _ => Iff.rfl
  | .i32 _ => Iff.rfl
  | .u64 _ => Iff.rfl
  | .i64 _ => Iff.rfl
  | .timepoint _ => Iff.rfl
  | .duration _ => Iff.rfl
  | .u128 _ _ => Iff.rfl
  | .i128 _ _ => Iff.rfl
  | .u256 _ _ _ _ => Iff.rfl
  | .i256 _ _ _ _ => Iff.rfl
  | .bytes _ => Iff.rfl
  | .string _ => Iff.rfl
  | .symbol _ => Iff.rfl
  | .address _ => Iff.rfl
  | .contractInstance _ _ => Iff.rfl
  | .ledgerKeyContractInstance => Iff.rfl
  | .ledgerKeyNonce _ => Iff.rfl

theorem entriesKept_valsJson_iff : ∀ vs : List ScVal,
    EntriesKeptItems scValString vs (valsJson scValString vs) ↔ NoLookalikesItems scValString vs
  | [] => by simp [EntriesKeptItems, NoLookalikesItems, valsJson]
  | v :: vs => by
    rw [EntriesKeptItems, NoLookalikesItems, ← entriesKept_valJson_iff v, ← entriesKept_valsJson_iff vs, valsJson]
    constructor
    · rintro ⟨j, rest, heq, hv, hvs⟩
      obtain ⟨rfl, rfl⟩ := List.cons.inj heq
      exact ⟨hv, hvs⟩
    · rintro ⟨hv, hvs⟩
      exact ⟨_, _, rfl, hv, hvs⟩

theorem entriesKept_entriesJson_iff : ∀ es : List (ScVal × ScVal),
    EntriesKeptMembers scValString es (entriesJson scValString es) ↔ NoLookalikesEntries scValString es
  | [] => by simp [EntriesKeptMembers, NoLookalikesEntries, entriesJson]
  | (k, v) :: es => by
    rw [EntriesKeptMembers, NoLookalikesEntries, ← entriesKept_valJson_iff v, ← entriesKept_entriesJson_iff es, entriesJson]
    constructor
    · rintro ⟨name, j, rest, heq, -, hv, hes⟩
      obtain ⟨hm, rfl⟩ := List.cons.inj heq
      obtain ⟨-, rfl⟩ := Prod.mk.inj hm
      exact ⟨hv, hes⟩
    · rintro ⟨hv, hes⟩
      exact ⟨_, _, _, rfl, renderedKey_eq scValString k, hv, hes⟩

end

/-- The text of a call's arguments, read back, has one member for each entry of each map exactly when no map has two keys that
look alike. -/
theorem entries_kept_iff (data : ScVal) :
    (∃ items, parseArgs (encodeArgs scValString data) = some (.arr items) ∧ EntriesKeptArgs scValString data items) ↔
      NoLookalikes scValString data := by
  rw [parseArgs_encodeArgs]
  by_cases hvec : ∃ vals, data = .vec (some vals)
  · obtain ⟨vals, rfl⟩ := hvec
    rw [← entriesKept_valJson_iff]
    constructor
    · rintro ⟨items, hitems, h⟩
      exact ⟨items, Option.some.inj hitems, h⟩
    · rintro ⟨items, hitems, h⟩
      exact ⟨items, congrArg some hitems, h⟩
  · obtain ⟨-, hargs⟩ := (encodeArgs_cases scValString data).resolve_left hvec
    rw [hargs, ← entriesKept_valJson_iff]
    have hkept : ∀ items, EntriesKeptArgs scValString data items ↔ ∃ j, items = [j] ∧ EntriesKept scValString data j := by
      intro items
      unfold EntriesKeptArgs
      split
      · exact absurd ⟨_, rfl⟩ hvec
      · exact Iff.rfl
    constructor
    · rintro ⟨items, hitems, h⟩
      obtain ⟨j, rfl, hj⟩ := (hkept items).mp h
      have : valJson scValString data = j := (List.cons.inj (Json.arr.inj (Option.some.inj hitems))).1
      exact this ▸ hj
    · intro h
      exact ⟨_, rfl, (hkept _).mpr ⟨_, rfl, h⟩⟩

end Kept

mutual

/-- The keys of every map of a value are different values, also in the maps inside keys. -/
def KeysNodup : ScVal → Prop
  | .vec (some vals) => KeysNodupItems vals
  | .map (some entries) => (entries.map (·.1)).Nodup ∧ KeysNodupEntries entries
  | .contractInstance _ (some storage) => (storage.map (·.1)).Nodup ∧ KeysNodupEntries storage
  | _ => True

def KeysNodupItems : List ScVal → Prop
  | [] => True
  | v :: vs => KeysNodup v ∧ KeysNodupItems vs

def KeysNodupEntries : List (ScVal × ScVal) → Prop
  | [] => True
  | (k, v) :: es => (KeysNodup k ∧ KeysNodup v) ∧ KeysNodupEntries es

end

/-- A map with the number `2` and the string `"2"` as keys. -/
def twoTwos : ScVal := .map (some [(.u32 2, .bool true), (.string [50], .bool false)])

/-- The keys of this map are different values, and only one of its entries is read back. -/
theorem two_twos_not_kept :
    KeysNodup twoTwos ∧
      parseArgs (encodeArgs (fun _ => []) twoTwos) = some (.arr [.obj [(['2'], .bool false)]]) ∧
      ¬∃ items, parseArgs (encodeArgs (fun _ => []) twoTwos) = some (.arr items) ∧
        EntriesKeptArgs (fun _ => []) twoTwos items := by
  have hparse : parseArgs (encodeArgs (fun _ => []) twoTwos) = some (.arr [.obj [(['2'], .bool false)]]) := by
    rw [parseArgs_encodeArgs]
    rfl
  refine ⟨⟨by simp, ⟨trivial, trivial⟩, ⟨trivial, trivial⟩, trivial⟩, hparse, ?_⟩
  rintro ⟨items, hitems, hkept⟩
  cases Json.arr.inj (Option.some.inj (hparse.symm.trans hitems))
  obtain ⟨_, ⟨⟩, members, listed, ⟨⟩, hperm, hmembers⟩ := hkept
  have hnames := congrArg List.length hmembers.names
  rw [List.length_map, ← hperm.length_eq] at hnames
  exact absurd hnames (by decide)

end Soroscan
