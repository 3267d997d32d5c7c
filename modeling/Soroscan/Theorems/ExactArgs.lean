import Soroscan.Lemmas.RenderedKeys

/-!
# The arguments as JSON

What the JSON text of a call's arguments is meant to say, constructor by constructor (`Intended`), and that it says so: integers
of up to 64 bits by their value, wider ones by the value of their words taken together, bytes by their hexadecimal digits, a valid
string by its own characters, lists and maps element for element.
-/

namespace Soroscan

/-! ## What is intended -/

/-- A string whose characters a byte string spells, if it is valid. -/
def IsStringOf (s : Bytes) (j : Json) : Prop := ∃ t, j = .str t ∧ (validUtf8 s = true → t.flatMap String.utf8EncodeChar = s)

/-- A number of 64 bits: a JSON number as long as an `int64` holds it, and a string of its digits past that. -/
def IsUint64 (v : BitVec 64) (j : Json) : Prop :=
  if v.toNat ≤ 2 ^ 63 - 1 then j = .num (decimal v.toNat) else j = .str (decimal v.toNat)

/-- A name for a key whose JSON value is given: its characters if it is a string, and else its JSON text. -/
def IsNameOf (key : Json) (name : Text) : Prop :=
  key = .str name ∨ (∀ s, key ≠ .str s) ∧ Json.IsTextOf name key

section Intended

variable (scValString : ScVal → Bytes)

mutual

/-- The JSON value a contract value is meant to have. The members of an object have no order; each stands for one entry. -/
def Intended : ScVal → Json → Prop
  | .bool b, j => j = .bool b
  | .void, j => j = .null
  | .u32 v, j => j = .num (decimal v.toNat)
  | .i32 v, j => j = .num (intDecimal v.toInt)
  | .u64 v, j => IsUint64 v j
  | .i64 v, j => j = .num (intDecimal v.toInt)
  | .timepoint v, j => IsUint64 v j
  | .duration v, j => IsUint64 v j
  | .u128 hi lo, j => j = .str (decimal (hi ++ lo).toNat)
  | .i128 hi lo, j => j = .str (intDecimal (hi ++ lo).toInt)
  | .u256 hiHi hiLo loHi loLo, j => j = .str (decimal (hiHi ++ hiLo ++ loHi ++ loLo).toNat)
  | .i256 hiHi hiLo loHi loLo, j => j = .str (intDecimal (hiHi ++ hiLo ++ loHi ++ loLo).toInt)
  | .bytes b, j => j = .str (hexText b)
  | .string s, j => IsStringOf s j
  | .symbol s, j => IsStringOf s j
  | .address a, j => j = .str (addressString a)
  | .vec none, j => j = .arr []
  | .vec (some vals), j => ∃ items, j = .arr items ∧ IntendedItems vals items
  | .map none, j => j = .obj []
  | .map (some entries), j => ∃ members listed, j = .obj members ∧ members.Perm listed ∧ IntendedMembers entries listed
  | .error e, j => IsStringOf (scValString (.error e)) j
  | .contractInstance executable storage, j => IsStringOf (scValString (.contractInstance executable storage)) j
  | .ledgerKeyContractInstance, j => IsStringOf (scValString .ledgerKeyContractInstance) j
  | .ledgerKeyNonce nonce, j => IsStringOf (scValString (.ledgerKeyNonce nonce)) j

/-- The items of a list, in its order. -/
def IntendedItems : List ScVal → List Json → Prop
  | [], items => items = []
  | v :: vs, items => ∃ j rest, items = j :: rest ∧ Intended v j ∧ IntendedItems vs rest

/-- The members of a map, in the order of its entries. -/
def IntendedMembers : List (ScVal × ScVal) → List (Text × Json) → Prop
  | [], members => members = []
  | (k, v) :: es, members =>
    ∃ key name j rest, members = (name, j) :: rest ∧ (Intended k key ∧ IsNameOf key name) ∧ Intended v j ∧
      IntendedMembers es rest

end

/-- The items the arguments of a call are meant to have: those of a present vector, and a single one else. -/
def IntendedArgs : ScVal → List Json → Prop
  | .vec (some vals), items => IntendedItems scValString vals items
  | data, items => ∃ j, items = [j] ∧ Intended scValString data j

mutual

/-- Within each map of a value, at any depth, the keys are rendered as different names. -/
def KeysDistinct : ScVal → Prop
  | .vec (some vals) => KeysDistinctItems vals
  | .map (some entries) => (entries.map fun e => renderedKey scValString e.1).Nodup ∧ KeysDistinctEntries entries
  | _ => True

def KeysDistinctItems : List ScVal → Prop
  | [] => True
  | v :: vs => KeysDistinct v ∧ KeysDistinctItems vs

def KeysDistinctEntries : List (ScVal × ScVal) → Prop
  | [] => True
  | (k, v) :: es => (KeysDistinct k ∧ KeysDistinct v) ∧ KeysDistinctEntries es

end

/-! ## What is written -/

/-- A byte string is written as a string of its characters. -/
theorem isStringOf_textOf (s : Bytes) : IsStringOf s (.str (textOf s)) :=
  ⟨textOf s, rfl, utf8EncodeChar_decodeRunes Json.replacementChar s⟩

theorem isUint64_uint64Json (v : BitVec 64) : IsUint64 v (uint64Json v) := by
  rw [IsUint64, uint64Json]
  split
  · rw [if_neg (by omega)]
  · rw [if_pos (by omega)]

/-- The name of an entry is a name for its key. -/
theorem isNameOf_entryName (k : ScVal) :
    IsNameOf (valJson scValString k) (entryName (valJson scValString k) (writeVal scValString k)) := by
  have htext := (stands_writeVal scValString k).isTextOf
  cases hv : valJson scValString k with
  | str s => exact Or.inl rfl
  | _ =>
    rw [hv] at htext
    exact Or.inr ⟨by simp, htext⟩

mutual

/-- Where the keys of each map are rendered apart, the value of the printed text is the intended one. -/
theorem intended_valJson : ∀ v : ScVal, KeysDistinct scValString v → Intended scValString v (valJson scValString v)
  | .bool _, _ => rfl
  | .void, _ => rfl
  | .u32 _, _ => rfl
  | .i32 _, _ => rfl
  | .u64 v, _ => isUint64_uint64Json v
  | .i64 _, _ => rfl
  | .timepoint v, _ => isUint64_uint64Json v
  | .duration v, _ => isUint64_uint64Json v
  | .u128 hi lo, _ => by rw [valJson, bigFromUnsigned_two]; rfl
  | .i128 hi lo, _ => by rw [valJson, bigFromSigned_two]; rfl
  | .u256 hiHi hiLo loHi loLo, _ => by rw [valJson, bigFromUnsigned_four]; rfl
  | .i256 hiHi hiLo loHi loLo, _ => by rw [valJson, bigFromSigned_four]; rfl
  | .bytes _, _ => rfl
  | .string s, _ => isStringOf_textOf s
  | .symbol s, _ => isStringOf_textOf s
  | .address _, _ => rfl
  | .vec none, _ => rfl
  | .vec (some vals), h => ⟨valsJson scValString vals, rfl, intended_valsJson vals h⟩
  | .map none, _ => rfl
  | .map (some entries), h =>
    ⟨Json.objectOf (entriesJson scValString entries), entriesJson scValString entries, rfl,
      Json.objectOf_perm_iff.mpr ((renderedKeys_nodup_iff scValString entries).mp h.1), intended_entriesJson entries h.2⟩
  | .error _, _ => isStringOf_textOf _
  | .contractInstance _ _, _ => isStringOf_textOf _
  | .ledgerKeyContractInstance, _ => isStringOf_textOf _
  | .ledgerKeyNonce _, _ => isStringOf_textOf _

theorem intended_valsJson : ∀ vs : List ScVal, KeysDistinctItems scValString vs →
    IntendedItems scValString vs (valsJson scValString vs)
  | [], _ => rfl
  | v :: vs, h =>
    ⟨valJson scValString v, valsJson scValString vs, rfl, intended_valJson v h.1, intended_valsJson vs h.2⟩

theorem intended_entriesJson : ∀ es : List (ScVal × ScVal), KeysDistinctEntries scValString es →
    IntendedMembers scValString es (entriesJson scValString es)
  | [], _ => rfl
  | (k, v) :: es, h =>
    ⟨valJson scValString k, entryName (valJson scValString k) (writeVal scValString k), valJson scValString v,
      entriesJson scValString es, rfl, ⟨intended_valJson k h.1.1, isNameOf_entryName scValString k⟩,
      intended_valJson v h.1.2, intended_entriesJson es h.2⟩

end

/-- The arguments of a call are printed as one JSON array, and reading it gives the intended items: every value of every kind at
every depth, provided that no two keys of one map are rendered as the same name. -/
theorem encodeArgs_exact (data : ScVal) (hkeys : KeysDistinct scValString data) :
    ∃ items, Json.IsTextOf (encodeArgs scValString data) (.arr items) ∧
      parseArgs (encodeArgs scValString data) = some (.arr items) ∧ IntendedArgs scValString data items := by
  have htext := (stands_encodeArgs scValString data).isTextOf
  have hparse := parseArgs_encodeArgs scValString data
  by_cases hvec : ∃ vals, data = .vec (some vals)
  · obtain ⟨vals, rfl⟩ := hvec
    exact ⟨valsJson scValString vals, htext, hparse, intended_valsJson scValString vals hkeys⟩
  · obtain ⟨-, hargs⟩ := (encodeArgs_cases scValString data).resolve_left hvec
    rw [hargs] at htext hparse
    refine ⟨[valJson scValString data], htext, hparse, ?_⟩
    unfold IntendedArgs
    split
    · exact absurd ⟨_, rfl⟩ hvec
    · exact ⟨_, rfl, intended_valJson scValString _ hkeys⟩

end Intended

/-- A map with the keys `1` and `"a"`, whose values are the least 128-bit number and an absent vector. -/
def smallArgs : ScVal := .map (some [(.u32 1, .i128 (BitVec.intMin 64) 0), (.symbol [97], .vec none)])

theorem encodeArgs_exact_small :
    ∃ items, Json.IsTextOf (encodeArgs (fun _ => []) smallArgs) (.arr items) ∧
      parseArgs (encodeArgs (fun _ => []) smallArgs) = some (.arr items) ∧ IntendedArgs (fun _ => []) smallArgs items := by
  refine encodeArgs_exact (fun _ => []) smallArgs ⟨?_, ⟨trivial, trivial⟩, ⟨trivial, trivial⟩, trivial⟩
  have hnames : (entriesJson (fun _ => []) [(.u32 1, .i128 (BitVec.intMin 64) 0), (.symbol [97], .vec none)]).map (·.1) =
      [['1'], ['a']] := by decide
  rw [renderedKeys_nodup_iff, hnames]
  decide

end Soroscan
