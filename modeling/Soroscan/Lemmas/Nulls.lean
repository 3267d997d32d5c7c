import Soroscan.Store
import Soroscan.Lemmas.Args
import Soroscan.Lemmas.ArgsText

/-!
# Null characters in the stored arguments

A `jsonb` column rejects a value in which a string or a name holds the null character. `HoldsNull` says of a contract value
whether its JSON form does: a string or a symbol with a zero byte, outside the map entries that a later entry of the same name
replaces and outside the keys that are stored as the text of their JSON form.
-/

namespace Soroscan

section

variable (scValString : ScVal → Bytes)

/-- The name a map entry is stored under. -/
def entryNameOf (k : ScVal) : Text := entryName (valJson scValString k) (writeVal scValString k)

/-- A key that is stored as its own characters, with a zero byte among them. -/
def keyHoldsNull : ScVal → Bool
  | .string s => s.contains 0
  | .symbol s => s.contains 0
  | .error e => (scValString (.error e)).contains 0
  | .contractInstance executable storage => (scValString (.contractInstance executable storage)).contains 0
  | .ledgerKeyContractInstance => (scValString .ledgerKeyContractInstance).contains 0
  | .ledgerKeyNonce nonce => (scValString (.ledgerKeyNonce nonce)).contains 0
  | _ => false

mutual

/-- The stored form of the value holds a null character. -/
def holdsNull : ScVal → Bool
  | .vec (some vals) => holdsNullItems vals
  | .map (some entries) => holdsNullEntries entries
  | v => keyHoldsNull scValString v

/-- One of the items counts. -/
def holdsNullItems : List ScVal → Bool
  | [] => false
  | v :: vs => holdsNull v || holdsNullItems vs

/-- An entry counts when no later entry has its name. -/
def holdsNullEntries : List (ScVal × ScVal) → Bool
  | [] => false
  | (k, v) :: es =>
    (!((es.map fun e => entryNameOf scValString e.1).contains (entryNameOf scValString k)) &&
      (keyHoldsNull scValString k || holdsNull v)) || holdsNullEntries es

end

/-- The stored form of a call's arguments holds a null character. -/
def argsHoldNull : ScVal → Bool
  | .vec (some vals) => holdsNullItems scValString vals
  | data => holdsNull scValString data

end

/-! ## Characters that are printed -/

/-- The null character is not in the text. -/
def NullFree (t : Text) : Prop := '\x00' ∉ t

instance (t : Text) : Decidable (NullFree t) := inferInstanceAs (Decidable (_ ∉ _))

theorem nullFree_cons {c : Char} {t : Text} (hc : c ≠ '\x00') (ht : NullFree t) : NullFree (c :: t) := by
  rw [NullFree, List.mem_cons, not_or]
  exact ⟨hc.symm, ht⟩

theorem nullFree_append {t u : Text} (ht : NullFree t) (hu : NullFree u) : NullFree (t ++ u) := by
  rw [NullFree, List.mem_append, not_or]
  exact ⟨ht, hu⟩

theorem digit_ne_null (n : Nat) : Base32.digit n ≠ '\x00' := by
  have hno : '\x00' ∉ Base32.alphabet := by decide
  unfold Base32.digit
  rw [List.getD_eq_getElem?_getD]
  cases h : Base32.alphabet[n]? with
  | none => decide
  | some c => exact fun hc => hno (hc ▸ List.mem_of_getElem? h)

/-- A strkey has no null. -/
theorem nullFree_encodeStrkey (version : UInt8) (payload : Bytes) : NullFree (encodeStrkey version payload) := by
  intro h
  obtain ⟨n, -, hn⟩ := List.mem_map.mp h
  exact digit_ne_null n hn

/-- Nor has the strkey of an address. -/
theorem nullFree_addressString (a : ScAddress) : NullFree (addressString a) := by
  cases a <;> exact nullFree_encodeStrkey _ _

/-- Nor has a decimal number. -/
theorem nullFree_decimal (n : Nat) : NullFree (decimal n) := fun h => absurd (isDigit_of_mem_decimal h) (by decide)

/-- Nor has one with a sign. -/
theorem nullFree_intDecimal (i : Int) : NullFree (intDecimal i) := by
  cases i with
  | ofNat n => exact nullFree_decimal n
  | negSucc n =>
    rw [intDecimal]
    exact nullFree_cons (by decide) (nullFree_decimal _)

/-- Nor has a hexadecimal text. -/
theorem nullFree_hexText (bs : Bytes) : NullFree (hexText bs) := fun h =>
  absurd (hexValue_of_mem_hexText h) (by decide)

/-- The characters of a byte string hold the null character when it holds the byte zero. -/
theorem contains_null_textOf (s : Bytes) : (textOf s).contains '\x00' = s.contains 0 := by
  rw [Bool.eq_iff_iff, List.contains_iff_mem, List.contains_iff_mem, ← null_mem_decodeRunes, textOf, List.mem_map]
  constructor
  · rintro ⟨o, ho, hnull⟩
    cases o with
    | none => exact absurd hnull (by decide)
    | some c =>
      rw [Option.getD_some] at hnull
      rwa [hnull] at ho
  · exact fun h => ⟨_, h, rfl⟩

/-! ## Values -/

theorem hasNull_str_of_nullFree {s : Text} (h : NullFree s) : hasNull (.str s) = false := by
  rw [hasNull, Bool.eq_false_iff, ne_eq, List.contains_iff_mem]
  exact h

theorem hasNull_uint64Json (v : BitVec 64) : hasNull (uint64Json v) = false := by
  rw [uint64Json]
  split
  · exact hasNull_str_of_nullFree (nullFree_decimal _)
  · rfl

/-- An object has a null in one of its names or in one of its values. -/
theorem hasNullMembers_iff {ms : List (Text × Json)} :
    hasNullMembers ms = true ↔ ∃ m ∈ ms, m.1.contains '\x00' = true ∨ hasNull m.2 = true := by
  induction ms with
  | nil => simp [hasNullMembers]
  | cons m ms ih =>
    obtain ⟨k, v⟩ := m
    rw [hasNullMembers, Bool.or_eq_true, Bool.or_eq_true, ih]
    simp only [List.mem_cons, exists_eq_or_imp]

section

variable (scValString : ScVal → Bytes)

/-- The names of the members are those of the entries. -/
theorem entriesJson_names (es : List (ScVal × ScVal)) :
    (entriesJson scValString es).map (·.1) = es.map fun e => entryNameOf scValString e.1 := by
  induction es with
  | nil => rfl
  | cons e es ih =>
    obtain ⟨k, v⟩ := e
    rw [entriesJson, List.map_cons, List.map_cons, ih]
    rfl

/-- The members an object was made from: the first one counts when no later one has its name. -/
theorem hasNullMembers_objectOf_cons {k : Text} {v : Json} {ms : List (Text × Json)} :
    hasNullMembers (Json.objectOf ((k, v) :: ms)) =
      ((!((ms.map (·.1)).contains k) && (k.contains '\x00' || hasNull v)) || hasNullMembers (Json.objectOf ms)) := by
  rw [Bool.eq_iff_iff, Bool.or_eq_true, Bool.and_eq_true, Bool.or_eq_true, hasNullMembers_iff, hasNullMembers_iff]
  simp only [Json.mem_objectOf_iff, Bool.not_eq_true', Bool.eq_false_iff, ne_eq, List.contains_iff_mem]
  constructor
  · rintro ⟨m, ⟨before, after, heq, hno⟩, hm⟩
    cases before with
    | nil =>
      rw [List.nil_append, List.cons.injEq] at heq
      obtain ⟨rfl, rfl⟩ := heq
      exact Or.inl ⟨hno, hm⟩
    | cons b before =>
      rw [List.cons_append, List.cons.injEq] at heq
      exact Or.inr ⟨m, ⟨before, after, heq.2, hno⟩, hm⟩
  · rintro (⟨hno, hm⟩ | ⟨m, ⟨before, after, rfl, hno⟩, hm⟩)
    · exact ⟨(k, v), ⟨[], ms, rfl, hno⟩, hm⟩
    · exact ⟨m, ⟨(k, v) :: before, after, rfl, hno⟩, hm⟩

/-- The marshaller escapes the null character, so a printed string never holds it. -/
theorem nullFree_escapeRune (o : Option Char) : NullFree (Json.escapeRune o) := by
  have hdigit : ∀ n < 16, Nat.digitChar n ≠ '\x00' := by decide
  have hnil : NullFree [] := by decide
  unfold Json.escapeRune
  split
  · decide
  · rename_i c
    split_ifs with h1 h2 h3 h4 h5 h6 h7 h8
    · rcases h1 with rfl | rfl <;> decide
    · decide
    · decide
    · decide
    · decide
    · decide
    · have hc : c.toNat < 256 := by
        rcases h7 with h | rfl | rfl | rfl
        · omega
        all_goals decide
      have hhead : NullFree ['\\', 'u', '0', '0'] := by decide
      have hdigits : NullFree [Nat.digitChar (c.toNat / 16), Nat.digitChar (c.toNat % 16)] :=
        nullFree_cons (hdigit _ (by omega)) (nullFree_cons (hdigit _ (by omega)) hnil)
      exact nullFree_append hhead hdigits
    · have hhead : NullFree ['\\', 'u', '2', '0', '2'] := by decide
      exact nullFree_append hhead (nullFree_cons (hdigit (c.toNat % 16) (by omega)) hnil)
    · refine nullFree_cons ?_ hnil
      rintro rfl
      exact h7 (Or.inl (by decide))

/-- A quoted text has no null: it is escaped. -/
theorem nullFree_quoteRunes (rs : List (Option Char)) : NullFree (Json.quoteRunes rs) := by
  rw [Json.quoteRunes]
  refine nullFree_cons (by decide) (nullFree_append ?_ (by decide))
  rw [NullFree, List.mem_flatMap]
  rintro ⟨o, -, ho⟩
  exact nullFree_escapeRune o ho

theorem nullFree_quote (s : Text) : NullFree (Json.quote s) := nullFree_quoteRunes _

theorem nullFree_writeString (s : Bytes) : NullFree (writeString s) := nullFree_quoteRunes _

theorem nullFree_writeUint64 (v : BitVec 64) : NullFree (writeUint64 v) := by
  rw [writeUint64]
  split
  · exact nullFree_quoteRunes _
  · exact nullFree_decimal _

/-- The name that is made of a text without a null has none. -/
theorem nullFree_writeMapKey {raw : Text} (h : NullFree raw) : NullFree (writeMapKey raw) := by
  rw [writeMapKey]
  split
  · exact h
  · exact nullFree_quoteRunes _

mutual

/-- The printed text of a value never holds the null character itself. -/
theorem nullFree_writeVal : ∀ v : ScVal, NullFree (writeVal scValString v)
  | .bool b => by rw [writeVal]; cases b <;> decide
  | .void => by rw [writeVal]; decide
  | .u32 v => by rw [writeVal]; exact nullFree_decimal v.toNat
  | .i32 v => by rw [writeVal]; exact nullFree_intDecimal v.toInt
  | .u64 v => by rw [writeVal]; exact nullFree_writeUint64 v
  | .i64 v => by rw [writeVal]; exact nullFree_intDecimal v.toInt
  | .timepoint v => by rw [writeVal]; exact nullFree_writeUint64 v
  | .duration v => by rw [writeVal]; exact nullFree_writeUint64 v
  | .u128 _ _ => by rw [writeVal]; exact nullFree_quote _
  | .i128 _ _ => by rw [writeVal]; exact nullFree_quote _
  | .u256 _ _ _ _ => by rw [writeVal]; exact nullFree_quote _
  | .i256 _ _ _ _ => by rw [writeVal]; exact nullFree_quote _
  | .bytes _ => by rw [writeVal]; exact nullFree_quote _
  | .string s => by rw [writeVal]; exact nullFree_writeString s
  | .symbol s => by rw [writeVal]; exact nullFree_writeString s
  | .address _ => by rw [writeVal]; exact nullFree_quote _
  | .vec none => by rw [writeVal]; decide
  | .vec (some vals) => by rw [writeVal]; exact nullFree_writeVals vals
  | .map none => by rw [writeVal]; decide
  | .map (some entries) => by rw [writeVal]; exact nullFree_writeMap entries
  | .error _ => by rw [writeVal]; exact nullFree_writeString _
  | .contractInstance _ _ => by rw [writeVal]; exact nullFree_writeString _
  | .ledgerKeyContractInstance => by rw [writeVal]; exact nullFree_writeString _
  | .ledgerKeyNonce _ => by rw [writeVal]; exact nullFree_writeString _

/-- The text of the items of a vector has no null. -/
theorem nullFree_writeVals : ∀ vs : List ScVal, NullFree (writeVals scValString vs)
  | [] => by rw [writeVals]; decide
  | v :: vs => by
    rw [writeVals]
    exact nullFree_cons (by decide) (nullFree_append (nullFree_writeVal v) (nullFree_writeValsRest vs))

/-- Nor has that of the items behind the first one. -/
theorem nullFree_writeValsRest : ∀ vs : List ScVal, NullFree (writeValsRest scValString vs)
  | [] => by rw [writeValsRest]; decide
  | v :: vs => by
    rw [writeValsRest]
    exact nullFree_cons (by decide) (nullFree_append (nullFree_writeVal v) (nullFree_writeValsRest vs))

/-- The text of the entries of a map has no null. -/
theorem nullFree_writeMap : ∀ es : List (ScVal × ScVal), NullFree (writeMap scValString es)
  | [] => by rw [writeMap]; decide
  | (k, v) :: es => by
    rw [writeMap]
    exact nullFree_cons (by decide) (nullFree_append (nullFree_writeMapKey (nullFree_writeVal k))
      (nullFree_cons (by decide) (nullFree_append (nullFree_writeVal v) (nullFree_writeMapRest es))))

/-- Nor has that of the entries behind the first one. -/
theorem nullFree_writeMapRest : ∀ es : List (ScVal × ScVal), NullFree (writeMapRest scValString es)
  | [] => by rw [writeMapRest]; decide
  | (k, v) :: es => by
    rw [writeMapRest]
    exact nullFree_cons (by decide) (nullFree_append (nullFree_writeMapKey (nullFree_writeVal k))
      (nullFree_cons (by decide) (nullFree_append (nullFree_writeVal v) (nullFree_writeMapRest es))))

end

theorem contains_eq_false {s : Text} (h : NullFree s) : s.contains '\x00' = false := by
  rw [Bool.eq_false_iff, ne_eq, List.contains_iff_mem]
  exact h

/-- The name of an entry holds a null character when its key is stored as its own characters and holds one. -/
theorem contains_null_entryNameOf (k : ScVal) :
    (entryNameOf scValString k).contains '\x00' = keyHoldsNull scValString k := by
  have hraw : NullFree (writeVal scValString k) := nullFree_writeVal scValString k
  rw [entryNameOf]
  cases k with
  | string s => rw [valJson, entryName, keyHoldsNull, contains_null_textOf]
  | symbol s => rw [valJson, entryName, keyHoldsNull, contains_null_textOf]
  | error e => rw [valJson, entryName, keyHoldsNull, contains_null_textOf]
  | contractInstance executable storage => rw [valJson, entryName, keyHoldsNull, contains_null_textOf]
  | ledgerKeyContractInstance => rw [valJson, entryName, keyHoldsNull, contains_null_textOf]
  | ledgerKeyNonce nonce => rw [valJson, entryName, keyHoldsNull, contains_null_textOf]
  | u64 v | timepoint v | duration v =>
    rw [valJson, uint64Json]
    split
    · exact contains_eq_false (nullFree_decimal _)
    · exact contains_eq_false hraw
  | u128 hi lo =>
    rw [valJson, entryName]
    exact contains_eq_false (nullFree_intDecimal _)
  | i128 hi lo =>
    rw [valJson, entryName]
    exact contains_eq_false (nullFree_intDecimal _)
  | u256 hiHi hiLo loHi loLo =>
    rw [valJson, entryName]
    exact contains_eq_false (nullFree_intDecimal _)
  | i256 hiHi hiLo loHi loLo =>
    rw [valJson, entryName]
    exact contains_eq_false (nullFree_intDecimal _)
  | bytes b =>
    rw [valJson, entryName]
    exact contains_eq_false (nullFree_hexText b)
  | address a =>
    rw [valJson, entryName]
    exact contains_eq_false (nullFree_addressString a)
  | vec items =>
    rcases items with _ | items
    all_goals
      rw [valJson]
      exact contains_eq_false hraw
  | map entries =>
    rcases entries with _ | entries
    all_goals
      rw [valJson]
      exact contains_eq_false hraw
  | bool b =>
    rw [valJson]
    exact contains_eq_false hraw
  | void =>
    rw [valJson]
    exact contains_eq_false hraw
  | u32 v =>
    rw [valJson]
    exact contains_eq_false hraw
  | i32 v =>
    rw [valJson]
    exact contains_eq_false hraw
  | i64 v =>
    rw [valJson]
    exact contains_eq_false hraw

mutual

/-- The JSON form of a value holds a null character exactly when `holdsNull` says so. -/
theorem hasNull_valJson : ∀ v : ScVal, hasNull (valJson scValString v) = holdsNull scValString v
  | .bool _ => rfl
  | .void => rfl
  | .u32 _ => rfl
  | .i32 _ => rfl
  | .u64 v => hasNull_uint64Json v
  | .i64 _ => rfl
  | .timepoint v => hasNull_uint64Json v
  | .duration v => hasNull_uint64Json v
  | .u128 _ _ => hasNull_str_of_nullFree (nullFree_intDecimal _)
  | .i128 _ _ => hasNull_str_of_nullFree (nullFree_intDecimal _)
  | .u256 _ _ _ _ => hasNull_str_of_nullFree (nullFree_intDecimal _)
  | .i256 _ _ _ _ => hasNull_str_of_nullFree (nullFree_intDecimal _)
  | .bytes b => hasNull_str_of_nullFree (nullFree_hexText b)
  | .string s => contains_null_textOf s
  | .symbol s => contains_null_textOf s
  | .address a => hasNull_str_of_nullFree (nullFree_addressString a)
  | .vec none => rfl
  | .vec (some vals) => hasNullItems_valsJson vals
  | .map none => rfl
  | .map (some entries) => hasNullMembers_entriesJson entries
  | .error _ => contains_null_textOf _
  | .contractInstance _ _ => contains_null_textOf _
  | .ledgerKeyContractInstance => contains_null_textOf _
  | .ledgerKeyNonce _ => contains_null_textOf _

/-- The items have a null exactly where one of the values holds one. -/
theorem hasNullItems_valsJson : ∀ vs : List ScVal, hasNullItems (valsJson scValString vs) = holdsNullItems scValString vs
  | [] => rfl
  | v :: vs => by rw [valsJson, hasNullItems, holdsNullItems, hasNull_valJson v, hasNullItems_valsJson vs]

/-- The members have a null exactly where one of the entries that count holds one. -/
theorem hasNullMembers_entriesJson : ∀ es : List (ScVal × ScVal),
    hasNullMembers (Json.objectOf (entriesJson scValString es)) = holdsNullEntries scValString es
  | [] => rfl
  | (k, v) :: es => by
    rw [entriesJson, hasNullMembers_objectOf_cons, hasNullMembers_entriesJson es, hasNull_valJson v, entriesJson_names,
      holdsNullEntries]
    have hname := contains_null_entryNameOf scValString k
    unfold entryNameOf at hname ⊢
    rw [hname]

end

/-- The arguments have a null exactly where the value of the call holds one. -/
theorem hasNull_argsJson (data : ScVal) : hasNull (argsJson scValString data) = argsHoldNull scValString data := by
  by_cases h : ∃ vals, data = .vec (some vals)
  · obtain ⟨vals, rfl⟩ := h
    exact hasNullItems_valsJson scValString vals
  · have hj : argsJson scValString data = .arr [valJson scValString data] := by
      rcases encodeArgs_cases scValString data with hc | hc
      · exact absurd hc h
      · exact hc.2
    have hh : argsHoldNull scValString data = holdsNull scValString data := by
      unfold argsHoldNull
      split
      · exact absurd ⟨_, rfl⟩ h
      · rfl
    rw [hj, hh, hasNull, hasNullItems, hasNullItems, Bool.or_false, hasNull_valJson]

end

/-! ## Rewriting -/

/-- A text that is taken for an address has no null. -/
theorem nullFree_of_isAddress {s : Text} (h : isAddress s = true) : NullFree s := by
  intro hmem
  cases s with
  | nil => cases hmem
  | cons c t =>
    simp only [isAddress, Bool.and_eq_true, Bool.or_eq_true, decide_eq_true_eq, List.all_eq_true] at h
    rcases List.mem_cons.mp hmem with rfl | hmem
    · exact absurd h.1.1 (by decide)
    · exact absurd (h.2 _ hmem) (by decide)

mutual

/-- Rewriting addresses neither brings a null character in nor takes one out. -/
theorem hasNull_rewriteAddresses (ids : Text → Option (BitVec 32)) : ∀ v : Json,
    hasNull (rewriteAddresses ids v) = hasNull v
  | .null => rfl
  | .bool _ => rfl
  | .num _ => rfl
  | .str s => by
    rw [rewriteAddresses]
    split
    · rename_i hs
      rw [hasNull_str_of_nullFree (nullFree_of_isAddress hs)]
      rfl
    · rfl
  | .arr items => hasNullItems_rewriteItems ids items
  | .obj members => hasNullMembers_rewriteMembers ids members

theorem hasNullItems_rewriteItems (ids : Text → Option (BitVec 32)) : ∀ vs : List Json,
    hasNullItems (rewriteItems ids vs) = hasNullItems vs
  | [] => rfl
  | v :: vs => by
    rw [rewriteItems, hasNullItems, hasNullItems, hasNull_rewriteAddresses ids v, hasNullItems_rewriteItems ids vs]

theorem hasNullMembers_rewriteMembers (ids : Text → Option (BitVec 32)) : ∀ ms : List (Text × Json),
    hasNullMembers (rewriteMembers ids ms) = hasNullMembers ms
  | [] => rfl
  | (k, v) :: ms => by
    rw [rewriteMembers, hasNullMembers, hasNullMembers, hasNull_rewriteAddresses ids v,
      hasNullMembers_rewriteMembers ids ms]

end

/-- A well-formed value is stored unless a null character is in it. -/
theorem jsonb_rewriteAddresses {v : Json} (hok : v.Ok) (ids : Text → Option (BitVec 32)) :
    jsonb (Json.marshal (rewriteAddresses ids v)) = if hasNull v then none else some (rewriteAddresses ids v) := by
  rw [jsonb, Json.parse_marshal (rewriteAddresses_ok ids v hok), Option.filter_some, hasNull_rewriteAddresses]
  cases hasNull v <;> rfl

end Soroscan
