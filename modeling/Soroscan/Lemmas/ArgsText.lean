import Soroscan.Extract
import Soroscan.Args
import Soroscan.Lib.JsonRoundTrip

/-!
# The value of the printed arguments

`argsJson` is the JSON value of a call's arguments; `parseArgs_encodeArgs` shows that the text the extractor prints, piece by
piece, is read as this value, for every contract value whatever bytes its strings hold.
-/

namespace Soroscan

/-! ## The value of an argument -/

/-- The value `writeUint64` prints. -/
def uint64Json (v : BitVec 64) : Json :=
  if 2 ^ 63 - 1 < v.toNat then .str (decimal v.toNat) else .num (decimal v.toNat)

/-- The characters of a byte string, with the replacement character for each byte that is none. -/
def textOf (s : Bytes) : Text := (decodeRunes s).map (·.getD Json.replacementChar)

section Values

variable (scValString : ScVal → Bytes)

/-- The name of a map entry: the key's own text if it is printed as a string, and the JSON text of the key otherwise. -/
def entryName (keyJson : Json) (keyText : Text) : Text :=
  match keyJson with
  | .str s => s
  | _ => keyText

mutual

/-- The JSON value of a contract value. -/
def valJson : ScVal → Json
  | .bool b => .bool b
  | .void => .null
  | .u32 v => .num (decimal v.toNat)
  | .i32 v => .num (intDecimal v.toInt)
  | .u64 v => uint64Json v
  | .i64 v => .num (intDecimal v.toInt)
  | .timepoint v => uint64Json v
  | .duration v => uint64Json v
  | .u128 hi lo => .str (intDecimal (bigFromUnsigned [hi, lo]))
  | .i128 hi lo => .str (intDecimal (bigFromSigned hi [lo]))
  | .u256 hiHi hiLo loHi loLo => .str (intDecimal (bigFromUnsigned [hiHi, hiLo, loHi, loLo]))
  | .i256 hiHi hiLo loHi loLo => .str (intDecimal (bigFromSigned hiHi [hiLo, loHi, loLo]))
  | .bytes b => .str (hexText b)
  | .string s => .str (textOf s)
  | .symbol s => .str (textOf s)
  | .address a => .str (addressString a)
  | .vec none => .arr []
  | .vec (some vals) => .arr (valsJson vals)
  | .map none => .obj []
  | .map (some entries) => .obj (Json.objectOf (entriesJson entries))
  | .error e => .str (textOf (scValString (.error e)))
  | .contractInstance executable storage => .str (textOf (scValString (.contractInstance executable storage)))
  | .ledgerKeyContractInstance => .str (textOf (scValString .ledgerKeyContractInstance))
  | .ledgerKeyNonce nonce => .str (textOf (scValString (.ledgerKeyNonce nonce)))

/-- The items of a vector, one by one. -/
def valsJson : List ScVal → List Json
  | [] => []
  | v :: vs => valJson v :: valsJson vs

/-- The members of a map, in the order of its entries. -/
def entriesJson : List (ScVal × ScVal) → List (Text × Json)
  | [] => []
  | (k, v) :: es => (entryName (valJson k) (writeVal scValString k), valJson v) :: entriesJson es

end

/-- The JSON value of a call's arguments. -/
def argsJson : ScVal → Json
  | .vec (some vals) => .arr (valsJson scValString vals)
  | data => .arr [valJson scValString data]

/-! ## The text stands for the value -/

/-- A decimal number stands for itself. -/
theorem stands_decimal (n : Nat) : Json.Stands (decimal n) (.num (decimal n)) :=
  Json.stands_num (Json.readNumber_intDecimal n)

/-- A number of 64 bits stands for itself, or for a string where it is too large. -/
theorem stands_writeUint64 (v : BitVec 64) : Json.Stands (writeUint64 v) (uint64Json v) := by
  rw [writeUint64, uint64Json]
  split
  · exact Json.stands_quote _
  · exact stands_decimal _

/-- A byte string stands for its runes. -/
theorem stands_writeString (s : Bytes) : Json.Stands (writeString s) (.str (textOf s)) := Json.stands_runes _

theorem decimal_head_ne_quote (n : Nat) : (decimal n).head? ≠ some '"' := by
  intro h
  have := isDigit_of_mem_decimal (List.mem_of_mem_head? h)
  exact absurd this (by decide)

theorem intDecimal_head_ne_quote (i : Int) : (intDecimal i).head? ≠ some '"' := by
  cases i with
  | ofNat n => exact decimal_head_ne_quote n
  | negSucc n => simp [intDecimal]

/-- The name of an entry is printed as a string literal: a printed string is used as it is, everything else is quoted. -/
theorem standsName_of_runes {t : Text} {rs : List (Option Char)} {v : Json} (ht : t = Json.quoteRunes rs)
    (hv : v = .str (rs.map (·.getD Json.replacementChar))) : Json.StandsName (writeMapKey t) (entryName v t) := by
  subst ht hv
  exact Json.standsName_runes rs

/-- A value that is no string is a name in quotes. -/
theorem standsName_of_other {t : Text} {v : Json} (ht : t.head? ≠ some '"') (hv : ∀ s, v ≠ .str s) :
    Json.StandsName (writeMapKey t) (entryName v t) := by
  rw [writeMapKey, if_neg ht]
  have : entryName v t = t := by
    cases v with
    | str s => exact absurd rfl (hv s)
    | _ => rfl
  rw [this]
  exact Json.standsName_quote t

/-- A string is a name as it is. -/
theorem standsName_quoted (s : Text) : Json.StandsName (writeMapKey (Json.quote s)) (entryName (.str s) (Json.quote s)) :=
  standsName_of_runes rfl (by rw [Json.map_getD_some])

theorem standsName_writeString (s : Bytes) :
    Json.StandsName (writeMapKey (writeString s)) (entryName (.str (textOf s)) (writeString s)) :=
  standsName_of_runes rfl rfl

theorem standsName_writeUint64 (v : BitVec 64) :
    Json.StandsName (writeMapKey (writeUint64 v)) (entryName (uint64Json v) (writeUint64 v)) := by
  rw [writeUint64, uint64Json]
  split
  · exact standsName_quoted _
  · exact standsName_of_other (decimal_head_ne_quote _) (by simp)

/-- A key is printed as the name of its entry. -/
theorem standsName_writeMapKey (k : ScVal) :
    Json.StandsName (writeMapKey (writeVal scValString k)) (entryName (valJson scValString k) (writeVal scValString k)) := by
  cases k with
  | bool b => cases b <;> exact standsName_of_other (by simp [writeVal, Json.marshal]) (by simp [valJson])
  | void => exact standsName_of_other (by simp [writeVal]) (by simp [valJson])
  | u32 v => exact standsName_of_other (decimal_head_ne_quote _) (by simp [valJson])
  | i32 v => exact standsName_of_other (intDecimal_head_ne_quote _) (by simp [valJson])
  | i64 v => exact standsName_of_other (intDecimal_head_ne_quote _) (by simp [valJson])
  | u64 v => exact standsName_writeUint64 v
  | timepoint v => exact standsName_writeUint64 v
  | duration v => exact standsName_writeUint64 v
  | u128 => exact standsName_quoted _
  | i128 => exact standsName_quoted _
  | u256 => exact standsName_quoted _
  | i256 => exact standsName_quoted _
  | bytes => exact standsName_quoted _
  | address => exact standsName_quoted _
  | string => exact standsName_writeString _
  | symbol => exact standsName_writeString _
  | error => exact standsName_writeString _
  | contractInstance => exact standsName_writeString _
  | ledgerKeyContractInstance => exact standsName_writeString _
  | ledgerKeyNonce => exact standsName_writeString _
  | vec items =>
    rcases items with _ | _ | ⟨v, vs⟩ <;>
      exact standsName_of_other (by simp [writeVal, writeVals]) (by simp [valJson])
  | map entries =>
    rcases entries with _ | _ | ⟨⟨k, v⟩, es⟩ <;>
      exact standsName_of_other (by simp [writeVal, writeMap]) (by simp [valJson])

mutual

/-- The text of a contract value stands for it. -/
theorem stands_writeVal : ∀ v : ScVal, Json.Stands (writeVal scValString v) (valJson scValString v)
  | .bool b => Json.stands_bool b
  | .void => Json.stands_null
  | .u32 v => stands_decimal v.toNat
  | .i32 v => Json.stands_num (Json.readNumber_intDecimal v.toInt)
  | .u64 v => stands_writeUint64 v
  | .i64 v => Json.stands_num (Json.readNumber_intDecimal v.toInt)
  | .timepoint v => stands_writeUint64 v
  | .duration v => stands_writeUint64 v
  | .u128 _ _ => Json.stands_quote _
  | .i128 _ _ => Json.stands_quote _
  | .u256 _ _ _ _ => Json.stands_quote _
  | .i256 _ _ _ _ => Json.stands_quote _
  | .bytes _ => Json.stands_quote _
  | .string s => stands_writeString s
  | .symbol s => stands_writeString s
  | .address _ => Json.stands_quote _
  | .vec none => Json.stands_arr_nil
  | .vec (some vals) => stands_writeVals vals
  | .map none => Json.stands_obj_nil
  | .map (some []) => Json.stands_obj_nil
  | .map (some ((k, v) :: es)) =>
    Json.stands_obj_cons (standsName_writeMapKey scValString k) (stands_writeVal v) (standsMembers_writeMapRest es)
  | .error _ => stands_writeString _
  | .contractInstance _ _ => stands_writeString _
  | .ledgerKeyContractInstance => stands_writeString _
  | .ledgerKeyNonce _ => stands_writeString _

/-- The text of a vector stands for its items. -/
theorem stands_writeVals : ∀ vs : List ScVal, Json.Stands (writeVals scValString vs) (.arr (valsJson scValString vs))
  | [] => Json.stands_arr_nil
  | v :: vs => Json.stands_arr_cons (stands_writeVal v) (standsItems_writeValsRest vs)

/-- So does the text of the items behind the first one. -/
theorem standsItems_writeValsRest : ∀ vs : List ScVal,
    Json.StandsItems (writeValsRest scValString vs) (valsJson scValString vs)
  | [] => Json.standsItems_nil
  | v :: vs => Json.standsItems_cons (stands_writeVal v) (standsItems_writeValsRest vs)

/-- So does the text of the entries behind the first one. -/
theorem standsMembers_writeMapRest : ∀ es : List (ScVal × ScVal),
    Json.StandsMembers (writeMapRest scValString es) (entriesJson scValString es)
  | [] => Json.standsMembers_nil
  | (k, v) :: es =>
    Json.standsMembers_cons (standsName_writeMapKey scValString k) (stands_writeVal v) (standsMembers_writeMapRest es)

end

/-- A value that is no present vector is a single argument. -/
theorem encodeArgs_cases (data : ScVal) :
    (∃ vals, data = .vec (some vals)) ∨
    (encodeArgs scValString data = '[' :: (writeVal scValString data ++ [']']) ∧
      argsJson scValString data = .arr [valJson scValString data]) := by
  by_cases h : ∃ vals, data = .vec (some vals)
  · exact Or.inl h
  · refine Or.inr ⟨?_, ?_⟩
    · unfold encodeArgs
      split
      · exact absurd ⟨_, rfl⟩ h
      · rfl
    · unfold argsJson
      split
      · exact absurd ⟨_, rfl⟩ h
      · rfl

/-- The text of the arguments of a call stands for them. -/
theorem stands_encodeArgs (data : ScVal) : Json.Stands (encodeArgs scValString data) (argsJson scValString data) := by
  rcases encodeArgs_cases scValString data with ⟨vals, rfl⟩ | ⟨ht, hv⟩
  · exact stands_writeVals scValString vals
  · rw [ht, hv]
    exact Json.stands_arr_cons (stands_writeVal scValString data) Json.standsItems_nil

/-- The printed arguments are always read, as their JSON value. -/
@[simp] theorem parseArgs_encodeArgs (data : ScVal) :
    parseArgs (encodeArgs scValString data) = some (argsJson scValString data) :=
  (stands_encodeArgs scValString data).parse

/-! ## The value is well formed -/

theorem uint64Json_ok (v : BitVec 64) : (uint64Json v).Ok := by
  rw [uint64Json]
  split
  · trivial
  · exact Json.readNumber_intDecimal v.toNat

mutual

/-- What is made of a contract value is well formed. -/
theorem valJson_ok : ∀ v : ScVal, (valJson scValString v).Ok
  | .bool _ => trivial
  | .void => trivial
  | .u32 v => Json.readNumber_intDecimal v.toNat
  | .i32 v => Json.readNumber_intDecimal v.toInt
  | .u64 v => uint64Json_ok v
  | .i64 v => Json.readNumber_intDecimal v.toInt
  | .timepoint v => uint64Json_ok v
  | .duration v => uint64Json_ok v
  | .u128 _ _ => trivial
  | .i128 _ _ => trivial
  | .u256 _ _ _ _ => trivial
  | .i256 _ _ _ _ => trivial
  | .bytes _ => trivial
  | .string _ => trivial
  | .symbol _ => trivial
  | .address _ => trivial
  | .vec none => trivial
  | .vec (some vals) => valsJson_ok vals
  | .map none => ⟨List.Pairwise.nil, trivial⟩
  | .map (some entries) => Json.objectOf_ok (entriesJson_ok entries)
  | .error _ => trivial
  | .contractInstance _ _ => trivial
  | .ledgerKeyContractInstance => trivial
  | .ledgerKeyNonce _ => trivial

/-- So is what is made of the items of a vector. -/
theorem valsJson_ok : ∀ vs : List ScVal, Json.OkItems (valsJson scValString vs)
  | [] => trivial
  | v :: vs => ⟨valJson_ok v, valsJson_ok vs⟩

/-- So is what is made of the entries of a map. -/
theorem entriesJson_ok : ∀ es : List (ScVal × ScVal), Json.OkMembers (entriesJson scValString es)
  | [] => trivial
  | (_, v) :: es => ⟨valJson_ok v, entriesJson_ok es⟩

end

/-- So are the arguments of a call. -/
theorem argsJson_ok (data : ScVal) : (argsJson scValString data).Ok := by
  rcases encodeArgs_cases scValString data with ⟨vals, rfl⟩ | ⟨-, hv⟩
  · exact valsJson_ok scValString vals
  · rw [hv]
    exact ⟨valJson_ok scValString data, trivial⟩

end Values

/-! ## Words taken together -/

/-- The number of unsigned words is the number of the words taken together. -/
theorem bigFromUnsigned_two (hi lo : BitVec 64) : bigFromUnsigned [hi, lo] = ((hi ++ lo).toNat : Int) := by
  rw [toNat_append]
  simp [bigFromUnsigned]

/-- Four words put together are a number of 256 bits. -/
theorem bigFromUnsigned_four (hiHi hiLo loHi loLo : BitVec 64) :
    bigFromUnsigned [hiHi, hiLo, loHi, loLo] = ((hiHi ++ hiLo ++ loHi ++ loLo).toNat : Int) := by
  rw [toNat_append, toNat_append, toNat_append]
  simp [bigFromUnsigned]

/-- The number of a signed word and those below it is the number of the words taken together in two's complement. -/
theorem bigFromSigned_two (hi lo : BitVec 64) : bigFromSigned hi [lo] = (hi ++ lo).toInt := by
  rw [toInt_append (by omega)]
  rfl

/-- Four words put together are a number of 256 bits with its sign. -/
theorem bigFromSigned_four (hiHi hiLo loHi loLo : BitVec 64) :
    bigFromSigned hiHi [hiLo, loHi, loLo] = (hiHi ++ hiLo ++ loHi ++ loLo).toInt := by
  rw [toInt_append (by omega), toInt_append (by omega), toInt_append (by omega)]
  rfl

end Soroscan
