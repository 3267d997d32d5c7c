import Soroscan.Lib.JsonSyntax
import Soroscan.Lemmas.RenderedKeys

/-!
# Keys that look alike

What the JSON text of a contract value shows of it (`look`): an integer of any type is its number, every value that is printed as
a string is its characters, an absent list or map is an empty one. Two keys of a map become one name exactly when they look alike
(`alike_iff`): the type of a key is not part of its name.
-/

namespace Soroscan

/-- The characters of a string literal, with the replacement character for each byte that is none. -/
def characters (rs : List (Option Char)) : Text := rs.map (·.getD Json.replacementChar)

/-- A string literal of characters only. -/
def literal (t : Text) : JsonSyntax := .str (t.map some)

/-- What is shown of a number of 64 bits: past the greatest `int64`, the string of its digits. -/
def lookUint64 (v : BitVec 64) : JsonSyntax := if 2 ^ 63 - 1 < v.toNat then literal (decimal v.toNat) else .int v.toNat

/-- The runes of a key's name: those of a string, and the JSON text of any other value. -/
def nameRunes : JsonSyntax → List (Option Char)
  | .str rs => rs
  | w => w.print.map some

/-- Two keys look alike: two strings of the same characters, a string that spells the JSON text of the other key, or two other
keys of which the same is shown. -/
def Alike : JsonSyntax → JsonSyntax → Prop
  | .str rs, .str rs' => characters rs = characters rs'
  | .str rs, w => characters rs = w.print
  | w, .str rs => characters rs = w.print
  | w, w' => w = w'

section Looks

variable (scValString : ScVal → Bytes)

mutual

/-- What the JSON text of a contract value shows of it. -/
def look : ScVal → JsonSyntax
  | .bool b => .bool b
  | .void => .null
  | .u32 v => .int v.toNat
  | .i32 v => .int v.toInt
  | .u64 v => lookUint64 v
  | .i64 v => .int v.toInt
  | .timepoint v => lookUint64 v
  | .duration v => lookUint64 v
  | .u128 hi lo => literal (decimal (hi ++ lo).toNat)
  | .i128 hi lo => literal (intDecimal (hi ++ lo).toInt)
  | .u256 hiHi hiLo loHi loLo => literal (decimal (hiHi ++ hiLo ++ loHi ++ loLo).toNat)
  | .i256 hiHi hiLo loHi loLo => literal (intDecimal (hiHi ++ hiLo ++ loHi ++ loLo).toInt)
  | .bytes b => literal (hexText b)
  | .string s => .str (decodeRunes s)
  | .symbol s => .str (decodeRunes s)
  | .address a => literal (addressString a)
  | .vec none => .arr []
  | .vec (some vals) => .arr (lookItems vals)
  | .map none => .obj []
  | .map (some entries) => .obj (lookEntries entries)
  | .error e => .str (decodeRunes (scValString (.error e)))
  | .contractInstance executable storage => .str (decodeRunes (scValString (.contractInstance executable storage)))
  | .ledgerKeyContractInstance => .str (decodeRunes (scValString .ledgerKeyContractInstance))
  | .ledgerKeyNonce nonce => .str (decodeRunes (scValString (.ledgerKeyNonce nonce)))

def lookItems : List ScVal → List JsonSyntax
  | [] => []
  | v :: vs => look v :: lookItems vs

def lookEntries : List (ScVal × ScVal) → List (List (Option Char) × JsonSyntax)
  | [] => []
  | (k, v) :: es => (nameRunes (look k), look v) :: lookEntries es

end

/-! ## The text shows the look -/

theorem print_lookUint64 (v : BitVec 64) : (lookUint64 v).print = writeUint64 v := by
  rw [lookUint64, writeUint64]
  split
  · rfl
  · rfl

/-- A name is printed as the literal of its runes. -/
theorem writeMapKey_print (w : JsonSyntax) : writeMapKey w.print = Json.quoteRunes (nameRunes w) := by
  obtain ⟨c, t, ht, hc, -⟩ := JsonSyntax.print_head w
  cases w with
  | str rs => exact if_pos rfl
  | _ =>
    refine if_neg ?_
    rw [ht]
    intro h
    rw [Option.some.inj h] at hc
    cases hc

mutual

/-- The JSON text of a value is the text of what is shown of it. -/
theorem print_look : ∀ v : ScVal, (look scValString v).print = writeVal scValString v
  | .bool true => rfl
  | .bool false => rfl
  | .void => rfl
  | .u32 _ => rfl
  | .i32 _ => rfl
  | .u64 v => print_lookUint64 v
  | .i64 _ => rfl
  | .timepoint v => print_lookUint64 v
  | .duration v => print_lookUint64 v
  | .u128 _ _ => by rw [writeVal, bigFromUnsigned_two]; rfl
  | .i128 _ _ => by rw [writeVal, bigFromSigned_two]; rfl
  | .u256 _ _ _ _ => by rw [writeVal, bigFromUnsigned_four]; rfl
  | .i256 _ _ _ _ => by rw [writeVal, bigFromSigned_four]; rfl
  | .bytes _ => rfl
  | .string _ => rfl
  | .symbol _ => rfl
  | .address _ => rfl
  | .vec none => rfl
  | .vec (some []) => rfl
  | .vec (some (v :: vs)) => by
    rw [look, lookItems, JsonSyntax.print, print_look v, printItems_look vs]
    rfl
  | .map none => rfl
  | .map (some []) => rfl
  | .map (some ((k, v) :: es)) => by
    rw [look, lookEntries, JsonSyntax.print, ← writeMapKey_print, print_look k, print_look v, printMembers_look es]
    rfl
  | .error _ => rfl
  | .contractInstance _ _ => rfl
  | .ledgerKeyContractInstance => rfl
  | .ledgerKeyNonce _ => rfl

theorem printItems_look : ∀ vs : List ScVal, JsonSyntax.printItems (lookItems scValString vs) = writeValsRest scValString vs
  | [] => rfl
  | v :: vs => by rw [lookItems, JsonSyntax.printItems, print_look v, printItems_look vs, writeValsRest]

theorem printMembers_look : ∀ es : List (ScVal × ScVal),
    JsonSyntax.printMembers (lookEntries scValString es) = writeMapRest scValString es
  | [] => rfl
  | (k, v) :: es => by
    rw [lookEntries, JsonSyntax.printMembers, ← writeMapKey_print, print_look k, print_look v, printMembers_look es,
      writeMapRest]

end

/-! ## The same name -/

/-- A key is read as the characters of its name. -/
theorem renderedKey_look (k : ScVal) : renderedKey scValString k = some (.str (characters (nameRunes (look scValString k)))) := by
  rw [renderedKey, ← print_look, writeMapKey_print]
  exact (Json.stands_runes _).parse

/-- The characters of a name that is no string's are the JSON text of the key. -/
theorem characters_map_some (t : Text) : characters (t.map some) = t := Json.map_getD_some t

/-- Two keys have one name exactly when they look alike. -/
theorem alike_iff (w w' : JsonSyntax) : Alike w w' ↔ characters (nameRunes w) = characters (nameRunes w') := by
  cases w <;> cases w' <;> simp only [Alike, nameRunes, characters_map_some, JsonSyntax.print_injective.eq_iff]
  all_goals exact eq_comm

theorem renderedKey_eq_iff_alike (k k' : ScVal) :
    renderedKey scValString k = renderedKey scValString k' ↔ Alike (look scValString k) (look scValString k') := by
  rw [renderedKey_look, renderedKey_look, alike_iff, Option.some.injEq, Json.str.injEq]

end Looks

end Soroscan
