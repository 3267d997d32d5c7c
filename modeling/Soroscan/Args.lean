import Soroscan.Lib.Json
import Soroscan.Basic

/-!
# Stored arguments

The argument half of `store.go`: an address inside the arguments is replaced by a placeholder object that names its dictionary
id before the arguments are stored, and put back when they are read. A Go map used for lookup is a function here; a key that is
not in it has the zero value of its type.
-/

namespace Soroscan

/-- `parseArgs`: the value of a JSON text, its numbers kept as they are written. -/
def parseArgs (data : Text) : Option Json := Json.parse data

/-- A character of the base-32 alphabet. -/
def isBase32Char (c : Char) : Bool := ('A' ≤ c && c ≤ 'Z') || ('2' ≤ c && c ≤ '7')

/-- `addressPattern`: a G or a C, and 55 characters of the base-32 alphabet. -/
def isAddress : Text → Bool
  | c :: t => (c = 'G' || c = 'C') && decide (t.length = 55) && t.all isBase32Char
  | [] => false

mutual

/-- `collectAddresses`: the address-shaped strings of a value, at any depth. -/
def collectAddresses : Json → List Text
  | .str s => if isAddress s then [s] else []
  | .arr items => collectAddressesItems items
  | .obj members => collectAddressesMembers members
  | _ => []

def collectAddressesItems : List Json → List Text
  | [] => []
  | v :: vs => collectAddresses v ++ collectAddressesItems vs

def collectAddressesMembers : List (Text × Json) → List Text
  | [] => []
  | (_, v) :: ms => collectAddresses v ++ collectAddressesMembers ms

end

/-- The one name a placeholder has. -/
def placeholderName : Text := ['$', 'a']

/-- The placeholder of an id. -/
def placeholder (id : BitVec 32) : Json := .obj [(placeholderName, .num (intDecimal id.toInt))]

mutual

/-- `rewriteAddresses`: every address-shaped string of a value becomes the placeholder of its id. -/
def rewriteAddresses (ids : Text → Option (BitVec 32)) : Json → Json
  | .str s => if isAddress s then placeholder ((ids s).getD 0) else .str s
  | .arr items => .arr (rewriteItems ids items)
  | .obj members => .obj (rewriteMembers ids members)
  | v => v

def rewriteItems (ids : Text → Option (BitVec 32)) : List Json → List Json
  | [] => []
  | v :: vs => rewriteAddresses ids v :: rewriteItems ids vs

def rewriteMembers (ids : Text → Option (BitVec 32)) : List (Text × Json) → List (Text × Json)
  | [] => []
  | (k, v) :: ms => (k, rewriteAddresses ids v) :: rewriteMembers ids ms

end

/-- `strconv.ParseInt` to 32 bits: an optional sign and digits, of a number that fits. -/
def parseInt32 (t : Text) : Option (BitVec 32) :=
  match t with
  | '+' :: ds => (readDecimal ds).bind fun n => if n < 2 ^ 31 then some (BitVec.ofNat 32 n) else none
  | t => (readInt t).bind fun i => if -2 ^ 31 ≤ i ∧ i < 2 ^ 31 then some (BitVec.ofInt 32 i) else none

/-- `placeholderID`: the id of an object whose one member is `$a` with an integer of 32 bits. -/
def placeholderID : List (Text × Json) → Option (BitVec 32)
  | [(k, .num token)] => if k = placeholderName then parseInt32 token else none
  | _ => none

mutual

/-- `collectPlaceholderIDs`: the ids of the placeholders of a value. A placeholder is not looked into. -/
def collectPlaceholderIDs : Json → List (BitVec 32)
  | .arr items => collectPlaceholderIDsItems items
  | .obj members =>
    match placeholderID members with
    | some id => [id]
    | none => collectPlaceholderIDsMembers members
  | _ => []

def collectPlaceholderIDsItems : List Json → List (BitVec 32)
  | [] => []
  | v :: vs => collectPlaceholderIDs v ++ collectPlaceholderIDsItems vs

def collectPlaceholderIDsMembers : List (Text × Json) → List (BitVec 32)
  | [] => []
  | (_, v) :: ms => collectPlaceholderIDs v ++ collectPlaceholderIDsMembers ms

end

mutual

/-- `resolvePlaceholders`: every placeholder of a value becomes the address of its id. -/
def resolvePlaceholders (addrs : BitVec 32 → Option Text) : Json → Json
  | .arr items => .arr (resolveItems addrs items)
  | .obj members =>
    match placeholderID members with
    | some id => .str ((addrs id).getD [])
    | none => .obj (resolveMembers addrs members)
  | v => v

def resolveItems (addrs : BitVec 32 → Option Text) : List Json → List Json
  | [] => []
  | v :: vs => resolvePlaceholders addrs v :: resolveItems addrs vs

def resolveMembers (addrs : BitVec 32 → Option Text) : List (Text × Json) → List (Text × Json)
  | [] => []
  | (k, v) :: ms => (k, resolvePlaceholders addrs v) :: resolveMembers addrs ms

end

end Soroscan
