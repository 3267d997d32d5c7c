import Soroscan.Lib.DecimalText
import Soroscan.Lib.Percent

/-!
# The entity of a page

`routeEntityFromPath` of `ai/entity.ts` reads the entity a visitor looks at from the path of the page, and `classifySearch` of
`search.ts` says what an id is. The checks of strkeys are of the Stellar library, and are parameters here.
-/

namespace Soroscan

namespace Entity

open DecimalText

/-- `AiEntityKind`. -/
inductive AiEntityKind
  | tx
  | account
  | contract
  | ledger
  | asset
  deriving DecidableEq, Repr

/-- `AiRef`. -/
structure AiRef where
  kind : AiEntityKind
  id : JsString
  deriving DecidableEq, Repr

/-- The checks of `StrKey`. -/
structure StrKey where
  isValidEd25519PublicKey : JsString → Bool
  isValidMed25519PublicKey : JsString → Bool
  isValidContract : JsString → Bool

/-- The lengths of the addresses: 32 bytes of a key, eight more of an id in a muxed one, the version byte and the checksum. -/
structure StrKey.HasLengths (keys : StrKey) : Prop where
  ed25519 : ∀ v, keys.isValidEd25519PublicKey v = true → v.length = 56
  med25519 : ∀ v, keys.isValidMed25519PublicKey v = true → v.length = 69
  contract : ∀ v, keys.isValidContract v = true → v.length = 56

/-- The `type` of a `SearchTarget`. -/
inductive SearchType
  | account
  | contract
  | tx
  | ledger
  | unknown
  deriving DecidableEq, Repr

/-- `SearchTarget`. -/
structure SearchTarget where
  type : SearchType
  value : JsString
  deriving DecidableEq, Repr

/-- The kind that a type is equal to. -/
def SearchType.kind : SearchType → Option AiEntityKind
  | .account => some .account
  | .contract => some .contract
  | .tx => some .tx
  | .ledger => some .ledger
  | .unknown => none

/-- A white space or an end of a line. -/
def isSpace (u : UInt16) : Bool :=
  (9 ≤ u && u ≤ 13) || u = 0x20 || u = 0xA0 || u = 0x1680 || (0x2000 ≤ u && u ≤ 0x200A) || u = 0x2028 || u = 0x2029 ||
    u = 0x202F || u = 0x205F || u = 0x3000 || u = 0xFEFF

/-- `trim` of a string. -/
def trim (s : JsString) : JsString := (s.dropWhile isSpace).rdropWhile isSpace

/-- `[0-9a-fA-F]`. -/
def isHexUnit (u : UInt16) : Bool := (48 ≤ u && u ≤ 57) || (97 ≤ u && u ≤ 102) || (65 ≤ u && u ≤ 70)

/-- `/^[0-9a-fA-F]{64}$/`. -/
def isTxHash (s : JsString) : Bool := s.length = 64 && s.all isHexUnit

/-- A unit of `toLowerCase`, where it is a hexadecimal digit. -/
def lowerUnit (u : UInt16) : UInt16 := if 65 ≤ u && u ≤ 90 then u + 32 else u

/-- `classifySearch`. -/
def classifySearch (keys : StrKey) (raw : JsString) : SearchTarget :=
  let value := trim raw
  if keys.isValidEd25519PublicKey value || keys.isValidMed25519PublicKey value then ⟨.account, value⟩
  else if keys.isValidContract value then ⟨.contract, value⟩
  else if isTxHash value then ⟨.tx, value.map lowerUnit⟩
  else if value ≠ [] && value.all isDigit then ⟨.ledger, value⟩
  else ⟨.unknown, value⟩

/-- `[A-Za-z0-9]`. -/
def isAlnumUnit (u : UInt16) : Bool := (65 ≤ u && u ≤ 90) || (97 ≤ u && u ≤ 122) || (48 ≤ u && u ≤ 57)

/-- `[A-Z2-7]`. -/
def isBase32Unit (u : UInt16) : Bool := (65 ≤ u && u ≤ 90) || (50 ≤ u && u ≤ 55)

/-- `-G[A-Z2-7]{55}$`. -/
def isIssuerPart : JsString → Bool
  | 45 :: 71 :: key => key.length = 55 && key.all isBase32Unit
  | _ => false

/-- `ASSET_ID`. The hyphen is no letter or digit of the code, so the code is as long as they go. -/
def isAssetId (s : JsString) : Bool :=
  let code := s.takeWhile isAlnumUnit
  (1 ≤ code.length && code.length ≤ 12 && isIssuerPart (s.dropWhile isAlnumUnit)) || s = js "XLM".toList

/-- What a property of `KIND_BY_SEGMENT` is: a kind of its own, or one that every object inherits, which is truthy and equal to no
type. -/
inductive SegmentKind
  | own (kind : AiEntityKind)
  | inherited
  deriving DecidableEq, Repr

/-- The properties that every object inherits. -/
def inheritedNames : List JsString :=
  ["constructor", "__defineGetter__", "__defineSetter__", "hasOwnProperty", "__lookupGetter__", "__lookupSetter__", "isPrototypeOf",
    "propertyIsEnumerable", "toString", "valueOf", "__proto__", "toLocaleString"].map fun name => js name.toList

/-- `KIND_BY_SEGMENT[segment]`. -/
def kindBySegment (segment : JsString) : Option SegmentKind :=
  if segment = js "tx".toList then some (.own .tx)
  else if segment = js "account".toList then some (.own .account)
  else if segment = js "contract".toList then some (.own .contract)
  else if segment = js "ledger".toList then some (.own .ledger)
  else if segment = js "asset".toList then some (.own .asset)
  else if inheritedNames.contains segment then some .inherited
  else none

/-- `pathname.split("/").filter(Boolean)`. -/
def pathParts (pathname : JsString) : List JsString := (pathname.splitOn 47).filter fun part => decide (part ≠ [])

/-- The reference of a decoded id under a segment's kind. -/
def refOf (keys : StrKey) (kind : SegmentKind) (raw : JsString) : Option AiRef :=
  match kind with
  | .own .asset => if isAssetId raw then some ⟨.asset, raw⟩ else none
  | .own kind =>
    let target := classifySearch keys raw
    if target.type.kind = some kind then some ⟨kind, target.value⟩ else none
  -- no `type` is a function or an object
  | .inherited => none

/-- `routeEntityFromPath`, or nothing where it throws. -/
def routeEntityFromPath (keys : StrKey) (pathname : JsString) : Option (Option AiRef) :=
  match pathParts pathname with
  | first :: second :: _ =>
    match kindBySegment first with
    | none => some none
    | some kind => (Percent.decodeURIComponent second).map (refOf keys kind)
  | _ => some none

end Entity

end Soroscan
