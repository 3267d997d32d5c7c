import Soroscan.Viewers
import Soroscan.Wire

/-!
# Endpoints

The endpoints of `api.go` for an asset and for a ledger, and the functions of `client.ts` that read their answers. An icon is served
with the headers that say what it is and how long it may be kept.
-/

namespace Soroscan

namespace Icons

/-- `errors.Is(err, ErrNoIcon)` -/
def IconError.isNoIcon : IconError → Bool
  | .noIcon => true
  | .wrap _ error => error.isNoIcon
  | _ => false

/-- `errors.Is(err, ErrNoMeta)` -/
def IconError.isNoMeta : IconError → Bool
  | .noMeta => true
  | .wrap _ error => error.isNoMeta
  | _ => false

/-- What `Icon` returns of a resolved entry. -/
def iconOf (cached : Entry) : Except IconError (Bytes × Bytes) :=
  if cached.found then .ok (cached.body, cached.contentType) else .error .noIcon

/-- What `resolved` returns, if it does. A request that was cancelled returns the error of its context. -/
def Result.returned : Result → Option (Except IconError Entry)
  | .served value => some (.ok value)
  | .failed error => some (.error error)
  | .cancelled => some (.error (.client .cancelled))
  | .panicked => none

end Icons

namespace Wire

open Icons

/-! ## Assets -/

/-- `codePattern`: `^[A-Za-z0-9]{1,12}$`. -/
def codePattern (code : Bytes) : Bool :=
  1 ≤ code.length && code.length ≤ 12 && code.all fun b => (65 ≤ b && b ≤ 90) || (97 ≤ b && b ≤ 122) || (48 ≤ b && b ≤ 57)

/-- `issuerPattern`: `^G[A-Z2-7]{55}$`. -/
def issuerPattern (issuer : Bytes) : Bool :=
  match issuer with
  | 71 :: key => key.length = 55 && key.all fun b => (65 ≤ b && b ≤ 90) || (50 ≤ b && b ≤ 55)
  | _ => false

/-- The check that comes before an asset is asked for. -/
def validAsset (code issuer : Bytes) : Bool := codePattern code && issuerPattern issuer

def invalidAsset : ApiError := ⟨400, "invalid asset"⟩

def internalError : ApiError := ⟨500, "internal error"⟩

/-- The answer for an icon: its status, its headers and its bytes. -/
structure IconReply where
  status : Nat
  contentType : Bytes
  cacheControl : Option String
  nosniff : Bool
  body : Bytes
  deriving DecidableEq, Repr

/-- An error as the answer for an icon. -/
def iconError (e : ApiError) (cacheControl : Option String) : IconReply :=
  ⟨e.status, utf8 "application/json", cacheControl, false, utf8Bytes (writeError e).body⟩

/-- `assetIcon`, over what `resolved` returns for the asset. -/
def assetIcon (code issuer : Bytes) (returned : Except IconError Entry) : IconReply :=
  if !validAsset code issuer then iconError invalidAsset none
  else
    match returned.bind iconOf with
    | .ok (body, contentType) => ⟨200, contentType, some "public, max-age=86400", true, body⟩
    | .error e =>
      if e.isNoIcon then iconError ⟨404, "no icon for this asset"⟩ (some "public, max-age=3600") else iconError internalError none

/-- A string that is left out where it is empty. -/
def omitEmpty (name : String) (value : Bytes) : List (Text × Text) :=
  if value = [] then [] else [(key name, Json.quoteRunes (decodeRunes value))]

/-- A `Meta` as it is encoded. -/
def metaText (m : Meta) : Text :=
  Json.objectText (omitEmpty "name" m.name ++ omitEmpty "description" m.description ++
    [(key "domain", Json.quoteRunes (decodeRunes m.domain)), (key "icon", Json.marshal (.bool m.icon))])

/-- `assetMeta`, over what `resolved` returns for the asset. -/
def assetMeta (code issuer : Bytes) (returned : Except IconError Entry) : HttpReply :=
  if !validAsset code issuer then writeError invalidAsset
  else
    match returned.bind metaOf with
    | .ok m => writeJSON (some (metaText m))
    | .error e => if e.isNoMeta then writeError ⟨404, "no meta for this asset"⟩ else writeError internalError

/-- `AssetMeta`. -/
structure AssetMeta where
  name : Option Text
  description : Option Text
  domain : Text
  icon : Bool
  deriving DecidableEq

/-- The error of an answer that is no success. -/
def refusal (r : Failover.JsonFetchResult JsValue) : ClientError :=
  .upstream ((stringField "error" r.body).getD ("indexer responded ".toList ++ decimal r.status)) (some r.status)

/-- The error of an answer without what it must have. -/
def malformed : ClientError := .upstream "indexer: malformed response body".toList none

/-- `body.icon === true` -/
def isTrue (name : String) (v : JsValue) : Bool :=
  match v.field (key name) with
  | some (.bool b) => b
  | _ => false

/-- The rest of `fetchAssetMeta`, once an answer was accepted. -/
def readAssetMeta (r : Failover.JsonFetchResult JsValue) : Except ClientError (Option AssetMeta) :=
  if r.status = 404 then .ok none
  else if !r.ok then .error (refusal r)
  else
    match stringField "domain" r.body with
    | some [] => .error malformed
    | some domain =>
      .ok (some
        { name := stringField "name" r.body
          description := stringField "description" r.body
          domain
          icon := isTrue "icon" r.body })
    | none => .error malformed

/-- What `fetchAssetMeta` makes of an answer, or nothing if its provider is given up. -/
def HttpReply.fetchedMeta (r : HttpReply) : Option (Except ClientError (Option AssetMeta)) :=
  r.attempt.accepted.map readAssetMeta

/-! ## Ledgers -/

/-- `ledgerSoroban`, over what `LedgerStats` returns. -/
def ledgerSoroban (path : Text) (ledgerStats : BitVec 32 → Option LedgerStats) : HttpReply :=
  match readDecimal path with
  | none => writeError (badRequest "invalid ledger sequence")
  | some sequence =>
    if sequence = 0 ∨ 2 ^ 32 ≤ sequence then writeError (badRequest "invalid ledger sequence")
    else
      match ledgerStats (uint32 sequence) with
      | none => writeError internalError
      | some stats =>
        writeJSON (some (Json.objectText
          [(key "invocations", decimal stats.invocations),
           (key "contracts", decimal stats.contracts),
           (key "functions", decimal stats.functions),
           (key "indexed", Json.marshal (.bool stats.indexed))]))

/-- `LedgerSorobanStats`. -/
structure LedgerSorobanStats where
  invocations : JsNumber
  contracts : JsNumber
  functions : JsNumber
  indexed : Bool
  deriving DecidableEq

/-- A field that is true or false. -/
def boolField (name : String) (v : JsValue) : Option Bool :=
  match v.field (key name) with
  | some (.bool b) => some b
  | _ => none

/-- The rest of `fetchLedgerSoroban`, once an answer was accepted. -/
def readLedgerSoroban (r : Failover.JsonFetchResult JsValue) : Except ClientError LedgerSorobanStats :=
  if !r.ok then .error (refusal r)
  else
    match numberField "invocations" r.body, numberField "contracts" r.body, numberField "functions" r.body,
      boolField "indexed" r.body with
    | some invocations, some contracts, some functions, some indexed => .ok ⟨invocations, contracts, functions, indexed⟩
    | _, _, _, _ => .error malformed

/-- `fetchLedgerSoroban`, or nothing if its provider is given up. -/
def fetchLedgerSoroban (sequence : Nat) (ledgerStats : BitVec 32 → Option LedgerStats) :
    Option (Except ClientError LedgerSorobanStats) :=
  (ledgerSoroban (decimal sequence) ledgerStats).attempt.accepted.map readLedgerSoroban

end Wire

end Soroscan
