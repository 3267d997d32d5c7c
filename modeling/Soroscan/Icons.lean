import Soroscan.Toml
import Mathlib.Logic.Function.Basic

/-!
# Icons

`icons.go`: the identity of an asset, resolved at its issuer and cached. `resolve` is a function of what its three fetches give:
the issuer account at Horizon, the stellar.toml of the domain it names, and the image the toml names. `lookup`, `claim`, `store`
and `release` each hold the mutex, so each is one step on the service.

Points in time are nanoseconds from the start of the process.
-/

namespace Soroscan

namespace Icons

/-! ## Errors -/

/-- Why a request has no response: it cannot be made, its time ran out, its context was cancelled, or the host cannot be reached. -/
inductive ClientFailure where
  | malformed
  | timeout
  | cancelled
  | unreachable
  deriving DecidableEq, Repr

/-- The errors of the package. A `wrap` puts a text before another error. -/
inductive IconError where
  | noIcon
  | noMeta
  | noDomain
  | transient (status : Option Nat)
  | status (code : Nat)
  | client (failure : ClientFailure)
  | decode
  | tooLarge (limit : Nat)
  | wrap (text : String) (error : IconError)
  deriving DecidableEq, Repr

/-- `errors.Is(err, errNoDomain)` -/
def IconError.isNoDomain : IconError → Bool
  | .noDomain => true
  | .wrap _ error => error.isNoDomain
  | _ => false

/-- `errors.Is(err, errTransient)` -/
def IconError.isTransient : IconError → Bool
  | .transient _ => true
  | .wrap _ error => error.isTransient
  | _ => false

/-! ## Fetches -/

/-- What comes of a request: no response, or a status with a content type and a body. -/
inductive Fetch (β : Type) where
  | failed (failure : ClientFailure)
  | answered (status : Nat) (contentType : Bytes) (body : β)
  deriving DecidableEq, Repr

/-- A body: the bytes that arrive, and whether the connection drops after them. -/
structure Body where
  bytes : Bytes
  dropped : Bool
  deriving DecidableEq, Repr

/-- `io.ReadAll` of a body through a limit reader. A connection that drops within the limit is an error. -/
def Body.readAll (body : Body) (limit : Nat) : Option Bytes :=
  if body.dropped && body.bytes.length < limit then none else some (body.bytes.take limit)

/-- The body of an account, decoded: its home domain, which is empty when there is none; text that is not an account; or a
connection that drops before the account is whole. -/
inductive AccountBody where
  | account (homeDomain : Bytes)
  | malformed
  | dropped
  deriving DecidableEq, Repr

/-- What the three fetches of a resolution give, each if it is made. -/
structure Upstream where
  account : Fetch AccountBody
  toml : Fetch Body
  image : Fetch Body
  deriving DecidableEq, Repr

def maxTomlBytes : Nat := 100 * 1024

def maxImageBytes : Nat := 512 * 1024

def maxNameRunes : Nat := 64

def maxDescRunes : Nat := 400

/-- The status and the home domain of an account. -/
def getJSON : Fetch AccountBody → Except IconError (Nat × Bytes)
  | .failed failure => .error (.client failure)
  | .answered status _ body =>
    if status ≠ 200 then .ok (status, [])
    else
      match body with
      | .account homeDomain => .ok (status, homeDomain)
      | .malformed => .error .decode
      | .dropped => .error .decode

/-- The home domain that the issuer account names. -/
def homeDomain (account : Fetch AccountBody) : Except IconError Bytes :=
  match getJSON account with
  | .error error => .error (.wrap "horizon account" error)
  | .ok (status, homeDomain) =>
    if status = 429 ∨ status = 408 then .error (.wrap "horizon account" (.transient (some status)))
    else if 400 ≤ status ∧ status < 500 then .error .noDomain
    else if status ≠ 200 then .error (.wrap "horizon account" (.status status))
    else if homeDomain = [] then .error .noDomain
    else .ok homeDomain

/-- The currency of the asset in a text, cleaned. Only an image over https counts. -/
def servedCurrency (lower : Char → Char) (text code issuer : Bytes) : TomlEntry :=
  let currency := currencyMeta lower text code issuer
  { name := clean currency.name maxNameRunes
    desc := clean currency.desc maxDescRunes
    image := if (utf8 "https://").isPrefixOf currency.image then currency.image else [] }

/-- The currency of the asset in the stellar.toml of its domain. -/
def tomlCurrency (lower : Char → Char) (toml : Fetch Body) (code issuer : Bytes) : Except IconError TomlEntry :=
  match toml with
  | .failed .malformed => .error (.wrap "toml request" (.client .malformed))
  | .failed failure => .error (.wrap "toml fetch" (.client failure))
  | .answered status _ body =>
    if status ≠ 200 then .error (.wrap "toml fetch" (.status status))
    else
      match body.readAll (maxTomlBytes + 1) with
      | none => .error (.wrap "toml read" (.transient none))
      | some text =>
        if maxTomlBytes < text.length then .error (.tooLarge maxTomlBytes)
        else .ok (servedCurrency lower text code issuer)

/-- The content type before its parameters. -/
def mediaType (contentType : Bytes) : Bytes := trimSpace (contentType.takeWhile (· ≠ 0x3B))

def imageTypes : List Bytes := [utf8 "image/png", utf8 "image/jpeg", utf8 "image/webp", utf8 "image/gif"]

/-- The image, with its content type. -/
def fetchImage : Fetch Body → Except IconError (Bytes × Bytes)
  | .failed .malformed => .error (.wrap "image request" (.client .malformed))
  | .failed _ => .error .noIcon
  | .answered status contentType body =>
    if status ≠ 200 then .error .noIcon
    else if mediaType contentType ∉ imageTypes then .error .noIcon
    else
      match body.readAll (maxImageBytes + 1) with
      | none => .error (.wrap "image read" (.transient none))
      | some bytes => if maxImageBytes < bytes.length then .error .noIcon else .ok (bytes, mediaType contentType)

/-! ## Entries -/

/-- What is known of an asset. -/
structure Entry where
  body : Bytes
  contentType : Bytes
  domain : Bytes
  name : Bytes
  desc : Bytes
  fetchedAt : Nat
  found : Bool
  deriving DecidableEq, Repr

/-- An entry of which only the domain and the time are known. -/
def Entry.bare (domain : Bytes) (now : Nat) : Entry := ⟨[], [], domain, [], [], now, false⟩

def entryOverhead : Nat := 256

def Entry.size (e : Entry) : Nat :=
  entryOverhead + e.body.length + e.contentType.length + e.domain.length + e.name.length + e.desc.length

def positiveTTL : Nat := 24 * 3600 * 1000000000

def negativeTTL : Nat := 3600 * 1000000000

/-- How long an entry is served. -/
def Entry.ttl (e : Entry) : Nat := if e.found then positiveTTL else negativeTTL

/-- The ttl of an entry has passed. -/
def Entry.expired (e : Entry) (now : Nat) : Bool := e.ttl < now - e.fetchedAt

/-! ## Resolving -/

/-- The key of an asset. -/
def assetKey (code issuer : Bytes) : Bytes := code ++ 0x3A :: issuer

/-- Assets whose home domain is repaired by hand. -/
def domainOverrides : List (Bytes × Bytes) :=
  [(utf8 "USDC:GA5ZSEJYB37JRC5AVCIA5MOP4RHTM335X2KGX3IHOJAPP5RE34K4KZVN", utf8 "centre.io")]

/-- The domain of an asset: the repaired one, or the one its issuer account names. -/
def domainOf (account : Fetch AccountBody) (code issuer : Bytes) : Except IconError Bytes :=
  match domainOverrides.lookup (assetKey code issuer) with
  | some domain => .ok domain
  | none => homeDomain account

/-- A domain that can be asked for its stellar.toml. -/
def usableDomain (lower : Char → Char) (domain : Bytes) : Bool :=
  domainShape (toLower lower domain) && decide (domain.length ≤ 253)

/-- The image of a currency, added to what is known of the asset. -/
def withImage (resolved : Entry) (image : Fetch Body) : Except IconError Entry :=
  match fetchImage image with
  | .ok (body, contentType) => .ok { resolved with body, contentType, found := true }
  | .error error => if error.isTransient then .error error else .ok resolved

/-- The resolution of an asset, begun at a time. -/
def resolve (lower : Char → Char) (up : Upstream) (code issuer : Bytes) (now : Nat) : Except IconError Entry :=
  match domainOf up.account code issuer with
  | .error error => if error.isNoDomain then .ok (Entry.bare [] now) else .error error
  | .ok domain =>
    if !usableDomain lower domain then .ok (Entry.bare [] now)
    else
      match tomlCurrency lower up.toml code issuer with
      | .error error => if error.isTransient then .error error else .ok (Entry.bare domain now)
      | .ok currency =>
        let resolved := { Entry.bare domain now with name := currency.name, desc := currency.desc }
        if currency.image = [] then .ok resolved else withImage resolved up.image

/-- `tomlURL`, with a domain in its place. -/
def tomlURL (domain : Bytes) : Bytes := utf8 "https://" ++ domain ++ utf8 "/.well-known/stellar.toml"

/-- The url that a resolution asks for its stellar.toml, if it asks for one. -/
def tomlRequest (lower : Char → Char) (account : Fetch AccountBody) (code issuer : Bytes) : Option Bytes :=
  match domainOf account code issuer with
  | .error _ => none
  | .ok domain => if !usableDomain lower domain then none else some (tomlURL domain)

/-- `Meta`: what an issuer publishes about one of its assets. -/
structure Meta where
  name : Bytes
  description : Bytes
  domain : Bytes
  icon : Bool
  deriving DecidableEq, Repr

/-- What `Meta` reports of a resolved entry. -/
def metaOf (cached : Entry) : Except IconError Meta :=
  if cached.domain = [] then .error .noMeta else .ok ⟨cached.name, cached.desc, cached.domain, cached.found⟩

/-- `CachedIcon`: one cache entry, for operators to see. -/
structure CachedIcon where
  code : Bytes
  issuer : Bytes
  domain : Bytes
  name : Bytes
  found : Bool
  bytes : Nat
  fetchedAt : Nat
  deriving DecidableEq, Repr

/-- The listing of an entry. Its key is cut into code and issuer. -/
def Entry.listing (key : Bytes) (cached : Entry) : CachedIcon :=
  let cut := (cutAt 0x3A key).getD (key, [])
  ⟨cut.1, cut.2, cached.domain, cached.name, cached.found, cached.body.length, cached.fetchedAt⟩

/-! ## The service -/

def cacheBudget : Nat := 128 * 1024 * 1024

/-- The state behind the mutex. The order is that of insertion, oldest first; `inFlight` gives a channel to each key that is being
resolved. -/
structure Service where
  cache : Bytes → Option Entry
  order : List Bytes
  cacheBytes : Int
  inFlight : Bytes → Option Nat

namespace Service

def new : Service := ⟨fun _ => none, [], 0, fun _ => none⟩

/-- The cached entry of a key, unless its ttl has passed. -/
def lookup (s : Service) (key : Bytes) (now : Nat) : Option Entry := (s.cache key).filter fun cached => !cached.expired now

/-- The channel of a key, and whether the caller is the one to resolve it. `made` is the channel that `make` would give. -/
def claim (s : Service) (key : Bytes) (made : Nat) : Service × Nat × Bool :=
  match s.inFlight key with
  | some done => (s, done, false)
  | none => ({ s with inFlight := Function.update s.inFlight key (some made) }, made, true)

/-- A key is not in flight any more. The channel that is closed, if there is one. -/
def release (s : Service) (key : Bytes) : Service × Option Nat :=
  match s.inFlight key with
  | some done => ({ s with inFlight := Function.update s.inFlight key none }, some done)
  | none => (s, none)

/-- The oldest keys are evicted while the cache is over its budget. The service, and the keys that were evicted. -/
def evict (s : Service) : List Bytes → Service × List Bytes
  | [] => ({ s with order := [] }, [])
  | oldest :: rest =>
    if s.cacheBytes ≤ cacheBudget then ({ s with order := oldest :: rest }, [])
    else
      match s.cache oldest with
      | none => evict s rest
      | some evicted =>
        let (s', keys) := evict
          { s with cacheBytes := s.cacheBytes - evicted.size, cache := Function.update s.cache oldest none } rest
        (s', oldest :: keys)

/-- An outcome is put in the cache, in the place of the one before. -/
def insert (s : Service) (key : Bytes) (value : Entry) : Service :=
  match s.cache key with
  | some old =>
    { s with cache := Function.update s.cache key (some value), cacheBytes := s.cacheBytes - old.size + value.size }
  | none =>
    { s with cache := Function.update s.cache key (some value), cacheBytes := s.cacheBytes + value.size,
             order := s.order ++ [key] }

/-- `Cached`: the cache, newest first. -/
def cached (s : Service) : List CachedIcon := s.order.reverse.filterMap fun key => (s.cache key).map (Entry.listing key)

/-- An outcome is stored, and the cache brought back within its budget. -/
def store (s : Service) (key : Bytes) (value : Entry) : Service × List Bytes :=
  let inserted := s.insert key value
  inserted.evict inserted.order

end Service

end Icons

end Soroscan
