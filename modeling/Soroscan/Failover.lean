import Soroscan.Lib.Run
import Soroscan.Lib.Utf16

/-!
# Fetches with failover

`fetchJsonWithFailover` of `failover.ts` asks one provider of a list after another, and remembers the one that answered. Calls run
side by side: a call runs from one `await` to the next, and the memory is shared. A promise that settles lets its call go on, but
other calls can come in between.

How each attempt of each call goes is a parameter. Once its signal is aborted, a `fetch` or the reading of a body that has not
settled is rejected, as the platform says.
-/

namespace Soroscan

namespace Failover

/-- What is thrown: an `UpstreamError`, or what a promise was rejected with. -/
inductive Thrown (E : Type) where
  | upstream (message : JsString) (status : Option Nat)
  | rejected (error : E)
  deriving DecidableEq, Repr

/-- `JsonFetchResult`. -/
structure JsonFetchResult (B : Type) where
  status : Nat
  ok : Bool
  body : B
  deriving DecidableEq, Repr

/-- `isRetriableStatus`. -/
def isRetriableStatus (status : Nat) : Bool := status = 401 || status = 403 || status = 429 || 500 ≤ status

/-- `response.ok`. -/
def isOkStatus (status : Nat) : Bool := 200 ≤ status && status ≤ 299

/-- How an attempt goes: the provider is not reached in time, or it responds; then the body can be cancelled, or not, and can be
read, or not. -/
inductive Attempt (B E : Type) where
  | unreachable (error : E)
  | responded (status : Nat) (cancel : Option E) (json : Except E B)

/-- The answer of an attempt that is accepted. -/
def Attempt.accepted {B E : Type} : Attempt B E → Option (JsonFetchResult B)
  | .responded status _ (.ok body) => if isRetriableStatus status then none else some ⟨status, isOkStatus status, body⟩
  | _ => none

/-- What a promise settles to. -/
inductive Settled (B E : Type) where
  | response (status : Nat)
  | cancelled
  | body (body : B)
  | error (error : E)

/-- Where a call stands: it awaits `fetch`, `cancel` or `json`, or it has ended. -/
inductive Phase (B E : Type) where
  | fetching
  | cancelling
  | reading (status : Nat)
  | returned (result : JsonFetchResult B)
  | threw (error : Thrown E)

namespace Phase

variable {B E : Type}

def ended : Phase B E → Bool
  | .returned _ | .threw _ => true
  | _ => false

def isCancelling : Phase B E → Bool
  | .cancelling => true
  | _ => false

/-- What the awaited promise settles to in an attempt. -/
def promised : Phase B E → Attempt B E → Option (Settled B E)
  | .fetching, .unreachable error => some (.error error)
  | .fetching, .responded status _ _ => some (.response status)
  | .cancelling, .responded _ none _ => some .cancelled
  | .cancelling, .responded _ (some error) _ => some (.error error)
  | .reading _, .responded _ _ (.ok body) => some (.body body)
  | .reading _, .responded _ _ (.error error) => some (.error error)
  | _, _ => none

end Phase

/-- A call: its arguments, its variables, what the promise it awaits has settled to, and the requests it has sent, each with the
index of its provider. -/
structure Call (B E : Type) where
  baseUrls : List JsString
  path : JsString
  hasSignal : Bool
  aborted : Bool
  start : Nat
  attempt : Nat
  lastError : Option (Thrown E)
  phase : Phase B E
  settled : Option (Settled B E)
  sent : List (Nat × JsString)

/-- `baseUrls.join()`. -/
def joined (baseUrls : List JsString) : JsString := [(44 : UInt16)].intercalate baseUrls

/-- The `UpstreamError` of a status. -/
def respondedError {E : Type} (url : JsString) (status : Nat) : Thrown E :=
  .upstream (url ++ js " responded ".toList ++ js (decimal status)) (some status)

/-- What is thrown when no provider is left. -/
def finalError {E : Type} (isError : E → Bool) : Option (Thrown E) → Thrown E
  | some (.upstream message status) => .upstream message status
  | some (.rejected error) =>
    if isError error then .rejected error else .upstream (js "all upstream providers failed".toList) none
  | none => .upstream (js "all upstream providers failed".toList) none

namespace Call

variable {B E : Type} (isError : E → Bool) (c : Call B E)

/-- The index of an attempt. -/
def indexOf (attempt : Nat) : Nat := (c.start + attempt) % c.baseUrls.length

/-- The request of an attempt. -/
def request (attempt : Nat) : Nat × JsString := (c.indexOf attempt, c.baseUrls.getD (c.indexOf attempt) [] ++ c.path)

/-- The head of the loop: the next attempt is sent, or the last error is thrown. -/
def loop (attempt : Nat) : Call B E :=
  if attempt < c.baseUrls.length then
    { c with attempt, phase := .fetching, settled := none, sent := c.sent ++ [c.request attempt] }
  else { c with attempt, phase := .threw (finalError isError c.lastError), settled := none }

/-- The `catch` of an attempt. -/
def caught (error : E) : Call B E :=
  if c.aborted then { c with phase := .threw (.rejected error), settled := none }
  else { c with lastError := some (.rejected error) }.loop isError (c.attempt + 1)

/-- From an `await` to the next one, and the index that is remembered. -/
def resume : Option (Call B E × Option Nat) :=
  match c.phase, c.settled with
  | .fetching, some (.response status) =>
    if isRetriableStatus status then
      some ({ c with
        lastError := some (respondedError (c.baseUrls.getD (c.indexOf c.attempt) []) status)
        phase := .cancelling
        settled := none }, none)
    else some ({ c with phase := .reading status, settled := none }, none)
  | .cancelling, some .cancelled => some (c.loop isError (c.attempt + 1), none)
  | .reading status, some (.body body) =>
    some ({ c with phase := .returned ⟨status, isOkStatus status, body⟩, settled := none }, some (c.indexOf c.attempt))
  | .fetching, some (.error error) => some (c.caught isError error, none)
  | .cancelling, some (.error error) => some (c.caught isError error, none)
  | .reading _, some (.error error) => some (c.caught isError error, none)
  | _, _ => none

end Call

/-- What happens to a call: the promise it awaits settles as its attempt goes, or is rejected as the signal is aborted, the caller
aborts the signal, or the call goes on. -/
inductive Act (E : Type) where
  | settles
  | interrupted (error : E)
  | aborts
  | resumes

/-- A call is made, with a signal that may be aborted already, or something happens to one. -/
inductive Event (E : Type) where
  | starts (baseUrls : List JsString) (path : JsString) (signal : Option Bool)
  | acts (id : Nat) (act : Act E)

/-- One thing that happens to a call, if it can happen. -/
def Call.act {B E : Type} (isError : E → Bool) (answer : Nat → Attempt B E) (c : Call B E) :
    Act E → Option (Call B E × Option Nat)
  | .settles =>
    if c.settled.isNone && (!c.aborted || c.phase.isCancelling) then
      (c.phase.promised (answer c.attempt)).map fun settled => ({ c with settled := some settled }, none)
    else none
  | .interrupted error =>
    if c.aborted && c.settled.isNone && !c.phase.ended then some ({ c with settled := some (.error error) }, none) else none
  | .aborts => if c.hasSignal && !c.phase.ended then some ({ c with aborted := true }, none) else none
  | .resumes => c.resume isError

/-- `lastHealthy`, and the calls in the order they were made. -/
structure Calls (B E : Type) where
  lastHealthy : JsString → Option Nat
  calls : List (Call B E)

namespace Calls

variable {B E : Type}

/-- Before the first call. -/
def initial : Calls B E := ⟨fun _ => none, []⟩

/-- The index a list is asked from first. -/
def remembered (s : Calls B E) (baseUrls : List JsString) : Nat := (s.lastHealthy (joined baseUrls)).getD 0

/-- A call that is made now. -/
def made (isError : E → Bool) (s : Calls B E) (baseUrls : List JsString) (path : JsString) (signal : Option Bool) : Call B E :=
  Call.loop isError
    { baseUrls, path, hasSignal := signal.isSome, aborted := signal.getD false, start := s.remembered baseUrls, attempt := 0,
      lastError := none, phase := .fetching, settled := none, sent := [] } 0

/-- A call goes on, and an index may be remembered. -/
def put (s : Calls B E) (id : Nat) (c : Call B E) (index : Option Nat) : Calls B E where
  lastHealthy :=
    match index with
    | some index => Function.update s.lastHealthy (joined c.baseUrls) (some index)
    | none => s.lastHealthy
  calls := s.calls.set id c

/-- One event, if it can happen. -/
def step (isError : E → Bool) (answers : Nat → Nat → Attempt B E) (s : Calls B E) : Event E → Option (Calls B E)
  | .starts baseUrls path signal => some { s with calls := s.calls ++ [s.made isError baseUrls path signal] }
  | .acts id act => (s.calls[id]?).bind fun c => (c.act isError (answers id) act).map fun r => s.put id r.1 r.2

end Calls

end Failover

end Soroscan
