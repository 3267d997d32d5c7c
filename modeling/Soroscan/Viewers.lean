import Soroscan.Icons
import Soroscan.Lib.Run

/-!
# Viewers

Any number of `Icon` and `Meta` requests at a time over one `Service`. Each goes through `resolved`: it looks its asset up, claims
it, and either waits for the one that holds it or resolves it, stores the outcome and releases the claim. An `Event` is one step of
one request, and the steps of different requests come in any order. What happens upstream during a resolution, and at what time,
is part of the event.

Some things are recorded beside the program's own state: who made each channel and who closed it, the outcomes that were stored
and evicted, the resolutions that were started and what they met, and how many of these a request had seen when it missed.
-/

namespace Soroscan

namespace Icons

/-- How a request ends. -/
inductive Result where
  | served (value : Entry)
  | failed (error : IconError)
  | cancelled
  | panicked
  deriving DecidableEq, Repr

/-- Where a request is in `resolved`. -/
inductive Phase where
  | looking
  | missed (seen : Nat)
  | waiting (done : Nat)
  | leading (done seen : Nat)
  | resolving (done now : Nat)
  | storing (done : Nat) (value : Entry)
  | releasing (done : Nat) (result : Result)
  | finished (result : Result)
  deriving DecidableEq, Repr

/-- The channel of a request that is between its successful claim and its release. -/
def Phase.leads : Phase → Option Nat
  | .leading done _ => some done
  | .resolving done _ => some done
  | .storing done _ => some done
  | .releasing done _ => some done
  | _ => none

/-- How a request ends, once that is settled. -/
def Phase.result : Phase → Option Result
  | .releasing _ result => some result
  | .finished result => some result
  | _ => none

/-- A request for an asset. -/
structure Viewer where
  code : Bytes
  issuer : Bytes
  phase : Phase
  deriving DecidableEq, Repr

/-- The key of the asset a request is for. -/
def Viewer.key (v : Viewer) : Bytes := assetKey v.code v.issuer

/-- What is recorded of the resolutions and their outcomes. -/
inductive Note where
  | started (key : Bytes) (now : Nat)
  | resolved (pid : Nat) (up : Upstream)
  | stored (pid : Nat) (key : Bytes) (value : Entry)
  | evicted (key : Bytes)
  deriving DecidableEq, Repr

/-- The service and its requests. `makers` gives the request that made each channel, `closed` the channels that were closed with
the requests that closed them, and `history` the notes, newest first. -/
structure Viewers where
  service : Service
  requests : Nat → Option Viewer
  makers : List Nat
  closed : List (Nat × Nat)
  clock : Nat
  history : List Note

namespace Viewers

/-- A service before its first request. -/
def start : Viewers := ⟨Service.new, fun _ => none, [], [], 0, []⟩

/-- A request is in a phase. -/
def put (w : Viewers) (pid : Nat) (v : Viewer) (phase : Phase) : Viewers :=
  { w with requests := Function.update w.requests pid (some { v with phase }) }

/-- The key and the channel of a request that is between its successful claim and its release. -/
def leader (w : Viewers) (pid : Nat) : Option (Bytes × Nat) :=
  (w.requests pid).bind fun v => v.phase.leads.map fun done => (v.key, done)

/-- The channel a request waits on. -/
def awaits (w : Viewers) (pid : Nat) : Option Nat :=
  (w.requests pid).bind fun v =>
    match v.phase with
    | .waiting done => some done
    | _ => none

/-- A channel is closed. -/
def isClosed (w : Viewers) (done : Nat) : Bool := w.closed.any fun c => c.1 = done

end Viewers

/-- The steps of a request that has arrived. -/
inductive Act where
  | looks (now : Nat)
  | claims
  | wakes
  | cancels
  | starts (now : Nat)
  | resolves (up : Upstream)
  | panics
  | stores
  | releases
  deriving DecidableEq, Repr

/-- A request arrives, or goes one step. -/
inductive Event where
  | arrives (pid : Nat) (code issuer : Bytes)
  | acts (pid : Nat) (act : Act)
  deriving DecidableEq, Repr

/-- One step of a request, if it is where it takes this step. -/
def advance (lower : Char → Char) (w : Viewers) (pid : Nat) (v : Viewer) (act : Act) : Option Viewers :=
  match v.phase, act with
  | .looking, .looks now =>
    if w.clock ≤ now then
      match w.service.lookup v.key now with
      | some value => some { w.put pid v (.finished (.served value)) with clock := now }
      | none => some { w.put pid v (.missed w.history.length) with clock := now }
    else none
  | .missed seen, .claims =>
    match w.service.claim v.key w.makers.length with
    | (service, done, true) =>
      some { w.put pid v (.leading done seen) with service, makers := w.makers ++ [pid] }
    | (_, done, false) => some (w.put pid v (.waiting done))
  | .waiting done, .wakes => if w.isClosed done then some (w.put pid v .looking) else none
  | .waiting _, .cancels => some (w.put pid v (.finished .cancelled))
  | .leading done _, .starts now =>
    if w.clock ≤ now then
      some { w.put pid v (.resolving done now) with clock := now, history := .started v.key now :: w.history }
    else none
  | .resolving done now, .resolves up =>
    match resolve lower up v.code v.issuer now with
    | .ok value => some { w.put pid v (.storing done value) with history := .resolved pid up :: w.history }
    | .error error => some { w.put pid v (.releasing done (.failed error)) with history := .resolved pid up :: w.history }
  | .resolving done _, .panics => some (w.put pid v (.releasing done .panicked))
  | .storing done value, .stores =>
    let (service, evicted) := w.service.store v.key value
    some { w.put pid v (.releasing done (.served value)) with
      service, history := evicted.map .evicted ++ .stored pid v.key value :: w.history }
  | .releasing _ result, .releases =>
    let (service, done) := w.service.release v.key
    some { w.put pid v (.finished result) with service, closed := (done.map (·, pid)).toList ++ w.closed }
  | _, _ => none

/-- One event, if it can happen. -/
def step (lower : Char → Char) (w : Viewers) : Event → Option Viewers
  | .arrives pid code issuer =>
    if w.requests pid = none then some (w.put pid ⟨code, issuer, .looking⟩ .looking) else none
  | .acts pid act => (w.requests pid).bind fun v => advance lower w pid v act

end Icons

end Soroscan
