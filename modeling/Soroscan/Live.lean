import Soroscan.Lib.Run
import Mathlib.Tactic

/-!
# The live list

`live.ts`: the list of the latest records. It is seeded from a page that Horizon answers, and then follows a stream; messages of
the stream are buffered and merged into the list a few times a second. The stream is closed while the tab is hidden. When it
fails too often, pages are asked for in its place.

A `Hook` is the state of `useHorizonStream`, an `Input` one thing that happens to it, and `Hook.step` what it does then and what
it asks for.
-/

namespace Soroscan

inductive StreamStatus where
  | connecting | live | paused
  deriving DecidableEq, Repr

/-- `StreamOptions`: how long the list gets, and the key of a record. -/
structure StreamOptions (R K : Type) where
  cap : Nat
  keyOf : R → K

/-- Where a stream starts: now, or after a record. -/
inductive StreamCursor (K : Type) where
  | now
  | token (key : K)
  deriving DecidableEq, Repr

/-- What the hook asks for: a page, a stream in place of the one before, or no stream. -/
inductive Request (K : Type) where
  | fetchInitial
  | openStream (cursor : StreamCursor K)
  | closeStream
  deriving DecidableEq, Repr

section Merge

variable {R K : Type} [DecidableEq K] (o : StreamOptions R K)

/-- `seen` of `mergeRecords`. -/
def StreamOptions.seen (records : List R) (record : R) : Bool := records.any fun r => decide (o.keyOf r = o.keyOf record)

/-- `deduped` of `mergeRecords`: the first record of each key. -/
def StreamOptions.deduped (incoming : List R) : List R :=
  incoming.foldl (fun deduped record => if o.seen deduped record then deduped else deduped ++ [record]) []

/-- `mergeRecords`: the incoming records, and then those of the list that they do not repeat, up to the cap. -/
def StreamOptions.mergeRecords (existing incoming : List R) : List R :=
  if incoming.isEmpty then existing
  else (o.deduped incoming ++ existing.filter fun record => !o.seen (o.deduped incoming) record).take o.cap

end Merge

/-- `STALE_GAP_MS`. -/
def staleGapMs : Nat := 60000

/-- `MAX_STREAM_ERRORS`. -/
def maxStreamErrors : Nat := 4

/-- The state of `useHorizonStream`. `polling` says whether the poll timer was set. -/
structure Hook (R K : Type) where
  records : List R
  status : StreamStatus
  buffer : List R
  lastToken : StreamCursor K
  lastEventAt : Nat
  errors : Nat
  polling : Bool

/-- What happens to the hook: its timers fire, a page arrives or fails, the stream reports, the tab is hidden or shown. A message
has an id, or none, and a record, unless its data is none. -/
inductive Input (R K : Type) where
  | flush
  | poll
  | page (list : List R)
  | pageFailed
  | opened
  | message (id : Option K) (record : Option R) (now : Nat)
  | failed
  | hidden
  | shown (now : Nat)

namespace Hook

variable {R K : Type}

/-- The hook when it is mounted, and what it asks for first. -/
def mount : Hook R K × List (Request K) :=
  ({ records := [], status := .connecting, buffer := [], lastToken := .now, lastEventAt := 0, errors := 0, polling := false },
    [.fetchInitial, .openStream .now])

/-- `onmessage`. -/
def onMessage (h : Hook R K) (id : Option K) (record : Option R) (now : Nat) : Hook R K :=
  { h with
    lastEventAt := now, lastToken := (id.map StreamCursor.token).getD h.lastToken, buffer := h.buffer ++ record.toList }

/-- `onerror`. -/
def onError (h : Hook R K) : Hook R K × List (Request K) :=
  if maxStreamErrors ≤ h.errors + 1 then
    ({ h with errors := h.errors + 1, status := .paused, polling := true }, [.closeStream])
  else ({ h with errors := h.errors + 1 }, [])

/-- `onVisibility` when the tab is shown: after a long gap the list is seeded again. -/
def onVisible (h : Hook R K) (now : Nat) : List (Request K) :=
  if h.polling then []
  else if staleGapMs < now - h.lastEventAt then [.fetchInitial, .openStream .now]
  else [.openStream h.lastToken]

variable [DecidableEq K] (o : StreamOptions R K)

/-- `setRecords` with a merge. -/
def merge (h : Hook R K) (incoming : List R) : Hook R K := { h with records := o.mergeRecords h.records incoming }

/-- The records that an input brings to the list. -/
def incoming (h : Hook R K) : Input R K → List R
  | .flush => h.buffer.reverse
  | .page list => list
  | _ => []

/-- One input. -/
def step (h : Hook R K) : Input R K → Hook R K × List (Request K)
  | .flush => (if h.buffer.isEmpty then h else { h.merge o h.buffer.reverse with buffer := [] }, [])
  | .poll => (h, [.fetchInitial])
  | .page list => (h.merge o list, [])
  | .pageFailed => (h, [])
  | .opened => ({ h with errors := 0, status := .live }, [])
  | .message id record now => (h.onMessage id record now, [])
  | .failed => h.onError
  | .hidden => (h, [.closeStream])
  | .shown now => (h, h.onVisible now)

end Hook

end Soroscan
