import Soroscan.Live

/-!
# Horizon and its reader

The live list over a Horizon that keeps closing records. The records are numbered in the order they close. A page holds the newest
ones at the instant it is answered; a stream from now on delivers the ones that close after it is accepted, and a stream after
a token those after the token. Requests, answers and deliveries are separate events, in any order.
-/

namespace Soroscan

/-- A request for a page: asked, answered when there were so many records, or arrived. -/
inductive PageRequest where
  | asked
  | answered (count : Nat)
  | arrived (count : Nat)
  deriving DecidableEq, Repr

/-- The stream of the reader: none, one that is not accepted yet, or one that has delivered everything up to a record. -/
inductive StreamLink where
  | closed
  | waiting (cursor : StreamCursor Nat)
  | accepted (position : Nat)
  deriving DecidableEq, Repr

/-- Horizon, with so many records closed, and one reader. The page requests stay in the order they were asked. -/
structure Horizon where
  hook : Hook Nat Nat
  closed : Nat
  pages : List PageRequest
  stream : StreamLink
  visible : Bool
  clock : Nat

/-- The options of a list of at most so many records, which are their own tokens. -/
def recordOptions (cap : Nat) : StreamOptions Nat Nat := ⟨cap, id⟩

/-- A page: the newest records, newest first. -/
def pageAt (cap count : Nat) : List Nat := (List.range' 1 count).reverse.take cap

namespace Horizon

/-- A request of the hook. A stream takes the place of the one before. -/
def ask (w : Horizon) : Request Nat → Horizon
  | .fetchInitial => { w with pages := w.pages ++ [.asked] }
  | .openStream cursor => { w with stream := .waiting cursor }
  | .closeStream => { w with stream := .closed }

/-- The hook after an input, with what it asks for. -/
def takes (cap : Nat) (w : Horizon) (input : Input Nat Nat) : Horizon :=
  (w.hook.step (recordOptions cap) input).2.foldl ask { w with hook := (w.hook.step (recordOptions cap) input).1 }

/-- The reader when it is mounted. -/
def mount (closed clock : Nat) : Horizon :=
  (Hook.mount (R := Nat)).2.foldl ask ⟨Hook.mount.1, closed, [], .closed, true, clock⟩

/-- What happens: a record closes, the stream is accepted or delivers a record, a page request is answered or its page arrives,
the flush timer fires, or the tab is hidden or shown. -/
inductive Event where
  | closes
  | accepts
  | delivers (now : Nat)
  | answers (request : Nat)
  | arrives (request : Nat)
  | flushes
  | hides
  | shows (now : Nat)

/-- One event, if it can happen. -/
def step (cap : Nat) (w : Horizon) : Event → Option Horizon
  | .closes => some { w with closed := w.closed + 1 }
  | .accepts =>
    match w.stream with
    | .waiting .now => some (takes cap { w with stream := .accepted w.closed } .opened)
    | .waiting (.token position) => some (takes cap { w with stream := .accepted position } .opened)
    | _ => none
  | .delivers now =>
    match w.stream with
    | .accepted position =>
      if position < w.closed ∧ w.clock ≤ now then
        some (takes cap { w with stream := .accepted (position + 1), clock := now }
          (.message (some (position + 1)) (some (position + 1)) now))
      else none
    | _ => none
  | .answers request =>
    if w.pages[request]? = some .asked then some { w with pages := w.pages.set request (.answered w.closed) } else none
  | .arrives request =>
    match w.pages[request]? with
    | some (.answered count) =>
      some (takes cap { w with pages := w.pages.set request (.arrived count) } (.page (pageAt cap count)))
    | _ => none
  | .flushes => some (takes cap w .flush)
  | .hides => if w.visible then some (takes cap { w with visible := false } .hidden) else none
  | .shows now =>
    if ¬w.visible ∧ w.clock ≤ now then some (takes cap { w with visible := true, clock := now } (.shown now)) else none

/-- Every page that was asked for has arrived, and the buffer is flushed. -/
def Settled (w : Horizon) : Prop := (∀ request ∈ w.pages, ∃ count, request = .arrived count) ∧ w.hook.buffer = []

/-- Every record between the oldest and the newest shown one is shown. -/
def NoGap (w : Horizon) : Prop :=
  ∀ oldest ∈ w.hook.records, ∀ newest ∈ w.hook.records, ∀ record, oldest ≤ record → record ≤ newest → record ∈ w.hook.records

end Horizon

end Soroscan
