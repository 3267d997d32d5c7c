import Soroscan.Failover

/-!
# One call with failover

What can happen to a call, case by case, and what every case keeps: the attempts before the one it is at have failed, what it sent
are the requests of its attempts in order, and where it stands says how the attempt it is at has gone so far.
-/

namespace Soroscan

namespace Failover

variable {B E : Type} {isError : E → Bool} {answer : Nat → Attempt B E} {c c' : Call B E} {a : Act E} {index : Option Nat}

namespace Call

/-- The cases of `act`. -/
inductive Moves (isError : E → Bool) (answer : Nat → Attempt B E) (c : Call B E) : Act E → Call B E → Option Nat → Prop
  | settles {x : Settled B E} (hpending : c.settled = none) (hsignal : c.aborted = false ∨ c.phase = .cancelling)
      (hx : c.phase.promised (answer c.attempt) = some x) : Moves isError answer c .settles { c with settled := some x } none
  | interrupted {error : E} (haborted : c.aborted = true) (hlive : c.phase.ended = false) :
      Moves isError answer c (.interrupted error) { c with settled := some (.error error) } none
  | aborts (hlive : c.phase.ended = false) : Moves isError answer c .aborts { c with aborted := true } none
  | retries {status : Nat} {lastError : Option (Thrown E)} (hphase : c.phase = .fetching)
      (hsettled : c.settled = some (.response status)) (hretriable : isRetriableStatus status = true) :
      Moves isError answer c .resumes { c with lastError, phase := .cancelling, settled := none } none
  | reads {status : Nat} (hphase : c.phase = .fetching) (hsettled : c.settled = some (.response status))
      (hretriable : isRetriableStatus status = false) :
      Moves isError answer c .resumes { c with phase := .reading status, settled := none } none
  | rotates (hphase : c.phase = .cancelling) (hsettled : c.settled = some .cancelled) :
      Moves isError answer c .resumes (c.loop isError (c.attempt + 1)) none
  | returns {status : Nat} {body : B} (hphase : c.phase = .reading status) (hsettled : c.settled = some (.body body)) :
      Moves isError answer c .resumes { c with phase := .returned ⟨status, isOkStatus status, body⟩, settled := none }
        (some (c.indexOf c.attempt))
  | catches {error : E} (hlive : c.phase.ended = false) (hsettled : c.settled = some (.error error)) :
      Moves isError answer c .resumes (c.caught isError error) none

/-- What a call does when it goes on is one of the cases. -/
theorem moves_of_resume (h : c.resume isError = some (c', index)) : Moves isError answer c .resumes c' index := by
  unfold resume at h
  split at h
  · rename_i hphase hsettled
    split at h
    · rename_i hretriable
      cases h
      exact .retries hphase hsettled hretriable
    · rename_i hretriable
      cases h
      exact .reads hphase hsettled (Bool.eq_false_iff.mpr hretriable)
  · rename_i hphase hsettled
    cases h
    exact .rotates hphase hsettled
  · rename_i hphase hsettled
    cases h
    exact .returns hphase hsettled
  · rename_i hphase hsettled
    cases h
    exact .catches (by rw [hphase]; rfl) hsettled
  · rename_i hphase hsettled
    cases h
    exact .catches (by rw [hphase]; rfl) hsettled
  · rename_i hphase hsettled
    cases h
    exact .catches (by rw [hphase]; rfl) hsettled
  · cases h

theorem eq_cancelling_of_isCancelling {phase : Phase B E} (h : phase.isCancelling = true) : phase = .cancelling := by
  cases phase <;> first | rfl | cases h

/-- What a call does is one of the cases. -/
theorem moves_of_act (h : c.act isError answer a = some (c', index)) : Moves isError answer c a c' index := by
  cases a with
  | settles =>
    rw [act] at h
    split at h
    · rename_i hguard
      rw [Bool.and_eq_true, Option.isNone_iff_eq_none, Bool.or_eq_true, Bool.not_eq_true'] at hguard
      obtain ⟨x, hx, h⟩ := Option.map_eq_some_iff.mp h
      cases h
      exact .settles hguard.1 (hguard.2.imp_right eq_cancelling_of_isCancelling) hx
    · cases h
  | interrupted error =>
    rw [act] at h
    split at h
    · rename_i hguard
      rw [Bool.and_eq_true, Bool.and_eq_true, Bool.not_eq_true'] at hguard
      cases h
      exact .interrupted hguard.1.1 hguard.2
    · cases h
  | aborts =>
    rw [act] at h
    split at h
    · rename_i hguard
      rw [Bool.and_eq_true, Bool.not_eq_true'] at hguard
      cases h
      exact .aborts hguard.2
    · cases h
  | resumes => exact moves_of_resume h

/-! ## What a call keeps -/

end Call

/-- A list of URLs that a join keeps apart. -/
def IsUrlList (baseUrls : List JsString) : Prop := baseUrls ≠ [] ∧ ∀ url ∈ baseUrls, (44 : UInt16) ∉ url

/-- The attempts before this one gave no answer that is accepted. -/
def FailedBefore (answer : Nat → Attempt B E) (attempt : Nat) : Prop := ∀ k < attempt, (answer k).accepted = none

namespace Call

/-- How the attempt of a call has gone so far. -/
def Stands (answer : Nat → Attempt B E) (c : Call B E) : Prop :=
  match c.phase with
  | .fetching => c.attempt < c.baseUrls.length
  | .cancelling =>
    c.attempt < c.baseUrls.length ∧
      ∃ status cancel json, answer c.attempt = .responded status cancel json ∧ isRetriableStatus status = true
  | .reading status =>
    c.attempt < c.baseUrls.length ∧ isRetriableStatus status = false ∧
      ∃ cancel json, answer c.attempt = .responded status cancel json
  | .returned result => c.attempt < c.baseUrls.length ∧ (answer c.attempt).accepted = some result
  | .threw _ => c.aborted = true ∨ c.attempt = c.baseUrls.length

/-- What holds of a call between its steps. -/
structure Ok (answer : Nat → Attempt B E) (c : Call B E) : Prop where
  urls : IsUrlList c.baseUrls
  failed : FailedBefore answer c.attempt
  stands : Stands answer c
  /-- What the awaited promise settled to is what the attempt says, or the signal was aborted before. -/
  asAnswered : ∀ x, c.settled = some x →
    c.phase.promised (answer c.attempt) = some x ∨ (c.aborted = true ∧ ∃ error, x = .error error)
  sent : c.sent = (List.range (min (c.attempt + 1) c.baseUrls.length)).map c.request

/-- A call that awaits its next promise. -/
theorem Ok.of_pending (hurls : IsUrlList c.baseUrls) (hfailed : FailedBefore answer c.attempt) (hstands : Stands answer c)
    (hsent : c.sent = (List.range (min (c.attempt + 1) c.baseUrls.length)).map c.request) (hpending : c.settled = none) :
    c.Ok answer := by
  refine ⟨hurls, hfailed, hstands, fun x hx => ?_, hsent⟩
  rw [hpending] at hx
  cases hx

/-- What is no error is what the attempt says. -/
theorem Ok.promised (h : c.Ok answer) {x : Settled B E} (hsettled : c.settled = some x) (hx : ∀ error, x ≠ .error error) :
    c.phase.promised (answer c.attempt) = some x :=
  (h.asAnswered x hsettled).resolve_right fun ⟨_, error, herror⟩ => hx error herror

/-- A call that has not ended awaits one of three promises. -/
theorem live_cases {phase : Phase B E} (h : phase.ended = false) :
    phase = .fetching ∨ phase = .cancelling ∨ ∃ status, phase = .reading status := by
  cases phase with
  | fetching => exact Or.inl rfl
  | cancelling => exact Or.inr (Or.inl rfl)
  | reading status => exact Or.inr (Or.inr ⟨status, rfl⟩)
  | returned result => cases h
  | threw error => cases h

/-- A call that fetches has a url. -/
theorem Stands.fetching (h : Stands answer c) (hphase : c.phase = .fetching) : c.attempt < c.baseUrls.length := by
  unfold Stands at h
  rwa [hphase] at h

/-- A call that cancels a body has a url that answered with a status to try again. -/
theorem Stands.cancelling (h : Stands answer c) (hphase : c.phase = .cancelling) :
    c.attempt < c.baseUrls.length ∧
      ∃ status cancel json, answer c.attempt = .responded status cancel json ∧ isRetriableStatus status = true := by
  unfold Stands at h
  rwa [hphase] at h

/-- A call that reads a body has a url that answered with another status. -/
theorem Stands.reading (h : Stands answer c) {status : Nat} (hphase : c.phase = .reading status) :
    c.attempt < c.baseUrls.length ∧ isRetriableStatus status = false ∧
      ∃ cancel json, answer c.attempt = .responded status cancel json := by
  unfold Stands at h
  rwa [hphase] at h

/-- A call that returned has the answer of its url. -/
theorem Stands.returned (h : Stands answer c) {result : JsonFetchResult B} (hphase : c.phase = .returned result) :
    c.attempt < c.baseUrls.length ∧ (answer c.attempt).accepted = some result := by
  unfold Stands at h
  rwa [hphase] at h

/-- A call that threw was aborted, or has no url left. -/
theorem Stands.threw (h : Stands answer c) {error : Thrown E} (hphase : c.phase = .threw error) :
    c.aborted = true ∨ c.attempt = c.baseUrls.length := by
  unfold Stands at h
  rwa [hphase] at h

/-- A call that has not ended is at an attempt. -/
theorem Stands.lt (h : Stands answer c) (hlive : c.phase.ended = false) : c.attempt < c.baseUrls.length := by
  rcases live_cases hlive with hphase | hphase | ⟨status, hphase⟩
  · exact h.fetching hphase
  · exact (h.cancelling hphase).1
  · exact (h.reading hphase).1

/-- A status that is asked again is not accepted. -/
theorem accepted_of_isRetriable {status : Nat} (h : isRetriableStatus status = true) (cancel : Option E) (json : Except E B) :
    (Attempt.responded status cancel json).accepted = none := by
  cases json with
  | error error => rfl
  | ok body => exact if_pos h

/-- A response comes from a url that answered. -/
theorem promised_fetching_response {o : Attempt B E} {status : Nat}
    (h : Phase.promised .fetching o = some (.response status)) : ∃ cancel json, o = .responded status cancel json := by
  cases o with
  | unreachable error => cases h
  | responded status' cancel json =>
    cases h
    exact ⟨cancel, json, rfl⟩

/-- A body comes from a url that answered with it. -/
theorem promised_reading_body {o : Attempt B E} {status : Nat} {body : B}
    (h : Phase.promised (.reading status) o = some (.body body)) : ∃ status' cancel, o = .responded status' cancel (.ok body) := by
  cases o with
  | unreachable error => cases h
  | responded status' cancel json =>
    cases json with
    | error error => cases h
    | ok body' =>
      cases h
      exact ⟨status', cancel, rfl⟩

/-- An attempt whose promise was rejected is not accepted. -/
theorem accepted_of_promised_error (h : Stands answer c) (hlive : c.phase.ended = false) {error : E}
    (hx : c.phase.promised (answer c.attempt) = some (.error error)) : (answer c.attempt).accepted = none := by
  rcases live_cases hlive with hphase | hphase | ⟨status, hphase⟩
  · rw [hphase] at hx
    cases ho : answer c.attempt with
    | unreachable error' => rfl
    | responded status cancel json =>
      rw [ho] at hx
      cases hx
  · obtain ⟨-, status, cancel, json, ho, hretriable⟩ := h.cancelling hphase
    rw [ho]
    exact accepted_of_isRetriable hretriable cancel json
  · obtain ⟨-, -, cancel, json, ho⟩ := h.reading hphase
    rw [hphase, ho] at hx
    rw [ho]
    cases json with
    | error error' => rfl
    | ok body => cases hx

/-- The head of the loop, after attempts that have all been sent and have failed. -/
theorem Ok.loop {attempt : Nat} (hurls : IsUrlList c.baseUrls) (hfailed : FailedBefore answer attempt)
    (hle : attempt ≤ c.baseUrls.length) (hsent : c.sent = (List.range attempt).map c.request) :
    (c.loop isError attempt).Ok answer := by
  unfold Call.loop
  split
  · rename_i hlt
    refine Ok.of_pending hurls hfailed hlt ?_ rfl
    show c.sent ++ [c.request attempt] = (List.range (min (attempt + 1) c.baseUrls.length)).map c.request
    rw [hsent, Nat.min_eq_left hlt, List.range_succ, List.map_append, List.map_singleton]
  · rename_i hnot
    have heq : attempt = c.baseUrls.length := by omega
    refine Ok.of_pending hurls hfailed (Or.inr heq) ?_ rfl
    show c.sent = (List.range (min (attempt + 1) c.baseUrls.length)).map c.request
    rw [hsent, Nat.min_eq_right (by omega), heq]

/-- A call that has not ended goes on to the next attempt, once this one has failed. -/
theorem Ok.next (h : c.Ok answer) (hlive : c.phase.ended = false) (hnone : (answer c.attempt).accepted = none)
    (lastError : Option (Thrown E)) : ({ c with lastError }.loop isError (c.attempt + 1)).Ok answer := by
  have hlt := h.stands.lt hlive
  have hsent := h.sent
  rw [Nat.min_eq_left hlt] at hsent
  refine Ok.loop h.urls (fun k hk => ?_) hlt hsent
  rcases Nat.lt_succ_iff_lt_or_eq.mp hk with hk | rfl
  · exact h.failed k hk
  · exact hnone

/-- Every case keeps the invariant. -/
theorem Ok.moves (h : c.Ok answer) (hmoves : Moves isError answer c a c' index) : c'.Ok answer := by
  cases hmoves with
  | settles hpending hsignal hx =>
    refine ⟨h.urls, h.failed, h.stands, fun y hy => ?_, h.sent⟩
    cases hy
    exact Or.inl hx
  | interrupted haborted hlive =>
    refine ⟨h.urls, h.failed, h.stands, fun y hy => ?_, h.sent⟩
    cases hy
    exact Or.inr ⟨haborted, _, rfl⟩
  | aborts hlive =>
    refine ⟨h.urls, h.failed, ?_, fun y hy => (h.asAnswered y hy).imp_right fun herror => ⟨rfl, herror.2⟩, h.sent⟩
    have hstands := h.stands
    unfold Stands at hstands ⊢
    cases hphase : c.phase with
    | threw error => exact Or.inl rfl
    | _ => simpa only [hphase] using hstands
  | @retries status lastError hphase hsettled hretriable =>
    have hpromised := h.promised hsettled nofun
    rw [hphase] at hpromised
    obtain ⟨cancel, json, ho⟩ := promised_fetching_response hpromised
    exact .of_pending h.urls h.failed ⟨h.stands.lt (by rw [hphase]; rfl), status, cancel, json, ho, hretriable⟩ h.sent rfl
  | @reads status hphase hsettled hretriable =>
    have hpromised := h.promised hsettled nofun
    rw [hphase] at hpromised
    exact .of_pending h.urls h.failed ⟨h.stands.lt (by rw [hphase]; rfl), hretriable, promised_fetching_response hpromised⟩
      h.sent rfl
  | rotates hphase hsettled =>
    obtain ⟨-, status, cancel, json, ho, hretriable⟩ := h.stands.cancelling hphase
    have hnone : (answer c.attempt).accepted = none := by rw [ho, accepted_of_isRetriable hretriable]
    exact h.next (by rw [hphase]; rfl) hnone c.lastError
  | @returns status body hphase hsettled =>
    have hpromised := h.promised hsettled nofun
    rw [hphase] at hpromised
    obtain ⟨status', cancel, ho⟩ := promised_reading_body hpromised
    obtain ⟨hlt, hretriable, cancel', json, ho'⟩ := h.stands.reading hphase
    rw [ho] at ho'
    cases ho'
    have haccepted : (answer c.attempt).accepted = some ⟨status, isOkStatus status, body⟩ := by
      rw [ho, Attempt.accepted, if_neg (Bool.eq_false_iff.mp hretriable)]
    exact .of_pending h.urls h.failed ⟨hlt, haccepted⟩ h.sent rfl
  | @catches error hlive hsettled =>
    unfold Call.caught
    split
    · rename_i haborted
      exact .of_pending h.urls h.failed (Or.inl haborted) h.sent rfl
    · rename_i haborted
      have hpromised := (h.asAnswered _ hsettled).resolve_right fun herror => haborted herror.1
      exact h.next hlive (accepted_of_promised_error h.stands hlive hpromised) _

/-- A call that has ended stays as it is. -/
theorem Moves.live (h : Moves isError answer c a c' index) : c.phase.ended = false := by
  cases h with
  | settles hpending hsignal hx =>
    cases hphase : c.phase with
    | returned result =>
      rw [hphase] at hx
      cases hx
    | threw error =>
      rw [hphase] at hx
      cases hx
    | _ => rfl
  | interrupted haborted hlive => exact hlive
  | aborts hlive => exact hlive
  | retries hphase hsettled hretriable =>
    rw [hphase]
    rfl
  | reads hphase hsettled hretriable =>
    rw [hphase]
    rfl
  | rotates hphase hsettled =>
    rw [hphase]
    rfl
  | returns hphase hsettled =>
    rw [hphase]
    rfl
  | catches hlive hsettled => exact hlive

@[simp] theorem loop_baseUrls (attempt : Nat) : (c.loop isError attempt).baseUrls = c.baseUrls := by
  unfold loop
  split <;> rfl

@[simp] theorem loop_path (attempt : Nat) : (c.loop isError attempt).path = c.path := by
  unfold loop
  split <;> rfl

@[simp] theorem loop_start (attempt : Nat) : (c.loop isError attempt).start = c.start := by
  unfold loop
  split <;> rfl

@[simp] theorem loop_aborted (attempt : Nat) : (c.loop isError attempt).aborted = c.aborted := by
  unfold loop
  split <;> rfl

@[simp] theorem loop_settled (attempt : Nat) : (c.loop isError attempt).settled = none := by
  unfold loop
  split <;> rfl

/-- The head of the loop ends in a request or in a throw. -/
theorem loop_phase (attempt : Nat) :
    (attempt < c.baseUrls.length ∧ (c.loop isError attempt).phase = .fetching) ∨
      ∃ error, (c.loop isError attempt).phase = .threw error := by
  unfold loop
  split
  · rename_i hlt
    exact Or.inl ⟨hlt, rfl⟩
  · exact Or.inr ⟨_, rfl⟩

/-- The arguments of a call and where it started stay as they are. -/
theorem Moves.same (h : Moves isError answer c a c' index) : c'.baseUrls = c.baseUrls ∧ c'.path = c.path ∧ c'.start = c.start := by
  cases h with
  | rotates hphase hsettled => exact ⟨loop_baseUrls _, loop_path _, loop_start _⟩
  | catches hlive hsettled =>
    unfold Call.caught
    split
    · exact ⟨rfl, rfl, rfl⟩
    · exact ⟨loop_baseUrls _, loop_path _, loop_start _⟩
  | _ => exact ⟨rfl, rfl, rfl⟩

/-- A call has returned an answer. -/
def Returned (c : Call B E) : Prop := ∃ result, c.phase = .returned result

theorem not_returned_of_phase {phase : Phase B E} (h : c.phase = phase) (hphase : ∀ result, phase ≠ .returned result) :
    ¬c.Returned := by
  rintro ⟨result, hresult⟩
  exact hphase result (h.symm.trans hresult)

theorem not_returned_of_live (h : c.phase.ended = false) : ¬c.Returned := by
  rintro ⟨result, hresult⟩
  rw [hresult] at h
  cases h

/-- The loop itself returns nothing. -/
theorem not_returned_loop (attempt : Nat) : ¬(c.loop isError attempt).Returned := by
  have hphase : _ ∨ ∃ error, (c.loop isError attempt).phase = .threw error := loop_phase attempt
  rcases hphase with ⟨-, hphase⟩ | ⟨error, hphase⟩
  · exact not_returned_of_phase hphase nofun
  · exact not_returned_of_phase hphase nofun

/-- Nor does what is caught. -/
theorem not_returned_caught (error : E) : ¬(c.caught isError error).Returned := by
  unfold caught
  split
  · exact not_returned_of_phase rfl nofun
  · exact not_returned_loop _

/-- A call returns in the step in which an index is remembered, the one of its last attempt. -/
theorem Moves.remembers (h : Moves isError answer c a c' index) :
    (index = none ∧ ¬c'.Returned) ∨ (index = some (c'.indexOf c'.attempt) ∧ c'.Returned) := by
  have hlive := not_returned_of_live h.live
  cases h with
  | settles hpending hsignal hx => exact Or.inl ⟨rfl, hlive⟩
  | interrupted haborted _ => exact Or.inl ⟨rfl, hlive⟩
  | aborts _ => exact Or.inl ⟨rfl, hlive⟩
  | retries hphase hsettled hretriable => exact Or.inl ⟨rfl, not_returned_of_phase rfl nofun⟩
  | reads hphase hsettled hretriable => exact Or.inl ⟨rfl, not_returned_of_phase rfl nofun⟩
  | rotates hphase hsettled => exact Or.inl ⟨rfl, not_returned_loop _⟩
  | returns hphase hsettled => exact Or.inr ⟨rfl, _, rfl⟩
  | catches _ hsettled => exact Or.inl ⟨rfl, not_returned_caught _⟩

/-! ## Aborted calls -/

/-- The body of an answer has been parsed, and the call has not gone on yet. -/
def Answered (c : Call B E) : Prop := ∃ status body, c.phase = .reading status ∧ c.settled = some (.body body)

/-- The signal is aborted, and no answer has been parsed before. -/
def Doomed (c : Call B E) : Prop := c.aborted = true ∧ ¬c.Returned ∧ ¬c.Answered

theorem not_answered_of_pending (h : c.settled = none) : ¬c.Answered := by
  rintro ⟨status, body, -, hsettled⟩
  rw [h] at hsettled
  cases hsettled

theorem doomed_loop (haborted : c.aborted = true) (attempt : Nat) : (c.loop isError attempt).Doomed :=
  ⟨(loop_aborted attempt).trans haborted, not_returned_loop attempt, not_answered_of_pending (loop_settled attempt)⟩

/-- A call that was aborted in time returns nothing. -/
theorem Doomed.moves (h : c.Doomed) (hmoves : Moves isError answer c a c' index) : c'.Doomed := by
  obtain ⟨haborted, hreturned, hanswered⟩ := h
  cases hmoves with
  | @settles x hpending hsignal hx =>
    have hphase : c.phase = .cancelling := hsignal.resolve_left (by rw [haborted]; exact Bool.noConfusion)
    refine ⟨haborted, hreturned, ?_⟩
    rintro ⟨status, body, hreading, -⟩
    cases hphase.symm.trans hreading
  | interrupted _ hlive =>
    refine ⟨haborted, hreturned, ?_⟩
    rintro ⟨status, body, -, hsettled⟩
    cases hsettled
  | aborts hlive => exact ⟨rfl, hreturned, hanswered⟩
  | retries hphase hsettled hretriable => exact ⟨haborted, not_returned_of_phase rfl nofun, not_answered_of_pending rfl⟩
  | reads hphase hsettled hretriable => exact ⟨haborted, not_returned_of_phase rfl nofun, not_answered_of_pending rfl⟩
  | rotates hphase hsettled => exact doomed_loop haborted _
  | @returns status body hphase hsettled => exact absurd ⟨status, body, hphase, hsettled⟩ hanswered
  | catches hlive hsettled =>
    unfold Call.caught
    rw [if_pos haborted]
    exact ⟨haborted, not_returned_of_phase rfl nofun, not_answered_of_pending rfl⟩

/-! ## How often a call goes on -/

/-- How often a call can still go on. -/
def rank (c : Call B E) : Nat :=
  match c.phase with
  | .fetching => 2 * (c.baseUrls.length - c.attempt)
  | .cancelling => 2 * (c.baseUrls.length - c.attempt) - 1
  | .reading _ => 2 * (c.baseUrls.length - c.attempt) - 1
  | _ => 0

/-- A call that fetches has two steps for each url that is left. -/
theorem rank_fetching (h : c.phase = .fetching) : c.rank = 2 * (c.baseUrls.length - c.attempt) := by
  rw [rank, h]

/-- A call that cancels a body has one step less. -/
theorem rank_cancelling (h : c.phase = .cancelling) : c.rank = 2 * (c.baseUrls.length - c.attempt) - 1 := by
  rw [rank, h]

/-- So has one that reads a body. -/
theorem rank_reading {status : Nat} (h : c.phase = .reading status) : c.rank = 2 * (c.baseUrls.length - c.attempt) - 1 := by
  rw [rank, h]

/-- The loop begins with two steps for each url that is left. -/
theorem rank_loop_le (attempt : Nat) : (c.loop isError attempt).rank ≤ 2 * (c.baseUrls.length - attempt) := by
  unfold loop
  split
  · exact Nat.le_refl _
  · exact Nat.zero_le _

/-- A call that has not ended can still go on. -/
theorem Stands.rank_pos (h : Stands answer c) (hlive : c.phase.ended = false) :
    2 * (c.baseUrls.length - c.attempt) - 1 ≤ c.rank ∧ 0 < c.rank := by
  have hlt := h.lt hlive
  rcases live_cases hlive with hphase | hphase | ⟨status, hphase⟩
  · have hrank := rank_fetching hphase
    omega
  · have hrank := rank_cancelling hphase
    omega
  · have hrank := rank_reading hphase
    omega

end Call

/-- A call goes on in this. -/
def Act.isResume : Act E → Bool
  | .resumes => true
  | _ => false

namespace Call

/-- Each time it goes on, it can do so less often. -/
theorem Moves.rank (h : Moves isError answer c a c' index) (hok : c.Ok answer) : c'.rank + a.isResume.toNat ≤ c.rank := by
  obtain ⟨hge, hpos⟩ := hok.stands.rank_pos h.live
  have hlt := hok.stands.lt h.live
  cases h with
  | settles hpending hsignal hx => exact Nat.le_refl _
  | interrupted haborted hlive => exact Nat.le_refl _
  | aborts hlive => exact Nat.le_refl _
  | retries hphase hsettled hretriable =>
    have hrank := rank_fetching hphase
    show 2 * (c.baseUrls.length - c.attempt) - 1 + 1 ≤ c.rank
    omega
  | reads hphase hsettled hretriable =>
    have hrank := rank_fetching hphase
    show 2 * (c.baseUrls.length - c.attempt) - 1 + 1 ≤ c.rank
    omega
  | rotates hphase hsettled =>
    have hloop : (c.loop isError (c.attempt + 1)).rank ≤ 2 * (c.baseUrls.length - (c.attempt + 1)) := rank_loop_le _
    show (c.loop isError (c.attempt + 1)).rank + 1 ≤ c.rank
    omega
  | returns hphase hsettled => exact hpos
  | @catches error hlive hsettled =>
    show (c.caught isError error).rank + 1 ≤ c.rank
    unfold Call.caught
    split
    · exact hpos
    · have hloop : (loop isError { c with lastError := some (.rejected error) } (c.attempt + 1)).rank ≤
          2 * (c.baseUrls.length - (c.attempt + 1)) := rank_loop_le _
      omega

/-- The promise that a call awaits settles. -/
theorem Stands.promised (h : Stands answer c) (hlive : c.phase.ended = false) :
    ∃ x, c.phase.promised (answer c.attempt) = some x := by
  rcases live_cases hlive with hphase | hphase | ⟨status, hphase⟩
  · rw [hphase]
    cases answer c.attempt <;> exact ⟨_, rfl⟩
  · obtain ⟨-, status, cancel, json, ho, -⟩ := h.cancelling hphase
    rw [hphase, ho]
    cases cancel <;> exact ⟨_, rfl⟩
  · obtain ⟨-, -, cancel, json, ho⟩ := h.reading hphase
    rw [hphase, ho]
    cases json <;> exact ⟨_, rfl⟩

/-- A call goes on from what its promise says. -/
theorem resume_of_promised {o : Attempt B E} {x : Settled B E} (hx : c.phase.promised o = some x) (hsettled : c.settled = some x) :
    (c.resume isError).isSome = true := by
  unfold resume
  rw [hsettled]
  cases hphase : c.phase with
  | fetching =>
    rw [hphase] at hx
    cases o with
    | unreachable error =>
      cases hx
      rfl
    | responded status cancel json =>
      cases hx
      simp only
      split <;> rfl
  | cancelling =>
    rw [hphase] at hx
    cases o with
    | unreachable error => cases hx
    | responded status cancel json => cases cancel <;> cases hx <;> rfl
  | reading status =>
    rw [hphase] at hx
    cases o with
    | unreachable error => cases hx
    | responded status cancel json => cases json <;> cases hx <;> rfl
  | returned result =>
    rw [hphase] at hx
    cases hx
  | threw error =>
    rw [hphase] at hx
    cases hx

/-- A call that was not aborted can go on, unless it has ended: its promise settles, or has settled. -/
theorem Ok.progress (h : c.Ok answer) (hsignal : c.aborted = false) (hlive : c.phase.ended = false) :
    (c.act isError answer .settles).isSome = true ∨ (c.act isError answer .resumes).isSome = true := by
  cases hsettled : c.settled with
  | none =>
    obtain ⟨x, hx⟩ := h.stands.promised hlive
    left
    rw [act, hsettled, hsignal, hx]
    rfl
  | some x =>
    have hx := (h.asAnswered x hsettled).resolve_right fun haborted => by
      rw [hsignal] at haborted
      cases haborted.1
    exact Or.inr (resume_of_promised hx hsettled)

end Call

end Failover

end Soroscan
