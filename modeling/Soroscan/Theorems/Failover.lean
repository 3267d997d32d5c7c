import Soroscan.Lemmas.Failover

/-!
# Every provider once

Calls side by side share the memory of the healthy providers. Each call goes round its list once, from the index that was remembered
when it was made, until an answer is accepted; and what is remembered is where an answer was accepted. A call that throws remembers
nothing, and neither does one that is aborted before its answer was parsed. But one that is aborted between that and its next step
remembers it.
-/

namespace Soroscan

namespace Failover

variable {B E : Type} {isError : E → Bool} {answers : Nat → Nat → Attempt B E} {s s' t : Calls B E}

instance (baseUrls : List JsString) : Decidable (IsUrlList baseUrls) := inferInstanceAs (Decidable (_ ∧ _))

/-- A call is made with a list of URLs that a join keeps apart. -/
def Event.HasUrls : Event E → Prop
  | .starts baseUrls _ _ => IsUrlList baseUrls
  | .acts _ _ => True

/-- The call goes on in this event. -/
def Event.resumes (id : Nat) : Event E → Bool
  | .starts _ _ _ => false
  | .acts i a => decide (i = id) && a.isResume

/-- Lists whose joins are equal are equal. -/
theorem joined_injective {urls urls' : List JsString} (h : IsUrlList urls) (h' : IsUrlList urls')
    (heq : joined urls = joined urls') : urls = urls' := by
  unfold joined at heq
  rw [← List.splitOn_intercalate (44 : UInt16) h.2 h.1, heq, List.splitOn_intercalate (44 : UInt16) h'.2 h'.1]

namespace Calls

/-! ## One step -/

theorem step_acts {id : Nat} {a : Act E} (h : step isError answers s (.acts id a) = some s') :
    ∃ c c' index, s.calls[id]? = some c ∧ Call.Moves isError (answers id) c a c' index ∧ s' = s.put id c' index := by
  rw [step] at h
  obtain ⟨c, hc, h⟩ := Option.bind_eq_some_iff.mp h
  obtain ⟨⟨c', index⟩, hact, rfl⟩ := Option.map_eq_some_iff.mp h
  exact ⟨c, c', index, hc, Call.moves_of_act hact, rfl⟩

theorem isSome_step_acts {id : Nat} {c : Call B E} (hc : s.calls[id]? = some c) (a : Act E) :
    (step isError answers s (.acts id a)).isSome = (c.act isError (answers id) a).isSome := by
  rw [step, hc, Option.bind_some, Option.isSome_map]

/-- A call after another one was made was there, or is that one. -/
theorem call_of_append {made c : Call B E} {id : Nat} (h : (s.calls ++ [made])[id]? = some c) :
    s.calls[id]? = some c ∨ (id = s.calls.length ∧ c = made) := by
  rcases Nat.lt_trichotomy id s.calls.length with hlt | heq | hgt
  · rw [List.getElem?_append_left hlt] at h
    exact Or.inl h
  · rw [heq, List.getElem?_concat_length] at h
    exact Or.inr ⟨heq, (Option.some.inj h).symm⟩
  · rw [List.getElem?_eq_none (by rw [List.length_append, List.length_singleton]; omega)] at h
    cases h

theorem put_self {c c' : Call B E} {id : Nat} {index : Option Nat} (h : s.calls[id]? = some c) :
    (s.put id c' index).calls[id]? = some c' :=
  List.getElem?_set_self (List.getElem?_eq_some_iff.mp h).1

theorem put_ne {c : Call B E} {i id : Nat} {index : Option Nat} (h : id ≠ i) : (s.put id c index).calls[i]? = s.calls[i]? :=
  List.getElem?_set_ne h

theorem put_remembers {c : Call B E} {id index : Nat} : (s.put id c (some index)).lastHealthy (joined c.baseUrls) = some index := by
  show Function.update s.lastHealthy (joined c.baseUrls) (some index) (joined c.baseUrls) = some index
  rw [Function.update_self]

theorem put_remembers_ne {c : Call B E} {id index : Nat} {key : JsString} (h : key ≠ joined c.baseUrls) :
    (s.put id c (some index)).lastHealthy key = s.lastHealthy key := by
  show Function.update s.lastHealthy (joined c.baseUrls) (some index) key = s.lastHealthy key
  rw [Function.update_of_ne h]

/-- A call is as it was after a step, or has moved in it. -/
theorem step_call {e : Event E} {c : Call B E} {id : Nat} (h : step isError answers s e = some s') (hc : s.calls[id]? = some c) :
    ∃ c', s'.calls[id]? = some c' ∧
      ((c' = c ∧ e.resumes id = false) ∨ ∃ a index, e = .acts id a ∧ Call.Moves isError (answers id) c a c' index) := by
  cases e with
  | starts baseUrls path signal =>
    cases h
    refine ⟨c, ?_, Or.inl ⟨rfl, rfl⟩⟩
    show (s.calls ++ _)[id]? = some c
    rw [List.getElem?_append_left (List.getElem?_eq_some_iff.mp hc).1]
    exact hc
  | acts i a =>
    obtain ⟨d, d', index, hd, hmoves, rfl⟩ := step_acts h
    by_cases hi : i = id
    · subst hi
      rw [hc] at hd
      cases hd
      exact ⟨d', put_self hc, Or.inr ⟨a, index, rfl, hmoves⟩⟩
    · refine ⟨c, (put_ne hi).trans hc, Or.inl ⟨rfl, ?_⟩⟩
      rw [Event.resumes, decide_eq_false hi, Bool.false_and]

/-- What the moves of a call keep, a run keeps of it. -/
theorem run_call {P : Call B E → Prop} {id : Nat}
    (hmoves : ∀ c a c' index, P c → Call.Moves isError (answers id) c a c' index → P c') {es : List (Event E)}
    (hrun : run (step isError answers) s es = some t) {c : Call B E} (hc : s.calls[id]? = some c) (hP : P c) :
    ∃ c', t.calls[id]? = some c' ∧ P c' := by
  refine run_invariant (P := fun u => ∃ c', u.calls[id]? = some c' ∧ P c') ?_ ⟨c, hc, hP⟩ hrun
  rintro u e u' ⟨d, hd, hPd⟩ hstep
  obtain ⟨d', hd', hcase⟩ := step_call hstep hd
  rcases hcase with ⟨rfl, -⟩ | ⟨a, index, -, hmove⟩
  · exact ⟨d', hd', hPd⟩
  · exact ⟨d', hd', hmoves d a d' index hPd hmove⟩

/-! ## What holds in every state -/

/-- A call with the key of its list has returned what it got at the index. -/
def Worked (s : Calls B E) (key : JsString) (index : Nat) : Prop :=
  ∃ (id : Nat) (c : Call B E), s.calls[id]? = some c ∧ joined c.baseUrls = key ∧ c.Returned ∧ c.indexOf c.attempt = index

/-- Every call is as it should be, and what is remembered has worked. -/
structure Sound (answers : Nat → Nat → Attempt B E) (s : Calls B E) : Prop where
  calls : ∀ (id : Nat) (c : Call B E), s.calls[id]? = some c → c.Ok (answers id)
  healthy : ∀ (key : JsString) (index : Nat), s.lastHealthy key = some index → s.Worked key index

theorem Sound.initial : Sound answers (initial : Calls B E) where
  calls _ _ h := nomatch h
  healthy _ _ h := nomatch h

theorem made_ok {answer : Nat → Attempt B E} {baseUrls path : _} {signal : Option Bool} (hurls : IsUrlList baseUrls) :
    (s.made isError baseUrls path signal).Ok answer :=
  Call.Ok.loop hurls (fun _ hk => absurd hk (Nat.not_lt_zero _)) (Nat.zero_le _) rfl

theorem Sound.step (h : Sound answers s) {e : Event E} (he : e.HasUrls) (hstep : step isError answers s e = some s') :
    Sound answers s' := by
  cases e with
  | starts baseUrls path signal =>
    cases hstep
    constructor
    · intro id c hc
      rcases call_of_append hc with hc | ⟨rfl, rfl⟩
      · exact h.calls id c hc
      · exact made_ok he
    · intro key index hkey
      obtain ⟨id, c, hc, hrest⟩ := h.healthy key index hkey
      exact ⟨id, c, (List.getElem?_append_left (List.getElem?_eq_some_iff.mp hc).1).trans hc, hrest⟩
  | acts i a =>
    obtain ⟨d, d', remembered, hd, hmoves, rfl⟩ := step_acts hstep
    constructor
    · intro id c hc
      by_cases hi : i = id
      · subst hi
        rw [put_self hd] at hc
        cases hc
        exact (h.calls i d hd).moves hmoves
      · rw [put_ne hi] at hc
        exact h.calls id c hc
    · intro key index hkey
      have hold : s.lastHealthy key = some index → (s.put i d' remembered).Worked key index := by
        intro hkey
        obtain ⟨id, c, hc, hjoined, hreturned, hindex⟩ := h.healthy key index hkey
        have hi : i ≠ id := by
          rintro rfl
          rw [hd] at hc
          cases hc
          exact Call.not_returned_of_live hmoves.live hreturned
        exact ⟨id, c, (put_ne hi).trans hc, hjoined, hreturned, hindex⟩
      rcases hmoves.remembers with ⟨rfl, -⟩ | ⟨rfl, hreturned⟩
      · exact hold hkey
      · by_cases hjoined : key = joined d'.baseUrls
        · have hindex : d'.indexOf d'.attempt = index := by
            rw [hjoined, put_remembers] at hkey
            exact Option.some.inj hkey
          exact ⟨i, d', put_self hd, hjoined.symm, hreturned, hindex⟩
        · rw [put_remembers_ne hjoined] at hkey
          exact hold hkey

theorem Sound.run {es : List (Event E)} (h : Sound answers s) (hurls : ∀ e ∈ es, e.HasUrls)
    (hrun : run (Calls.step isError answers) s es = some t) : Sound answers t :=
  run_invariant_of_mem (fun e he _ _ hs hstep => Sound.step hs (hurls e he) hstep) h hrun

/-! ## Where a call starts -/

/-- A call that is new after a step was made in it. -/
theorem made_of_step {e : Event E} (h : step isError answers s e = some s') {id : Nat} (hnew : s.calls.length ≤ id)
    (hthere : id < s'.calls.length) :
    ∃ baseUrls path signal, e = .starts baseUrls path signal ∧ s.calls.length = id ∧
      s'.calls[id]? = some (s.made isError baseUrls path signal) := by
  cases e with
  | starts baseUrls path signal =>
    cases h
    have hid : s.calls.length = id := by
      rw [List.length_append, List.length_singleton] at hthere
      omega
    refine ⟨baseUrls, path, signal, rfl, hid, ?_⟩
    rw [← hid]
    exact List.getElem?_concat_length
  | acts i a =>
    obtain ⟨d, d', index, -, -, rfl⟩ := step_acts h
    have hlength : (s.put i d' index).calls.length = s.calls.length := List.length_set ..
    omega

/-- What happens before a call was made is not that the call goes on. -/
theorem resumes_of_new {e : Event E} (h : step isError answers s e = some s') {id : Nat} (hnew : s.calls.length ≤ id) :
    e.resumes id = false := by
  cases e with
  | starts baseUrls path signal => rfl
  | acts i a =>
    obtain ⟨d, d', index, hd, -, -⟩ := step_acts h
    have hlt := (List.getElem?_eq_some_iff.mp hd).1
    rw [Event.resumes, decide_eq_false (by omega), Bool.false_and]

/-- A call of a run was made in it, and started at what was remembered then. -/
theorem exists_start {es : List (Event E)} (hrun : run (step isError answers) s es = some t) {id : Nat} (hnew : s.calls.length ≤ id)
    {c : Call B E} (hc : t.calls[id]? = some c) :
    ∃ a b baseUrls path signal, Takes (step isError answers) s es a (.starts baseUrls path signal) b ∧ a.calls.length = id ∧
      c.baseUrls = baseUrls ∧ c.path = path ∧ c.start = a.remembered baseUrls := by
  induction es generalizing s with
  | nil =>
    cases hrun
    have hlt := (List.getElem?_eq_some_iff.mp hc).1
    omega
  | cons e es ih =>
    obtain ⟨s', hstep, hafter⟩ := Option.bind_eq_some_iff.mp hrun
    by_cases hlt : s'.calls.length ≤ id
    · obtain ⟨a, b, baseUrls, path, signal, htakes, hrest⟩ := ih hafter hlt
      exact ⟨a, b, baseUrls, path, signal, htakes.tail hstep, hrest⟩
    · obtain ⟨baseUrls, path, signal, rfl, hid, hmade⟩ := made_of_step hstep hnew (Nat.lt_of_not_le hlt)
      obtain ⟨c', hc', hbase, hpath, hstart⟩ := run_call (P := fun c => c.baseUrls = baseUrls ∧ c.path = path ∧
        c.start = s.remembered baseUrls) (fun d a d' index hd hmoves => by
          obtain ⟨hbase, hpath, hstart⟩ := hmoves.same
          rwa [hbase, hpath, hstart]) hafter hmade
        ⟨Call.loop_baseUrls 0, Call.loop_path 0, Call.loop_start 0⟩
      rw [hc] at hc'
      cases hc'
      exact ⟨s, s', baseUrls, path, signal, Takes.head hstep es, hid, hbase, hpath, hstart⟩

/-! ## How often a call goes on -/

/-- A call that is there goes on so often that what is left fits. -/
theorem rank_run {es : List (Event E)} (hs : Sound answers s) (hurls : ∀ e ∈ es, e.HasUrls)
    (hrun : run (step isError answers) s es = some t) {id : Nat} {c d : Call B E} (hc : s.calls[id]? = some c)
    (hd : t.calls[id]? = some d) : d.rank + es.countP (Event.resumes id) ≤ c.rank := by
  induction es generalizing s c with
  | nil =>
    cases hrun
    rw [hc] at hd
    cases hd
    exact Nat.le_refl _
  | cons e es ih =>
    obtain ⟨s', hstep, hafter⟩ := Option.bind_eq_some_iff.mp hrun
    obtain ⟨he, hes⟩ := List.forall_mem_cons.mp hurls
    obtain ⟨c', hc', hcase⟩ := step_call hstep hc
    have hrest := ih (hs.step he hstep) hes hafter hc'
    rw [List.countP_cons]
    rcases hcase with ⟨rfl, hquiet⟩ | ⟨a, index, rfl, hmoves⟩
    · rw [hquiet, if_neg Bool.false_ne_true]
      exact hrest
    · have hrank := hmoves.rank (hs.calls id c hc)
      rw [Event.resumes, decide_eq_true rfl, Bool.true_and]
      cases hresume : a.isResume with
      | false =>
        rw [if_neg Bool.false_ne_true]
        omega
      | true =>
        rw [hresume] at hrank
        rw [if_pos rfl]
        have htrue : true.toNat = 1 := rfl
        omega

/-- A call goes on less than twice for each of its URLs, until it ends. -/
theorem resumptions_le {es : List (Event E)} (hs : Sound answers s) (hurls : ∀ e ∈ es, e.HasUrls)
    (hrun : run (step isError answers) s es = some t) {id : Nat} (hnew : s.calls.length ≤ id) {d : Call B E}
    (hd : t.calls[id]? = some d) : d.rank + es.countP (Event.resumes id) ≤ 2 * d.baseUrls.length := by
  induction es generalizing s with
  | nil =>
    cases hrun
    have hlt := (List.getElem?_eq_some_iff.mp hd).1
    omega
  | cons e es ih =>
    obtain ⟨s', hstep, hafter⟩ := Option.bind_eq_some_iff.mp hrun
    obtain ⟨he, hes⟩ := List.forall_mem_cons.mp hurls
    have hs' := hs.step he hstep
    rw [List.countP_cons_of_neg (by rw [resumes_of_new hstep hnew]; exact Bool.false_ne_true)]
    by_cases hlt : s'.calls.length ≤ id
    · exact ih hs' hes hafter hlt
    · obtain ⟨baseUrls, path, signal, -, -, hmade⟩ := made_of_step hstep hnew (Nat.lt_of_not_le hlt)
      have hrank := rank_run hs' hes hafter hmade hd
      obtain ⟨d', hd', hbase⟩ := run_call (P := fun c => c.baseUrls = baseUrls) (fun d a d' index hd hmoves =>
        hmoves.same.1.trans hd) hafter hmade (Call.loop_baseUrls 0)
      rw [hd] at hd'
      cases hd'
      have hloop : (s.made isError baseUrls path signal).rank ≤ 2 * (baseUrls.length - 0) := Call.rank_loop_le 0
      rw [hbase]
      omega

/-! ## What a call leaves -/

/-- A call that returns in the end changes the memory in its last step only, and one that does not never changes it. -/
theorem lastHealthy_of_not_returned {es : List (Event E)} (hrun : run (step isError answers) s es = some t) {id : Nat}
    {a b : Calls B E} {act : Act E} (htakes : Takes (step isError answers) s es a (.acts id act) b)
    (hreturned : ∀ c, t.calls[id]? = some c → ¬c.Returned) : b.lastHealthy = a.lastHealthy := by
  obtain ⟨-, hstep, after, hafter⟩ := htakes.split hrun
  obtain ⟨c, c', index, hc, hmoves, rfl⟩ := step_acts hstep
  rcases hmoves.remembers with ⟨rfl, -⟩ | ⟨rfl, hback⟩
  · rfl
  · obtain ⟨d, hd, hkept⟩ := run_call (P := Call.Returned)
      (fun d _ _ _ hd hmove => absurd hd (Call.not_returned_of_live hmove.live)) hafter (put_self hc) hback
    exact absurd hkept (hreturned d hd)

/-- A call that is doomed in a run has not returned at its end. -/
theorem not_returned_of_doomed {es : List (Event E)} (hrun : run (step isError answers) s es = some t) {id : Nat} {c : Call B E}
    (hc : s.calls[id]? = some c) (hdoomed : c.Doomed) : ∀ d, t.calls[id]? = some d → ¬d.Returned := by
  obtain ⟨d, hd, hstill⟩ := run_call (P := Call.Doomed) (fun _ _ _ _ hdoomed hmove => hdoomed.moves hmove) hrun hc hdoomed
  intro d' hd'
  rw [hd] at hd'
  cases hd'
  exact hstill.2.1

end Calls

open Calls

/-! ## Every provider once -/

/-- The first answer that is accepted. -/
def firstAccepted (answer : Nat → Attempt B E) (n : Nat) : Option (JsonFetchResult B) :=
  (List.range n).findSome? fun k => (answer k).accepted

/-- A call asks its providers in turn, from where it starts, and each of them once. It returns the first answer that is accepted,
and throws only if there is none and all were asked. -/
structure Call.TriesEach (answer : Nat → Attempt B E) (c : Call B E) : Prop where
  inTurn : c.sent = (List.range c.sent.length).map c.request
  within : c.sent.length ≤ c.baseUrls.length
  once : (c.sent.map Prod.fst).Nodup
  returns : ∀ result, c.phase = .returned result → firstAccepted answer c.baseUrls.length = some result
  throws : ∀ error, c.phase = .threw error → firstAccepted answer c.baseUrls.length = none ∧ c.sent.length = c.baseUrls.length

/-- Going round once meets no index twice. -/
theorem nodup_indexOf (c : Call B E) {k : Nat} (hk : k ≤ c.baseUrls.length) : ((List.range k).map c.indexOf).Nodup := by
  refine List.Nodup.map_on (fun i hi j hj h => ?_) List.nodup_range
  rw [List.mem_range] at hi hj
  have hmod : i ≡ j [MOD c.baseUrls.length] := Nat.ModEq.add_left_cancel' c.start h
  exact Nat.ModEq.eq_of_lt_of_lt hmod (by omega) (by omega)

theorem firstAccepted_eq_none {answer : Nat → Attempt B E} {n : Nat} (h : FailedBefore answer n) :
    firstAccepted answer n = none := by
  rw [firstAccepted, List.findSome?_eq_none_iff]
  exact fun k hk => h k (List.mem_range.mp hk)

theorem firstAccepted_eq_some {answer : Nat → Attempt B E} {k n : Nat} {result : JsonFetchResult B} (h : FailedBefore answer k)
    (hk : k < n) (hresult : (answer k).accepted = some result) : firstAccepted answer n = some result := by
  obtain ⟨m, rfl⟩ := Nat.exists_eq_add_of_lt hk
  rw [firstAccepted, Nat.add_assoc, List.range_add, List.findSome?_append]
  have hfront : (List.range k).findSome? (fun j => (answer j).accepted) = none := firstAccepted_eq_none h
  rw [hfront, Option.none_or, List.range_succ_eq_map, List.map_cons, List.findSome?_cons, Nat.add_zero, hresult]

theorem Call.Ok.triesEach {answer : Nat → Attempt B E} {c : Call B E} (h : c.Ok answer) (hsignal : c.aborted = false) :
    c.TriesEach answer := by
  have hlength : c.sent.length = min (c.attempt + 1) c.baseUrls.length := by
    rw [h.sent, List.length_map, List.length_range]
  have hwithin : c.sent.length ≤ c.baseUrls.length := hlength ▸ Nat.min_le_right _ _
  have hinTurn : c.sent = (List.range c.sent.length).map c.request := by
    rw [hlength]
    exact h.sent
  constructor
  · exact hinTurn
  · exact hwithin
  · rw [hinTurn, List.map_map]
    exact nodup_indexOf c hwithin
  · intro result hphase
    obtain ⟨hlt, haccepted⟩ := h.stands.returned hphase
    exact firstAccepted_eq_some h.failed hlt haccepted
  · intro error hphase
    have hend := (h.stands.threw hphase).resolve_left (by rw [hsignal]; exact Bool.false_ne_true)
    have hfailed := h.failed
    rw [hend] at hfailed hlength
    exact ⟨firstAccepted_eq_none hfailed, by omega⟩

/-- A call of a run was aborted when it was made, or later, when no answer of its was parsed yet. -/
def AbortedInTime (isError : E → Bool) (answers : Nat → Nat → Attempt B E) (es : List (Event E)) (id : Nat) : Prop :=
  (∃ a b baseUrls path, Takes (step isError answers) initial es a (.starts baseUrls path (some true)) b ∧ a.calls.length = id) ∨
    ∃ a b c, Takes (step isError answers) initial es a (.acts id .aborts) b ∧ a.calls[id]? = some c ∧ ¬c.Answered

theorem AbortedInTime.not_returned {es : List (Event E)} {id : Nat} (h : AbortedInTime isError answers es id)
    (hrun : run (step isError answers) initial es = some t) : ∀ c, t.calls[id]? = some c → ¬c.Returned := by
  rcases h with ⟨a, b, baseUrls, path, htakes, rfl⟩ | ⟨a, b, c, htakes, hc, hanswered⟩
  · obtain ⟨-, hstep, after, hafter⟩ := htakes.split hrun
    cases hstep
    have hmade : (a.calls ++ [a.made isError baseUrls path (some true)])[a.calls.length]? =
        some (a.made isError baseUrls path (some true)) := List.getElem?_concat_length
    exact not_returned_of_doomed hafter hmade (Call.doomed_loop rfl 0)
  · obtain ⟨-, hstep, after, hafter⟩ := htakes.split hrun
    obtain ⟨d, d', index, hd, hmoves, rfl⟩ := step_acts hstep
    rw [hc] at hd
    cases hd
    cases hmoves with
    | aborts hlive => exact not_returned_of_doomed hafter (put_self hc) ⟨rfl, Call.not_returned_of_live hlive, hanswered⟩

/-- A call was made in the run, and starts at what was remembered of its list then. -/
def StartsRemembered (isError : E → Bool) (answers : Nat → Nat → Attempt B E) (es : List (Event E)) (id : Nat) (c : Call B E) :
    Prop :=
  ∃ a b baseUrls path signal, Takes (step isError answers) initial es a (.starts baseUrls path signal) b ∧ a.calls.length = id ∧
    c.baseUrls = baseUrls ∧ c.path = path ∧ c.start = a.remembered baseUrls

/-- A call that has not ended can go on, and has gone on less than twice for each of its URLs. -/
def GoesOn (isError : E → Bool) (answers : Nat → Nat → Attempt B E) (es : List (Event E)) (t : Calls B E) (id : Nat)
    (c : Call B E) : Prop :=
  c.phase.ended = false → es.countP (Event.resumes id) < 2 * c.baseUrls.length ∧
    ((step isError answers t (.acts id .settles)).isSome = true ∨ (step isError answers t (.acts id .resumes)).isSome = true)

/-- An index of the list is remembered, where a call with the list got the answer it returned, or none and it is the first. -/
def RemembersSuccess (answers : Nat → Nat → Attempt B E) (t : Calls B E) (baseUrls : List JsString) : Prop :=
  t.remembered baseUrls < baseUrls.length ∧
    ∀ index, t.lastHealthy (joined baseUrls) = some index →
      ∃ (id : Nat) (c : Call B E) (result : JsonFetchResult B), t.calls[id]? = some c ∧ c.baseUrls = baseUrls ∧
        c.phase = .returned result ∧ (answers id c.attempt).accepted = some result ∧ c.indexOf c.attempt = index

/-- No step of a call changes what is remembered. -/
def LeavesMemory (isError : E → Bool) (answers : Nat → Nat → Attempt B E) (es : List (Event E)) (id : Nat) : Prop :=
  (∀ a b baseUrls path signal, Takes (step isError answers) initial es a (.starts baseUrls path signal) b → a.calls.length = id →
    b.lastHealthy = a.lastHealthy) ∧
  ∀ a act b, Takes (step isError answers) initial es a (.acts id act) b → b.lastHealthy = a.lastHealthy

theorem remembersSuccess_of_sound (h : Sound answers t) {baseUrls : List JsString} (hurls : IsUrlList baseUrls) :
    RemembersSuccess answers t baseUrls := by
  have hworked : ∀ index, t.lastHealthy (joined baseUrls) = some index →
      ∃ (id : Nat) (c : Call B E) (result : JsonFetchResult B), t.calls[id]? = some c ∧ c.baseUrls = baseUrls ∧
        c.phase = .returned result ∧ (answers id c.attempt).accepted = some result ∧ c.indexOf c.attempt = index := by
    intro index hindex
    obtain ⟨id, c, hc, hjoined, ⟨result, hphase⟩, hat⟩ := h.healthy _ index hindex
    have hok := h.calls id c hc
    exact ⟨id, c, result, hc, joined_injective hok.urls hurls hjoined, hphase, (hok.stands.returned hphase).2, hat⟩
  refine ⟨?_, hworked⟩
  have hpos : 0 < baseUrls.length := List.length_pos_iff.mpr hurls.1
  unfold Calls.remembered
  cases hindex : t.lastHealthy (joined baseUrls) with
  | none => exact hpos
  | some index =>
    obtain ⟨id, c, result, -, rfl, -, -, hat⟩ := hworked index hindex
    rw [Option.getD_some, ← hat]
    exact Nat.mod_lt _ hpos

theorem goesOn_of_sound (h : Sound answers t) {es : List (Event E)} (hurls : ∀ e ∈ es, e.HasUrls)
    (hrun : run (step isError answers) initial es = some t) {id : Nat} {c : Call B E} (hc : t.calls[id]? = some c)
    (hsignal : c.aborted = false) : GoesOn isError answers es t id c := by
  intro hlive
  have hok := h.calls id c hc
  have hcount := resumptions_le Sound.initial hurls hrun (Nat.zero_le id) hc
  have hrank := (hok.stands.rank_pos hlive).2
  rw [isSome_step_acts hc, isSome_step_acts hc]
  exact ⟨by omega, hok.progress hsignal hlive⟩

/-- However the attempts go and the calls come in between: a call that was not aborted asks its providers in turn, from the
remembered one, and each of them once; it returns the first answer that is accepted, and throws only if all have failed. What is
remembered of a list is the index of an answer that was accepted. And a call that throws, or was aborted before its answer was
parsed, changes nothing of it. -/
theorem failover_once (isError : E → Bool) (answers : Nat → Nat → Attempt B E) {es : List (Event E)} (hurls : ∀ e ∈ es, e.HasUrls)
    {t : Calls B E} (hrun : run (step isError answers) initial es = some t) :
    (∀ (id : Nat) (c : Call B E), t.calls[id]? = some c → c.aborted = false →
      StartsRemembered isError answers es id c ∧ c.TriesEach (answers id) ∧ GoesOn isError answers es t id c) ∧
    (∀ baseUrls, IsUrlList baseUrls → RemembersSuccess answers t baseUrls) ∧
    ∀ id, (∃ c error, t.calls[id]? = some c ∧ c.phase = .threw error) ∨ AbortedInTime isError answers es id →
      LeavesMemory isError answers es id := by
  have hsound : Sound answers t := Sound.initial.run hurls hrun
  refine ⟨fun id c hc hsignal => ⟨exists_start hrun (Nat.zero_le id) hc, ?_, goesOn_of_sound hsound hurls hrun hc hsignal⟩,
    fun baseUrls hlist => remembersSuccess_of_sound hsound hlist, fun id hid => ⟨?_, ?_⟩⟩
  · exact (hsound.calls id c hc).triesEach hsignal
  · intro a b baseUrls path signal htakes _
    obtain ⟨-, hstep, -⟩ := htakes.split hrun
    cases hstep
    rfl
  · intro a act b htakes
    refine lastHealthy_of_not_returned hrun htakes ?_
    rcases hid with ⟨c, error, hc, hphase⟩ | htime
    · intro d hd
      rw [hc] at hd
      cases hd
      exact Call.not_returned_of_phase hphase nofun
    · exact htime.not_returned hrun

/-- Two providers. -/
def twoUrls : List JsString := [js "https://a".toList, js "https://b".toList]

/-- The first provider is not reached, and the next one answers. -/
def secondAnswers (_ attempt : Nat) : Attempt Nat Unit :=
  if attempt = 0 then .unreachable () else .responded 200 none (.ok 7)

/-- A call up to the answer of the second provider, parsed. -/
def untilParsed : List (Event Unit) :=
  [.starts twoUrls [] (some false), .acts 0 .settles, .acts 0 .resumes, .acts 0 .settles, .acts 0 .resumes, .acts 0 .settles]

theorem isUrlList_twoUrls : IsUrlList twoUrls := by decide +kernel

theorem hasUrls_untilParsed : ∀ e ∈ untilParsed, e.HasUrls := by
  refine List.forall_mem_cons.mpr ⟨isUrlList_twoUrls, fun e he => ?_⟩
  fin_cases he <;> trivial

/-- The call returns the answer of the second provider, and that is remembered. -/
theorem failover_once_secondAnswers :
    ∃ t, run (step (fun _ => true) secondAnswers) initial (untilParsed ++ [.acts 0 .resumes]) = some t ∧ t.remembered twoUrls = 1 ∧
      RemembersSuccess secondAnswers t twoUrls := by
  have h : (run (step (fun _ => true) secondAnswers) initial (untilParsed ++ [.acts 0 .resumes])).map
      (fun t => t.remembered twoUrls) = some 1 := by decide +kernel
  obtain ⟨t, ht, hremembered⟩ := Option.map_eq_some_iff.mp h
  have hurls : ∀ e ∈ untilParsed ++ [.acts 0 .resumes], e.HasUrls := by
    intro e he
    rcases List.mem_append.mp he with he | he
    · exact hasUrls_untilParsed e he
    · rw [List.mem_singleton.mp he]
      trivial
  exact ⟨t, ht, hremembered, (failover_once (fun _ => true) secondAnswers hurls ht).2.1 twoUrls isUrlList_twoUrls⟩

/-- The signal is aborted when the answer was parsed and before the call goes on: it returns the answer, and remembers the
provider. -/
theorem lateAbort_remembered :
    ∃ t c, run (step (fun _ => true) secondAnswers) initial (untilParsed ++ [.acts 0 .aborts, .acts 0 .resumes]) = some t ∧
      t.calls[0]? = some c ∧ c.aborted = true ∧
      ¬LeavesMemory (fun _ => true) secondAnswers (untilParsed ++ [.acts 0 .aborts, .acts 0 .resumes]) 0 := by
  have hbefore : (run (step (fun _ => true) secondAnswers) initial (untilParsed ++ [.acts 0 .aborts])).map
      (fun a => a.lastHealthy (joined twoUrls)) = some none := by decide +kernel
  have hafter : (run (step (fun _ => true) secondAnswers) initial (untilParsed ++ [.acts 0 .aborts, .acts 0 .resumes])).map
      (fun t => (t.lastHealthy (joined twoUrls), t.calls[0]?.map fun c => c.aborted)) = some (some 1, some true) := by
    decide +kernel
  obtain ⟨a, ha, hnone⟩ := Option.map_eq_some_iff.mp hbefore
  obtain ⟨t, ht, hpair⟩ := Option.map_eq_some_iff.mp hafter
  obtain ⟨hsome, haborted⟩ := Prod.mk.inj hpair
  obtain ⟨c, hc, haborted⟩ := Option.map_eq_some_iff.mp haborted
  refine ⟨t, c, ht, hc, haborted, fun hleaves => ?_⟩
  have hsplit : untilParsed ++ [.acts 0 .aborts, .acts 0 .resumes] = (untilParsed ++ [.acts 0 .aborts]) ++ [.acts 0 .resumes] := by
    rw [List.append_assoc]
    rfl
  have hlast : step (fun _ => true) secondAnswers a (.acts 0 .resumes) = some t := by
    rw [hsplit, run_append, ha, Option.bind_some, run_cons] at ht
    obtain ⟨t', hstep, hend⟩ := Option.bind_eq_some_iff.mp ht
    cases hend
    exact hstep
  have hsame := hleaves.2 a .resumes t ⟨untilParsed ++ [.acts 0 .aborts], [], hsplit, ha, hlast⟩
  rw [hsame, hnone] at hsome
  cases hsome

end Failover

end Soroscan
