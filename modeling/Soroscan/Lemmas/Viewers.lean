import Soroscan.Viewers

/-!
# What a request can do

`Moves` says once what each step of a request does. The proofs about runs go by its cases. `Flights` is the invariant of the claims:
the keys in flight, the channels and the leaders belong together.
-/

namespace Soroscan

namespace Icons

/-! ## The service -/

namespace Service

/-- The eviction of keys leaves the claims as they are. -/
theorem evict_inFlight (s : Service) (keys : List Bytes) : (s.evict keys).1.inFlight = s.inFlight := by
  induction keys generalizing s with
  | nil => rfl
  | cons oldest rest ih =>
    rw [evict]
    split_ifs
    · rfl
    · cases s.cache oldest with
      | none => exact ih s
      | some evicted => exact ih _

theorem insert_inFlight (s : Service) (key : Bytes) (value : Entry) : (s.insert key value).inFlight = s.inFlight := by
  unfold insert
  cases s.cache key <;> rfl

/-- A store leaves the claims as they are. -/
theorem store_inFlight (s : Service) (key : Bytes) (value : Entry) : (s.store key value).1.inFlight = s.inFlight := by
  rw [store, evict_inFlight, insert_inFlight]

/-- A key that is not evicted stays as it is. -/
theorem evict_cache {s : Service} {keys : List Bytes} {key : Bytes} (hkept : key ∉ (s.evict keys).2) :
    (s.evict keys).1.cache key = s.cache key := by
  induction keys generalizing s with
  | nil => rfl
  | cons oldest rest ih =>
    rw [evict] at hkept ⊢
    split_ifs at hkept ⊢
    · rfl
    · cases hcached : s.cache oldest with
      | none =>
        rw [hcached] at hkept
        exact ih hkept
      | some evicted =>
        rw [hcached] at hkept
        obtain ⟨hne, hkept⟩ := List.ne_and_not_mem_of_not_mem_cons hkept
        rw [ih hkept]
        exact Function.update_of_ne hne ..

/-- What is stored is cached, unless it is evicted at once. -/
theorem store_cache_self {s : Service} {key : Bytes} {value : Entry} (hkept : key ∉ (s.store key value).2) :
    (s.store key value).1.cache key = some value := by
  rw [store, evict_cache hkept, insert]
  cases s.cache key <;> exact Function.update_self ..

/-- The other keys stay as they are, unless they are evicted. -/
theorem store_cache_ne {s : Service} {key other : Bytes} {value : Entry} (hne : other ≠ key)
    (hkept : other ∉ (s.store key value).2) : (s.store key value).1.cache other = s.cache other := by
  rw [store, evict_cache hkept, insert]
  cases s.cache key <;> exact Function.update_of_ne hne ..

/-- A lookup that misses finds nothing, or what has expired. -/
theorem expired_of_lookup_none {s : Service} {key : Bytes} {now : Nat} {value : Entry} (hmiss : s.lookup key now = none)
    (hcached : s.cache key = some value) : value.expired now = true := by
  rw [lookup, hcached, Option.filter_some] at hmiss
  by_cases h : value.expired now
  · exact h
  · simp [h] at hmiss

end Service

/-! ## The steps -/

/-- What an event does, case by case. -/
inductive Moves (lower : Char → Char) (w : Viewers) : Event → Viewers → Prop
  | arrives {pid : Nat} {code issuer : Bytes} (hnew : w.requests pid = none) :
    Moves lower w (.arrives pid code issuer) (w.put pid ⟨code, issuer, .looking⟩ .looking)
  | hits {pid now : Nat} {v : Viewer} {value : Entry} (hv : w.requests pid = some v) (hphase : v.phase = .looking)
    (hnow : w.clock ≤ now) (hit : w.service.lookup v.key now = some value) :
    Moves lower w (.acts pid (.looks now)) { w.put pid v (.finished (.served value)) with clock := now }
  | misses {pid now : Nat} {v : Viewer} (hv : w.requests pid = some v) (hphase : v.phase = .looking)
    (hnow : w.clock ≤ now) (hmiss : w.service.lookup v.key now = none) :
    Moves lower w (.acts pid (.looks now)) { w.put pid v (.missed w.history.length) with clock := now }
  | leads {pid seen : Nat} {v : Viewer} (hv : w.requests pid = some v) (hphase : v.phase = .missed seen)
    (hfree : w.service.inFlight v.key = none) :
    Moves lower w (.acts pid .claims)
      { w.put pid v (.leading w.makers.length seen) with
        service :=
          { w.service with inFlight := Function.update w.service.inFlight v.key (some w.makers.length) }
        makers := w.makers ++ [pid] }
  | waits {pid seen done : Nat} {v : Viewer} (hv : w.requests pid = some v) (hphase : v.phase = .missed seen)
    (hheld : w.service.inFlight v.key = some done) :
    Moves lower w (.acts pid .claims) (w.put pid v (.waiting done))
  | wakes {pid done : Nat} {v : Viewer} (hv : w.requests pid = some v) (hphase : v.phase = .waiting done)
    (hclosed : w.isClosed done = true) : Moves lower w (.acts pid .wakes) (w.put pid v .looking)
  | cancels {pid done : Nat} {v : Viewer} (hv : w.requests pid = some v) (hphase : v.phase = .waiting done) :
    Moves lower w (.acts pid .cancels) (w.put pid v (.finished .cancelled))
  | starts {pid done seen now : Nat} {v : Viewer} (hv : w.requests pid = some v) (hphase : v.phase = .leading done seen)
    (hnow : w.clock ≤ now) :
    Moves lower w (.acts pid (.starts now))
      { w.put pid v (.resolving done now) with clock := now, history := .started v.key now :: w.history }
  | resolves {pid done now : Nat} {v : Viewer} {up : Upstream} {value : Entry} (hv : w.requests pid = some v)
    (hphase : v.phase = .resolving done now) (hresolve : resolve lower up v.code v.issuer now = .ok value) :
    Moves lower w (.acts pid (.resolves up))
      { w.put pid v (.storing done value) with history := .resolved pid up :: w.history }
  | fails {pid done now : Nat} {v : Viewer} {up : Upstream} {error : IconError} (hv : w.requests pid = some v)
    (hphase : v.phase = .resolving done now) (hresolve : resolve lower up v.code v.issuer now = .error error) :
    Moves lower w (.acts pid (.resolves up))
      { w.put pid v (.releasing done (.failed error)) with history := .resolved pid up :: w.history }
  | panics {pid done now : Nat} {v : Viewer} (hv : w.requests pid = some v) (hphase : v.phase = .resolving done now) :
    Moves lower w (.acts pid .panics) (w.put pid v (.releasing done .panicked))
  | stores {pid done : Nat} {v : Viewer} {value : Entry} (hv : w.requests pid = some v)
    (hphase : v.phase = .storing done value) :
    Moves lower w (.acts pid .stores)
      { w.put pid v (.releasing done (.served value)) with
        service := (w.service.store v.key value).1
        history := (w.service.store v.key value).2.map .evicted ++ .stored pid v.key value :: w.history }
  | releases {pid done : Nat} {v : Viewer} {result : Result} (hv : w.requests pid = some v)
    (hphase : v.phase = .releasing done result) :
    Moves lower w (.acts pid .releases)
      { w.put pid v (.finished result) with
        service := (w.service.release v.key).1
        closed := ((w.service.release v.key).2.map (·, pid)).toList ++ w.closed }

variable {lower : Char → Char} {w w' : Viewers} {e : Event}

/-- An event that happens is one of these cases. -/
theorem moves_of_step (h : step lower w e = some w') : Moves lower w e w' := by
  cases e with
  | arrives pid code issuer =>
    simp only [step] at h
    split_ifs at h with hnew
    cases h
    exact .arrives hnew
  | acts pid act =>
    obtain ⟨v, hv, hstep⟩ := Option.bind_eq_some_iff.mp h
    clear h
    unfold advance at hstep
    split at hstep
    next now hphase =>
      split_ifs at hstep with hnow
      cases hlook : w.service.lookup v.key now with
      | some value =>
        rw [hlook] at hstep
        cases hstep
        exact .hits hv hphase hnow hlook
      | none =>
        rw [hlook] at hstep
        cases hstep
        exact .misses hv hphase hnow hlook
    next seen hphase =>
      cases hclaim : w.service.inFlight v.key with
      | none =>
        simp only [Service.claim, hclaim] at hstep
        cases hstep
        exact .leads hv hphase hclaim
      | some done =>
        simp only [Service.claim, hclaim] at hstep
        cases hstep
        exact .waits hv hphase hclaim
    next done hphase =>
      split_ifs at hstep with hclosed
      cases hstep
      exact .wakes hv hphase hclosed
    next done hphase =>
      cases hstep
      exact .cancels hv hphase
    next done seen now hphase =>
      split_ifs at hstep with hnow
      cases hstep
      exact .starts hv hphase hnow
    next done now up hphase =>
      cases hresolve : resolve lower up v.code v.issuer now with
      | ok value =>
        rw [hresolve] at hstep
        cases hstep
        exact .resolves hv hphase hresolve
      | error error =>
        rw [hresolve] at hstep
        cases hstep
        exact .fails hv hphase hresolve
    next done now hphase =>
      cases hstep
      exact .panics hv hphase
    next done value hphase =>
      cases hstep
      exact .stores hv hphase
    next done result hphase =>
      cases hstep
      exact .releases hv hphase
    next => cases hstep

/-- Notes are only added. -/
theorem history_grows (h : step lower w e = some w') : ∃ notes, w'.history = notes ++ w.history := by
  cases moves_of_step h with
  | starts => exact ⟨[_], rfl⟩
  | resolves => exact ⟨[_], rfl⟩
  | fails => exact ⟨[_], rfl⟩
  | stores => exact ⟨_ ++ [_], (List.append_cons ..)⟩
  | _ => exact ⟨[], rfl⟩

/-- A request stays, for the asset it is for. -/
theorem request_kept (h : step lower w e = some w') {q : Nat} {u : Viewer} (hu : w.requests q = some u) :
    ∃ u', w'.requests q = some u' ∧ u'.code = u.code ∧ u'.issuer = u.issuer := by
  have hput : ∀ {pid : Nat} {v : Viewer} {phase : Phase}, (w.requests pid = none ∨ w.requests pid = some v) →
      ∃ u', (w.put pid v phase).requests q = some u' ∧ u'.code = u.code ∧ u'.issuer = u.issuer := by
    intro pid v phase hv
    by_cases hq : q = pid
    · subst hq
      refine ⟨{ v with phase }, Function.update_self .., ?_⟩
      rcases hv with hv | hv
      · rw [hu] at hv
        cases hv
      · rw [hu] at hv
        cases hv
        exact ⟨rfl, rfl⟩
    · exact ⟨u, (Function.update_of_ne hq ..).trans hu, rfl, rfl⟩
  cases moves_of_step h with
  | arrives hnew => exact hput (Or.inl hnew)
  | _ hv => exact hput (Or.inr hv)

/-- A request that goes a step has arrived. -/
theorem request_of_acts {pid : Nat} {act : Act} (h : step lower w (.acts pid act) = some w') : ∃ v, w.requests pid = some v := by
  obtain ⟨v, hv, -⟩ := Option.bind_eq_some_iff.mp h
  exact ⟨v, hv⟩

/-- A resolution is recorded. -/
theorem mem_history_of_resolves {pid : Nat} {up : Upstream} (h : step lower w (.acts pid (.resolves up)) = some w') :
    .resolved pid up ∈ w'.history := by
  cases moves_of_step h with
  | _ => exact List.mem_cons_self

/-! ## Leaders and waiters -/

variable {pid : Nat} {v : Viewer} {phase : Phase}

theorem leader_of_request (hv : w.requests pid = some v) :
    w.leader pid = v.phase.leads.map fun done => (v.key, done) := by
  rw [Viewers.leader, hv, Option.bind_some]

/-- The leaders after a request moved to a phase. -/
theorem leader_moved (hr : w'.requests = Function.update w.requests pid (some { v with phase })) :
    w'.leader = Function.update w.leader pid (phase.leads.map fun done => (v.key, done)) := by
  funext q
  rw [Viewers.leader, hr]
  by_cases hq : q = pid
  · subst hq
    rw [Function.update_self, Function.update_self]
    rfl
  · rw [Function.update_of_ne hq, Function.update_of_ne hq]
    rfl

/-- A request that moved between phases with the same channel leaves the leaders as they are. -/
theorem leader_unmoved (hr : w'.requests = Function.update w.requests pid (some { v with phase }))
    (hleads : w.leader pid = phase.leads.map fun done => (v.key, done)) : w'.leader = w.leader := by
  rw [leader_moved hr, ← hleads, Function.update_eq_self]

/-- What a request waits on after one moved to a phase. -/
theorem awaits_moved (hr : w'.requests = Function.update w.requests pid (some { v with phase })) {q done : Nat}
    (h : w'.awaits q = some done) : w.awaits q = some done ∨ phase = .waiting done := by
  rw [Viewers.awaits, hr] at h
  by_cases hq : q = pid
  · subst hq
    rw [Function.update_self, Option.bind_some] at h
    cases phase <;> simp_all
  · rw [Function.update_of_ne hq] at h
    exact Or.inl h

/-- The claims in order: who leads holds the key with a channel it made, each channel is closed by its maker or its maker leads with
it, and what is waited on was made. -/
structure Flights (w : Viewers) : Prop where
  led : ∀ pid key done, w.leader pid = some (key, done) → w.service.inFlight key = some done
  maker : ∀ pid key done, w.leader pid = some (key, done) → w.makers[done]? = some pid
  held : ∀ key done, w.service.inFlight key = some done → ∃ pid, w.leader pid = some (key, done)
  unclosed : ∀ key done pid, w.service.inFlight key = some done → (done, pid) ∉ w.closed
  closedOnce : (w.closed.map Prod.fst).Nodup
  closedBy : ∀ done pid, (done, pid) ∈ w.closed → w.makers[done]? = some pid
  made : ∀ done pid, w.makers[done]? = some pid → (done, pid) ∈ w.closed ∨ ∃ key, w.leader pid = some (key, done)
  awaited : ∀ pid done, w.awaits pid = some done → done < w.makers.length

namespace Flights

theorem start : Flights Viewers.start where
  led _ _ _ h := nomatch h
  maker _ _ _ h := nomatch h
  held _ _ h := nomatch h
  unclosed _ _ _ h := nomatch h
  closedOnce := List.nodup_nil
  closedBy _ _ h := nomatch h
  made _ _ h := nomatch h
  awaited _ _ h := nomatch h

/-- Two leaders of a key are one. -/
theorem leader_unique (h : Flights w) {p q : Nat} {key : Bytes} {c d : Nat} (hp : w.leader p = some (key, c))
    (hq : w.leader q = some (key, d)) : p = q := by
  have hc := h.led p key c hp
  have hd := h.led q key d hq
  have heq : c = d := Option.some.inj (hc.symm.trans hd)
  have hmaker := h.maker p key c hp
  rw [heq, h.maker q key d hq] at hmaker
  exact (Option.some.inj hmaker).symm

/-- A step that changes neither the leaders nor the claims. -/
theorem quiet (h : Flights w) (hr : w'.requests = Function.update w.requests pid (some { v with phase }))
    (hleads : w.leader pid = phase.leads.map fun done => (v.key, done))
    (hservice : w'.service.inFlight = w.service.inFlight) (hmakers : w'.makers = w.makers) (hclosed : w'.closed = w.closed)
    (hwaits : ∀ done, phase = .waiting done → w.service.inFlight v.key = some done) : Flights w' := by
  have hleader := leader_unmoved hr hleads
  constructor
  case led => rw [hleader, hservice]; exact h.led
  case maker => rw [hleader, hmakers]; exact h.maker
  case held => rw [hleader, hservice]; exact h.held
  case unclosed => rw [hservice, hclosed]; exact h.unclosed
  case closedOnce => rw [hclosed]; exact h.closedOnce
  case closedBy => rw [hclosed, hmakers]; exact h.closedBy
  case made => rw [hclosed, hmakers, hleader]; exact h.made
  case awaited =>
    intro q done hq
    rw [hmakers]
    rcases awaits_moved hr hq with hold | hnew
    · exact h.awaited q done hold
    · obtain ⟨p, hp⟩ := h.held v.key done (hwaits done hnew)
      exact (List.getElem?_eq_some_iff.mp (h.maker p v.key done hp)).1

/-- A claim that succeeds. -/
theorem claimed (h : Flights w) {seen : Nat} (hv : w.requests pid = some v) (hphase : v.phase = .missed seen)
    (hfree : w.service.inFlight v.key = none) (hr : w'.requests =
      Function.update w.requests pid (some { v with phase := .leading w.makers.length seen }))
    (hservice : w'.service.inFlight = Function.update w.service.inFlight v.key (some w.makers.length))
    (hmakers : w'.makers = w.makers ++ [pid]) (hclosed : w'.closed = w.closed) : Flights w' := by
  have hleader : w'.leader = Function.update w.leader pid (some (v.key, w.makers.length)) := leader_moved hr
  have hnone : w.leader pid = none := by rw [leader_of_request hv, hphase]; rfl
  have hnew : w.makers[w.makers.length]? = none := List.getElem?_eq_none le_rfl
  have hold : ∀ done q : Nat, w.makers[done]? = some q → (w.makers ++ [pid])[done]? = some q := by
    intro done q hq
    rw [List.getElem?_append_left (List.getElem?_eq_some_iff.mp hq).1, hq]
  -- a leader is the new one, or an old one of another key
  have hcases : ∀ q key done, w'.leader q = some (key, done) →
      (q = pid ∧ key = v.key ∧ done = w.makers.length) ∨ (q ≠ pid ∧ key ≠ v.key ∧ w.leader q = some (key, done)) := by
    intro q key done hq
    rw [hleader] at hq
    by_cases hpid : q = pid
    · subst hpid
      rw [Function.update_self] at hq
      cases hq
      exact Or.inl ⟨rfl, rfl, rfl⟩
    · rw [Function.update_of_ne hpid] at hq
      refine Or.inr ⟨hpid, fun hkey => ?_, hq⟩
      have hin := h.led q key done hq
      rw [hkey, hfree] at hin
      cases hin
  have hkeep : ∀ q key done, w.leader q = some (key, done) → w'.leader q = some (key, done) := by
    intro q key done hq
    have hne : q ≠ pid := by
      rintro rfl
      rw [hnone] at hq
      cases hq
    rw [hleader, Function.update_of_ne hne, hq]
  constructor
  case led =>
    intro q key done hq
    rw [hservice]
    rcases hcases q key done hq with ⟨-, rfl, rfl⟩ | ⟨-, hkey, hq⟩
    · exact Function.update_self ..
    · rw [Function.update_of_ne hkey, h.led q key done hq]
  case maker =>
    intro q key done hq
    rw [hmakers]
    rcases hcases q key done hq with ⟨rfl, -, rfl⟩ | ⟨-, -, hq⟩
    · exact List.getElem?_concat_length
    · exact hold done q (h.maker q key done hq)
  case held =>
    intro key done hin
    rw [hservice] at hin
    by_cases hkey : key = v.key
    · subst hkey
      rw [Function.update_self] at hin
      cases hin
      exact ⟨pid, by rw [hleader, Function.update_self]⟩
    · rw [Function.update_of_ne hkey] at hin
      obtain ⟨q, hq⟩ := h.held key done hin
      exact ⟨q, hkeep q key done hq⟩
  case unclosed =>
    intro key done q hin
    rw [hservice] at hin
    rw [hclosed]
    by_cases hkey : key = v.key
    · subst hkey
      rw [Function.update_self] at hin
      cases hin
      intro hmem
      have hq := h.closedBy _ q hmem
      rw [hnew] at hq
      cases hq
    · rw [Function.update_of_ne hkey] at hin
      exact h.unclosed key done q hin
  case closedOnce => rw [hclosed]; exact h.closedOnce
  case closedBy =>
    intro done q hmem
    rw [hclosed] at hmem
    rw [hmakers]
    exact hold done q (h.closedBy done q hmem)
  case made =>
    intro done q hq
    rw [hmakers] at hq
    rw [hclosed]
    by_cases hlt : done < w.makers.length
    · rw [List.getElem?_append_left hlt] at hq
      refine (h.made done q hq).imp_right fun ⟨key, hkey⟩ => ⟨key, hkeep q key done hkey⟩
    · rw [List.getElem?_append_right (by omega)] at hq
      obtain ⟨hlen, hval⟩ := List.getElem?_eq_some_iff.mp hq
      rw [List.length_singleton] at hlen
      have hdone : done = w.makers.length := by omega
      subst hdone
      rw [List.getElem_singleton] at hval
      subst hval
      exact Or.inr ⟨v.key, by rw [hleader, Function.update_self]⟩
  case awaited =>
    intro q done hq
    rw [hmakers, List.length_append]
    rcases awaits_moved hr hq with hq | hq
    · exact Nat.lt_add_right _ (h.awaited q done hq)
    · cases hq

/-- A release, by the leader of the key. -/
theorem released (h : Flights w) {done : Nat} {result : Result} (hlead : w.leader pid = some (v.key, done))
    (hr : w'.requests = Function.update w.requests pid (some { v with phase := .finished result }))
    (hservice : w'.service.inFlight = Function.update w.service.inFlight v.key none)
    (hmakers : w'.makers = w.makers) (hclosed : w'.closed = (done, pid) :: w.closed) : Flights w' := by
  have hleader : w'.leader = Function.update w.leader pid none := leader_moved hr
  have hin := h.led pid v.key done hlead
  have hmaker := h.maker pid v.key done hlead
  -- the other leaders lead other keys, with other channels
  have hcases : ∀ q key c, w'.leader q = some (key, c) →
      q ≠ pid ∧ key ≠ v.key ∧ c ≠ done ∧ w.leader q = some (key, c) := by
    intro q key c hq
    rw [hleader] at hq
    by_cases hpid : q = pid
    · subst hpid
      rw [Function.update_self] at hq
      cases hq
    · rw [Function.update_of_ne hpid] at hq
      refine ⟨hpid, ?_, ?_, hq⟩
      · rintro rfl
        exact hpid (h.leader_unique hq hlead)
      · rintro rfl
        have hother := h.maker q key c hq
        rw [hmaker] at hother
        exact hpid (Option.some.inj hother).symm
  have hkeep : ∀ q key c, key ≠ v.key → w.leader q = some (key, c) → w'.leader q = some (key, c) := by
    intro q key c hkey hq
    have hne : q ≠ pid := by
      rintro rfl
      rw [hlead] at hq
      cases hq
      exact hkey rfl
    rw [hleader, Function.update_of_ne hne, hq]
  have hstill : ∀ key c, w'.service.inFlight key = some c → key ≠ v.key ∧ w.service.inFlight key = some c := by
    intro key c hc
    rw [hservice] at hc
    by_cases hkey : key = v.key
    · rw [hkey, Function.update_self] at hc
      cases hc
    · rw [Function.update_of_ne hkey] at hc
      exact ⟨hkey, hc⟩
  constructor
  case led =>
    intro q key c hq
    obtain ⟨-, hkey, -, hq⟩ := hcases q key c hq
    rw [hservice, Function.update_of_ne hkey, h.led q key c hq]
  case maker =>
    intro q key c hq
    obtain ⟨-, -, -, hq⟩ := hcases q key c hq
    rw [hmakers, h.maker q key c hq]
  case held =>
    intro key c hc
    obtain ⟨hkey, hc⟩ := hstill key c hc
    obtain ⟨q, hq⟩ := h.held key c hc
    exact ⟨q, hkeep q key c hkey hq⟩
  case unclosed =>
    intro key c q hc hmem
    obtain ⟨hkey, hc⟩ := hstill key c hc
    rw [hclosed] at hmem
    rcases List.mem_cons.mp hmem with heq | hmem
    · cases heq
      obtain ⟨q, hq⟩ := h.held key done hc
      exact (hcases q key done (hkeep q key done hkey hq)).2.2.1 rfl
    · exact h.unclosed key c q hc hmem
  case closedOnce =>
    rw [hclosed, List.map_cons, List.nodup_cons]
    refine ⟨fun hmem => ?_, h.closedOnce⟩
    obtain ⟨⟨c, q⟩, hc, rfl⟩ := List.mem_map.mp hmem
    exact h.unclosed v.key c q hin hc
  case closedBy =>
    intro c q hmem
    rw [hclosed] at hmem
    rw [hmakers]
    rcases List.mem_cons.mp hmem with heq | hmem
    · cases heq
      exact hmaker
    · exact h.closedBy c q hmem
  case made =>
    intro c q hq
    rw [hmakers] at hq
    rw [hclosed]
    rcases h.made c q hq with hmem | ⟨key, hkey⟩
    · exact Or.inl (List.mem_cons_of_mem _ hmem)
    · by_cases hpid : q = pid
      · subst hpid
        rw [hlead] at hkey
        cases hkey
        exact Or.inl List.mem_cons_self
      · exact Or.inr ⟨key, by rw [hleader, Function.update_of_ne hpid, hkey]⟩
  case awaited =>
    intro q c hq
    rw [hmakers]
    rcases awaits_moved hr hq with hq | hq
    · exact h.awaited q c hq
    · cases hq

/-- Every event keeps the claims in order. -/
theorem step (h : Flights w) (hstep : step lower w e = some w') : Flights w' := by
  cases moves_of_step hstep with
  | arrives hnew =>
    refine h.quiet rfl ?_ rfl rfl rfl nofun
    rw [Viewers.leader, hnew]
    rfl
  | hits hv hphase hnow hit =>
    exact h.quiet rfl (by rw [leader_of_request hv, hphase]; rfl) rfl rfl rfl nofun
  | misses hv hphase hnow hmiss =>
    exact h.quiet rfl (by rw [leader_of_request hv, hphase]; rfl) rfl rfl rfl nofun
  | leads hv hphase hfree => exact h.claimed hv hphase hfree rfl rfl rfl rfl
  | waits hv hphase hheld =>
    refine h.quiet rfl (by rw [leader_of_request hv, hphase]; rfl) rfl rfl rfl fun done heq => ?_
    cases heq
    exact hheld
  | wakes hv hphase hclosed =>
    exact h.quiet rfl (by rw [leader_of_request hv, hphase]; rfl) rfl rfl rfl nofun
  | cancels hv hphase =>
    exact h.quiet rfl (by rw [leader_of_request hv, hphase]; rfl) rfl rfl rfl nofun
  | starts hv hphase hnow =>
    exact h.quiet rfl (by rw [leader_of_request hv, hphase]; rfl) rfl rfl rfl nofun
  | resolves hv hphase hresolve =>
    exact h.quiet rfl (by rw [leader_of_request hv, hphase]; rfl) rfl rfl rfl nofun
  | fails hv hphase hresolve =>
    exact h.quiet rfl (by rw [leader_of_request hv, hphase]; rfl) rfl rfl rfl nofun
  | panics hv hphase =>
    exact h.quiet rfl (by rw [leader_of_request hv, hphase]; rfl) rfl rfl rfl nofun
  | stores hv hphase =>
    exact h.quiet rfl (by rw [leader_of_request hv, hphase]; rfl) (Service.store_inFlight ..) rfl rfl nofun
  | @releases pid done v result hv hphase =>
    have hlead : w.leader pid = some (v.key, done) := by
      rw [leader_of_request hv, hphase]
      rfl
    have hin := h.led pid v.key done hlead
    refine @released w _ pid v h done result hlead rfl ?_ rfl ?_ <;> simp [Service.release, hin]

end Flights

/-! ## Outcomes -/

/-- What a request stored, it serves. -/
def Deposited (w : Viewers) : Prop :=
  ∀ pid key value, .stored pid key value ∈ w.history →
    ∃ v, w.requests pid = some v ∧ v.key = key ∧ v.phase.result = some (.served value)

namespace Deposited

theorem start : Deposited Viewers.start := fun _ _ _ h => nomatch h

/-- A step of a request that has no result yet, or keeps it. -/
theorem moved (h : Deposited w) (hr : w'.requests = Function.update w.requests pid (some { v with phase }))
    (hold : ∀ u, w.requests pid = some u → u.key = v.key ∧ ∀ result, u.phase.result = some result → phase.result = some result)
    (hnew : ∀ q key value, .stored q key value ∈ w'.history → .stored q key value ∈ w.history ∨
      q = pid ∧ key = v.key ∧ phase.result = some (.served value)) : Deposited w' := by
  intro q key value hmem
  rw [hr]
  rcases hnew q key value hmem with hmem | ⟨rfl, rfl, hresult⟩
  · obtain ⟨u, hu, hkey, hresult⟩ := h q key value hmem
    by_cases hq : q = pid
    · subst hq
      obtain ⟨hsame, hkeep⟩ := hold u hu
      exact ⟨{ v with phase }, Function.update_self .., hsame.symm.trans hkey, hkeep _ hresult⟩
    · exact ⟨u, by rw [Function.update_of_ne hq, hu], hkey, hresult⟩
  · exact ⟨{ v with phase }, Function.update_self .., rfl, hresult⟩

/-- A step of a request without a result, which stores nothing. -/
theorem quiet (h : Deposited w) (hv : w.requests pid = some v) (hphase : v.phase.result = none)
    (hr : w'.requests = Function.update w.requests pid (some { v with phase }))
    (hnew : ∀ q key value, .stored q key value ∈ w'.history → .stored q key value ∈ w.history) : Deposited w' := by
  refine h.moved hr (fun u hu => ?_) fun q key value hmem => Or.inl (hnew q key value hmem)
  rw [hv] at hu
  cases hu
  refine ⟨rfl, fun result hresult => ?_⟩
  rw [hphase] at hresult
  cases hresult

theorem step (h : Deposited w) (hstep : step lower w e = some w') : Deposited w' := by
  have hcons : ∀ {note : Note} {q key value}, (∀ q key value, note ≠ .stored q key value) →
      .stored q key value ∈ note :: w.history → .stored q key value ∈ w.history := by
    intro note q key value hne hmem
    rcases List.mem_cons.mp hmem with heq | hmem
    · exact absurd heq.symm (hne q key value)
    · exact hmem
  cases moves_of_step hstep with
  | arrives hnew =>
    refine h.moved (v := ⟨_, _, .looking⟩) rfl (fun u hu => ?_) fun _ _ _ hmem => Or.inl hmem
    rw [hnew] at hu
    cases hu
  | hits hv hphase hnow hit => exact h.quiet hv (by rw [hphase]; rfl) rfl fun _ _ _ hmem => hmem
  | misses hv hphase hnow hmiss => exact h.quiet hv (by rw [hphase]; rfl) rfl fun _ _ _ hmem => hmem
  | leads hv hphase hfree => exact h.quiet hv (by rw [hphase]; rfl) rfl fun _ _ _ hmem => hmem
  | waits hv hphase hheld => exact h.quiet hv (by rw [hphase]; rfl) rfl fun _ _ _ hmem => hmem
  | wakes hv hphase hclosed => exact h.quiet hv (by rw [hphase]; rfl) rfl fun _ _ _ hmem => hmem
  | cancels hv hphase => exact h.quiet hv (by rw [hphase]; rfl) rfl fun _ _ _ hmem => hmem
  | starts hv hphase hnow => exact h.quiet hv (by rw [hphase]; rfl) rfl fun _ _ _ => hcons nofun
  | resolves hv hphase hresolve => exact h.quiet hv (by rw [hphase]; rfl) rfl fun _ _ _ => hcons nofun
  | fails hv hphase hresolve => exact h.quiet hv (by rw [hphase]; rfl) rfl fun _ _ _ => hcons nofun
  | panics hv hphase => exact h.quiet hv (by rw [hphase]; rfl) rfl fun _ _ _ hmem => hmem
  | @stores pid done v value hv hphase =>
    refine @moved w _ pid v (.releasing done (.served value)) h rfl (fun u hu => ?_) fun q key stored hmem => ?_
    · rw [hv] at hu
      cases hu
      rw [hphase]
      exact ⟨rfl, nofun⟩
    · rcases List.mem_append.mp hmem with hmem | hmem
      · obtain ⟨_, -, heq⟩ := List.mem_map.mp hmem
        cases heq
      · rcases List.mem_cons.mp hmem with heq | hmem
        · cases heq
          exact Or.inr ⟨rfl, rfl, rfl⟩
        · exact Or.inl hmem
  | @releases pid done v result hv hphase =>
    refine @moved w _ pid v (.finished result) h rfl (fun u hu => ?_) fun _ _ _ hmem => Or.inl hmem
    rw [hv] at hu
    cases hu
    rw [hphase]
    exact ⟨rfl, fun _ heq => heq⟩

end Deposited

end Icons

end Soroscan
