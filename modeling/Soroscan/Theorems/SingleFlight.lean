import Soroscan.Lemmas.Viewers

/-!
# One flight per asset

Whatever the order of the steps, whatever comes of the resolutions and whoever stops waiting: at most one request per key is
between its claim and its release, every channel is closed once, by the request that made it, and nobody waits on a channel that
is left open. Only a store changes the cache, and a request whose resolution failed stores nothing.
-/

namespace Soroscan

namespace Icons

/-- One request per key holds its claim, with a channel of its own that it closes when it releases the claim. -/
structure SingleFlight (w : Viewers) : Prop where
  oneLeader : ∀ p q key c d, w.leader p = some (key, c) → w.leader q = some (key, d) → p = q
  ownedInFlight : ∀ key done, w.service.inFlight key = some done → ∃! pid, w.leader pid = some (key, done)
  openWhileLed : ∀ pid key done, w.leader pid = some (key, done) → done ∉ w.closed.map Prod.fst
  closedOnce : (w.closed.map Prod.fst).Nodup
  closedByMaker : ∀ done pid, (done, pid) ∈ w.closed → w.makers[done]? = some pid
  ledOrClosed : ∀ done pid, w.makers[done]? = some pid → (∃ key, w.leader pid = some (key, done)) ∨ (done, pid) ∈ w.closed
  noLostWaiter : ∀ pid done, w.awaits pid = some done →
    done ∈ w.closed.map Prod.fst ∨ ∃ leader key, w.leader leader = some (key, done)

/-- A request whose resolution failed has stored nothing. -/
def FailuresStoreNothing (w : Viewers) : Prop :=
  ∀ pid v, w.requests pid = some v → (v.phase.result = some .panicked ∨ ∃ error, v.phase.result = some (.failed error)) →
    ∀ key value, .stored pid key value ∉ w.history

/-- A channel that an event closes is closed by the release of its leader. -/
def ClosesByRelease (w : Viewers) (e : Event) (w' : Viewers) : Prop :=
  ∀ done, done ∈ w'.closed.map Prod.fst → done ∉ w.closed.map Prod.fst →
    ∃ pid key, e = .acts pid .releases ∧ w.leader pid = some (key, done)

/-- Any event but the store of an outcome leaves the cache as it is. -/
def CachesByStore (w : Viewers) (e : Event) (w' : Viewers) : Prop :=
  (∀ pid, e ≠ .acts pid .stores) → w'.service.cache = w.service.cache ∧ w'.service.order = w.service.order ∧
    w'.service.cacheBytes = w.service.cacheBytes

variable {lower : Char → Char} {w w' : Viewers} {e : Event}

theorem Flights.singleFlight (h : Flights w) : SingleFlight w where
  oneLeader _ _ _ _ _ hp hq := h.leader_unique hp hq
  ownedInFlight key done hin := by
    obtain ⟨pid, hpid⟩ := h.held key done hin
    exact ⟨pid, hpid, fun q hq => h.leader_unique hq hpid⟩
  openWhileLed pid key done hlead hmem := by
    obtain ⟨⟨c, q⟩, hc, rfl⟩ := List.mem_map.mp hmem
    exact h.unclosed key c q (h.led pid key c hlead) hc
  closedOnce := h.closedOnce
  closedByMaker := h.closedBy
  ledOrClosed done pid hmade := (h.made done pid hmade).symm
  noLostWaiter pid done hwait := by
    have hlt := h.awaited pid done hwait
    rcases h.made done w.makers[done] (List.getElem?_eq_getElem hlt) with hmem | ⟨key, hkey⟩
    · exact Or.inl (List.mem_map_of_mem hmem)
    · exact Or.inr ⟨_, key, hkey⟩

theorem Deposited.failuresStoreNothing (h : Deposited w) : FailuresStoreNothing w := by
  intro pid v hv hresult key value hmem
  obtain ⟨u, hu, -, hserved⟩ := h pid key value hmem
  rw [hv] at hu
  cases hu
  rcases hresult with hresult | ⟨error, hresult⟩
  · rw [hserved] at hresult
    cases hresult
  · rw [hserved] at hresult
    cases hresult

theorem Flights.closesByRelease (h : Flights w) (hstep : Icons.step lower w e = some w') : ClosesByRelease w e w' := by
  intro done hmem hnot
  cases moves_of_step hstep with
  | @releases pid c v result hv hphase =>
    have hlead : w.leader pid = some (v.key, c) := by
      rw [leader_of_request hv, hphase]
      rfl
    have hdone : done = c := by
      simpa [Service.release, h.led pid v.key c hlead, hnot] using hmem
    exact ⟨pid, v.key, rfl, hdone ▸ hlead⟩
  | _ => exact absurd hmem hnot

theorem cachesByStore (hstep : step lower w e = some w') : CachesByStore w e w' := by
  intro hne
  cases moves_of_step hstep with
  | @stores pid _ _ _ hv hphase => exact absurd rfl (hne pid)
  | @releases _ _ v _ hv hphase =>
    show (w.service.release v.key).1.cache = _ ∧ (w.service.release v.key).1.order = _ ∧ _
    unfold Service.release
    cases w.service.inFlight v.key <;> exact ⟨rfl, rfl, rfl⟩
  | _ => exact ⟨rfl, rfl, rfl⟩

/-- In every state of every run, at most one request per key is between its claim and its release; the channels in flight are its
own, each is closed once, by its release, and nobody waits on a channel that stays open. A resolution that fails leaves the cache
as it was. -/
theorem one_flight (lower : Char → Char) (events : List Event) : ∀ w ∈ states (step lower) Viewers.start events,
    SingleFlight w ∧ FailuresStoreNothing w ∧
      ∀ e w', step lower w e = some w' → ClosesByRelease w e w' ∧ CachesByStore w e w' := by
  intro w hw
  have hflights : Flights w := states_invariant (fun _ _ _ h hstep => Flights.step h hstep) Flights.start events w hw
  have hdeposited : Deposited w := states_invariant (fun _ _ _ h hstep => Deposited.step h hstep) Deposited.start events w hw
  exact ⟨hflights.singleFlight, hdeposited.failuresStoreNothing, fun e w' hstep =>
    ⟨hflights.closesByRelease hstep, cachesByStore hstep⟩⟩

/-- A Horizon that is down. -/
def downUpstream : Upstream := ⟨.failed .unreachable, .failed .unreachable, .failed .unreachable⟩

/-- Two requests for an asset: the first one's resolution fails while the second one waits, and the second one leads next. -/
def secondLeads : List Event :=
  [.arrives 0 (utf8 "AQUA") (utf8 "G"), .arrives 1 (utf8 "AQUA") (utf8 "G"), .acts 0 (.looks 5), .acts 1 (.looks 6), .acts 0 .claims,
   .acts 1 .claims, .acts 0 (.starts 7), .acts 0 (.resolves downUpstream), .acts 0 .releases, .acts 1 .wakes, .acts 1 (.looks 8),
   .acts 1 .claims]

theorem one_flight_secondLeads : ∃ w, run (step id) Viewers.start secondLeads = some w ∧ w.closed = [(0, 0)] ∧
    w.leader 1 = some (utf8 "AQUA:G", 1) ∧ SingleFlight w := by
  have h : (run (step id) Viewers.start secondLeads).map (fun w => (w.closed, w.leader 1)) =
      some ([(0, 0)], some (utf8 "AQUA:G", 1)) := by decide
  obtain ⟨w, hw, heq⟩ := Option.map_eq_some_iff.mp h
  exact ⟨w, hw, congrArg Prod.fst heq, congrArg Prod.snd heq, (one_flight id secondLeads w (run_mem_states hw)).1⟩

end Icons

end Soroscan
