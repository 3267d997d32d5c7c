import Soroscan.Lemmas.Viewers

/-!
# One resolution per ttl

A request looks its asset up and claims it in two steps. In between, another request may store an outcome and release its claim;
the request then claims the key and resolves it again. This is the only way an outcome is resolved again before its ttl has
passed: the resolutions of a key come one per ttl exactly when no request that starts one has missed an outcome so.
-/

namespace Soroscan

namespace Icons

/-- The outcomes of a key in some notes are expired at a time. -/
def OutcomesExpired (key : Bytes) (notes : List Note) (now : Nat) : Prop :=
  ∀ pid value, .stored pid key value ∈ notes → value.expired now = true

/-- No resolution of the key starts before the ttl of an outcome that was stored earlier has passed. -/
def OncePerTtl (key : Bytes) (w : Viewers) : Prop :=
  w.history.Pairwise fun later earlier =>
    ∀ now pid value, later = .started key now → earlier = .stored pid key value → value.expired now = true

/-- The condition on an event. When a request starts to resolve the key, the outcomes that were stored since it looked the key up
have expired. -/
def MissedNothing (key : Bytes) (w : Viewers) : Event → Prop
  | .acts pid (.starts now) => ∀ v done seen, w.requests pid = some v → v.key = key → v.phase = .leading done seen →
      OutcomesExpired key (w.history.take (w.history.length - seen)) now
  | _ => True

/-- How many notes there were when the request looked its key up, until it starts to resolve it. -/
def Phase.seen : Phase → Option Nat
  | .missed seen => some seen
  | .leading _ seen => some seen
  | _ => none

/-- A request is resolving its key, or about to store the outcome. -/
def Phase.working : Phase → Bool
  | .resolving _ _ => true
  | .storing _ _ => true
  | _ => false

/-! ## Outcomes and time -/

theorem Entry.expired_mono {e : Entry} {a b : Nat} (hle : a ≤ b) (h : e.expired a = true) : e.expired b = true := by
  unfold Entry.expired at h ⊢
  rw [decide_eq_true_iff] at h ⊢
  omega

variable {key : Bytes} {notes rest : List Note} {now later : Nat}

theorem OutcomesExpired.mono (h : OutcomesExpired key notes now) (hle : now ≤ later) : OutcomesExpired key notes later :=
  fun pid value hmem => Entry.expired_mono hle (h pid value hmem)

theorem outcomesExpired_append :
    OutcomesExpired key (notes ++ rest) now ↔ OutcomesExpired key notes now ∧ OutcomesExpired key rest now := by
  simp only [OutcomesExpired, List.mem_append, or_imp, forall_and]

/-- Notes without an outcome of the key. -/
theorem OutcomesExpired.of_none (h : ∀ pid value, .stored pid key value ∉ notes) : OutcomesExpired key notes now :=
  fun pid value hmem => absurd hmem (h pid value)

/-- Notes are added after those a request has seen. -/
theorem drop_seen {seen : Nat} (hseen : seen ≤ rest.length) :
    (notes ++ rest).drop ((notes ++ rest).length - seen) = rest.drop (rest.length - seen) := by
  rw [List.length_append, show notes.length + rest.length - seen = notes.length + (rest.length - seen) by omega,
    List.drop_append, List.drop_eq_nil_of_le (by omega), List.nil_append, Nat.add_sub_cancel_left]

/-- A start is early when an outcome before it has its ttl left. -/
theorem oncePerTtl_started {w w' : Viewers} (h : w'.history = .started key now :: w.history) :
    OncePerTtl key w' ↔ OutcomesExpired key w.history now ∧ OncePerTtl key w := by
  rw [OncePerTtl, h, List.pairwise_cons]
  refine and_congr_left fun _ => ⟨fun hall pid value hmem => hall _ hmem now pid value rfl rfl, fun hall note hmem => ?_⟩
  intro now' pid value hstart hstored
  cases hstart
  exact hall pid value (hstored ▸ hmem)

/-- Notes other than a start of the key. -/
theorem oncePerTtl_append {w w' : Viewers} (h : w'.history = notes ++ w.history) (hnone : ∀ now, .started key now ∉ notes) :
    OncePerTtl key w' ↔ OncePerTtl key w := by
  rw [OncePerTtl, h, List.pairwise_append]
  have hstart : ∀ later ∈ notes, ∀ earlier, ∀ now pid value, later = .started key now →
      earlier = Note.stored pid key value → value.expired now = true := by
    rintro later hmem _ now _ _ rfl
    exact absurd hmem (hnone now)
  exact ⟨fun ⟨_, hold, _⟩ => hold, fun hold =>
    ⟨List.pairwise_of_forall_mem_list fun a ha b _ => hstart a ha b, hold, fun a ha b _ => hstart a ha b⟩⟩

/-! ## The invariant -/

variable {lower : Char → Char} {w w' : Viewers} {e : Event} {pid : Nat} {v : Viewer} {phase : Phase}

/-- The cache holds the outcome of the key that has its ttl left. What a request had seen when it missed is expired, and so is
everything while a request is working. -/
structure Caching (key : Bytes) (w : Viewers) : Prop where
  cached : ∀ pid value, .stored pid key value ∈ w.history → value.expired w.clock = true ∨ w.service.cache key = some value
  missed : ∀ pid v seen, w.requests pid = some v → v.key = key → v.phase.seen = some seen →
    seen ≤ w.history.length ∧ OutcomesExpired key (w.history.drop (w.history.length - seen)) w.clock
  working : ∀ pid v, w.requests pid = some v → v.key = key → v.phase.working = true → OutcomesExpired key w.history w.clock

namespace Caching

theorem start : Caching key Viewers.start where
  cached _ _ h := nomatch h
  missed _ _ _ h := nomatch h
  working _ _ h := nomatch h

/-- A step that adds no outcome of the key. -/
theorem moved (h : Caching key w) (hr : w'.requests = Function.update w.requests pid (some { v with phase }))
    (hclock : w.clock ≤ w'.clock) (hcache : w'.service.cache key = w.service.cache key)
    (hhistory : w'.history = notes ++ w.history) (hnone : ∀ pid value, .stored pid key value ∉ notes)
    (hseen : v.key = key → ∀ seen, phase.seen = some seen →
      seen ≤ w.history.length ∧ OutcomesExpired key (w.history.drop (w.history.length - seen)) w'.clock)
    (hworking : v.key = key → phase.working = true → OutcomesExpired key w.history w'.clock) : Caching key w' := by
  have hold : ∀ q u, w'.requests q = some u → (u = { v with phase }) ∨ w.requests q = some u := by
    intro q u hu
    rw [hr] at hu
    by_cases hq : q = pid
    · subst hq
      rw [Function.update_self] at hu
      exact Or.inl (Option.some.inj hu).symm
    · rw [Function.update_of_ne hq] at hu
      exact Or.inr hu
  constructor
  case cached =>
    intro q value hmem
    rw [hhistory] at hmem
    rcases List.mem_append.mp hmem with hmem | hmem
    · exact absurd hmem (hnone q value)
    · rw [hcache]
      exact (h.cached q value hmem).imp_left (Entry.expired_mono hclock)
  case missed =>
    intro q u seen hu hkey hphase
    have hboth : seen ≤ w.history.length ∧ OutcomesExpired key (w.history.drop (w.history.length - seen)) w'.clock := by
      rcases hold q u hu with rfl | hu
      · exact hseen hkey seen hphase
      · exact (h.missed q u seen hu hkey hphase).imp_right fun hdrop => hdrop.mono hclock
    rw [hhistory, drop_seen hboth.1]
    exact ⟨by rw [List.length_append]; omega, hboth.2⟩
  case working =>
    intro q u hu hkey hphase
    rw [hhistory, outcomesExpired_append]
    refine ⟨OutcomesExpired.of_none hnone, ?_⟩
    rcases hold q u hu with rfl | hu
    · exact hworking hkey hphase
    · exact (h.working q u hu hkey hphase).mono hclock

/-- A step of a request that begins nothing and goes on with what it was at. -/
theorem quiet (h : Caching key w) (hv : w.requests pid = some v)
    (hr : w'.requests = Function.update w.requests pid (some { v with phase }))
    (hclock : w.clock ≤ w'.clock) (hcache : w'.service.cache key = w.service.cache key)
    (hhistory : w'.history = notes ++ w.history) (hnone : ∀ pid value, .stored pid key value ∉ notes)
    (hseen : ∀ seen, phase.seen = some seen → v.phase.seen = some seen)
    (hworking : phase.working = true → v.phase.working = true) : Caching key w' := by
  refine h.moved hr hclock hcache hhistory hnone (fun hkey seen hphase => ?_) fun hkey hphase => ?_
  · exact (h.missed pid v seen hv hkey (hseen seen hphase)).imp_right fun hdrop => hdrop.mono hclock
  · exact (h.working pid v hv hkey (hworking hphase)).mono hclock

/-- The store of an outcome of the key. -/
theorem stored (h : Caching key w) (hf : Flights w) {done : Nat} {value : Entry} (hv : w.requests pid = some v)
    (hkey : v.key = key) (hphase : v.phase = .storing done value)
    (hr : w'.requests = Function.update w.requests pid (some { v with phase := .releasing done (.served value) }))
    (hclock : w'.clock = w.clock) (hcache : w'.service.cache key = some value)
    (hhistory : w'.history = notes ++ .stored pid key value :: w.history) (hnone : ∀ pid value, .stored pid key value ∉ notes) :
    Caching key w' := by
  have hall : OutcomesExpired key w.history w.clock := h.working pid v hv hkey (by rw [hphase]; rfl)
  have hlead : w.leader pid = some (key, done) := by rw [leader_of_request hv, hphase, hkey]; rfl
  have hother : ∀ q u, w'.requests q = some u → u.phase.seen ≠ none ∨ u.phase.working = true → q ≠ pid ∧ w.requests q = some u := by
    intro q u hu hat
    rw [hr] at hu
    by_cases hq : q = pid
    · subst hq
      rw [Function.update_self] at hu
      cases hu
      rcases hat with hat | hat <;> simp [Phase.seen, Phase.working] at hat
    · rw [Function.update_of_ne hq] at hu
      exact ⟨hq, hu⟩
  constructor
  case cached =>
    intro q stored hmem
    rw [hhistory] at hmem
    rw [hclock, hcache]
    rcases List.mem_append.mp hmem with hmem | hmem
    · exact absurd hmem (hnone q stored)
    · rcases List.mem_cons.mp hmem with heq | hmem
      · cases heq
        exact Or.inr rfl
      · exact Or.inl (hall q stored hmem)
  case missed =>
    intro q u seen hu hukey hseen
    obtain ⟨-, hu⟩ := hother q u hu (Or.inl (by rw [hseen]; exact nofun))
    obtain ⟨hle, hdrop⟩ := h.missed q u seen hu hukey hseen
    rw [hhistory, List.append_cons, drop_seen hle, hclock]
    refine ⟨?_, hdrop⟩
    rw [List.length_append]
    omega
  case working =>
    -- whoever works on the key leads it, and the leader has just stored
    intro q u hu hukey hwork
    obtain ⟨hne, hu⟩ := hother q u hu (Or.inr hwork)
    obtain ⟨c, hc⟩ : ∃ c, w.leader q = some (key, c) := by
      rw [leader_of_request hu, hukey]
      cases hp : u.phase <;> simp_all [Phase.working, Phase.leads]
    exact absurd (hf.leader_unique hc hlead) hne

/-- Every event keeps the cache in order, as long as the key is not evicted and no start is early. -/
theorem step (h : Caching key w) (hf : Flights w) (hkept : .evicted key ∉ w'.history) (honce : OncePerTtl key w')
    (hstep : step lower w e = some w') : Caching key w' := by
  have hnil : ∀ pid value, Note.stored pid key value ∉ ([] : List Note) := fun _ _ => List.not_mem_nil
  have hone : ∀ {note : Note}, (∀ pid value, note ≠ .stored pid key value) → ∀ pid value, Note.stored pid key value ∉ [note] :=
    fun hne pid value hmem => hne pid value (List.mem_singleton.mp hmem).symm
  cases moves_of_step hstep with
  | arrives hnew => exact h.moved (v := ⟨_, _, .looking⟩) rfl le_rfl rfl (List.nil_append _).symm hnil (fun _ => nofun) fun _ => nofun
  | hits hv hphase hnow hit => exact h.quiet hv rfl hnow rfl (List.nil_append _).symm hnil nofun nofun
  | misses hv hphase hnow hmiss =>
    refine h.moved rfl hnow rfl (List.nil_append _).symm hnil (fun hkey seen hseen => ?_) fun _ => nofun
    cases hseen
    rw [Nat.sub_self, List.drop_zero]
    refine ⟨le_rfl, fun q value hmem => ?_⟩
    rcases h.cached q value hmem with hexpired | hcached
    · exact Entry.expired_mono hnow hexpired
    · exact Service.expired_of_lookup_none hmiss (hkey ▸ hcached)
  | leads hv hphase hfree =>
    exact h.quiet hv rfl le_rfl rfl (List.nil_append _).symm hnil (fun seen hseen => by rw [hphase]; exact hseen) nofun
  | waits hv hphase hheld => exact h.quiet hv rfl le_rfl rfl (List.nil_append _).symm hnil nofun nofun
  | wakes hv hphase hclosed => exact h.quiet hv rfl le_rfl rfl (List.nil_append _).symm hnil nofun nofun
  | cancels hv hphase => exact h.quiet hv rfl le_rfl rfl (List.nil_append _).symm hnil nofun nofun
  | starts hv hphase hnow =>
    refine h.moved rfl hnow rfl (List.singleton_append).symm (hone nofun) (fun _ => nofun) fun hkey _ => ?_
    subst hkey
    exact ((oncePerTtl_started rfl).mp honce).1
  | resolves hv hphase hresolve =>
    exact h.quiet hv rfl le_rfl rfl (List.singleton_append).symm (hone nofun) nofun fun _ => by rw [hphase]; rfl
  | fails hv hphase hresolve =>
    exact h.quiet hv rfl le_rfl rfl (List.singleton_append).symm (hone nofun) nofun nofun
  | panics hv hphase => exact h.quiet hv rfl le_rfl rfl (List.nil_append _).symm hnil nofun nofun
  | @stores pid done v value hv hphase =>
    have hkept : key ∉ (w.service.store v.key value).2 := fun hmem =>
      hkept (List.mem_append_left _ (List.mem_map_of_mem hmem))
    have hevicted : ∀ q stored, Note.stored q key stored ∉ (w.service.store v.key value).2.map Note.evicted := by
      intro q stored hmem
      obtain ⟨_, -, heq⟩ := List.mem_map.mp hmem
      cases heq
    by_cases hkey : v.key = key
    · subst hkey
      exact h.stored hf hv rfl hphase rfl rfl (Service.store_cache_self hkept) rfl hevicted
    · refine h.quiet hv rfl le_rfl (Service.store_cache_ne (Ne.symm hkey) hkept) (List.append_cons ..) (fun q stored hmem => ?_)
        nofun nofun
      rcases List.mem_append.mp hmem with hmem | hmem
      · exact hevicted q stored hmem
      · cases List.mem_singleton.mp hmem
        exact hkey rfl
  | @releases pid done v result hv hphase =>
    refine h.quiet hv rfl le_rfl ?_ (List.nil_append _).symm hnil nofun nofun
    show (w.service.release v.key).1.cache key = _
    unfold Service.release
    cases w.service.inFlight v.key <;> rfl

end Caching

/-! ## Once per ttl -/

/-- A start keeps the resolutions apart exactly when its request has missed nothing; any other event keeps them so. -/
theorem oncePerTtl_step (h : Caching key w) (honce : OncePerTtl key w) (hstep : step lower w e = some w') :
    OncePerTtl key w' ↔ MissedNothing key w e := by
  have hquiet : w'.history = w.history → (OncePerTtl key w' ↔ True) := fun heq =>
    iff_true_intro ((oncePerTtl_append (heq.trans (List.nil_append _).symm) fun _ => List.not_mem_nil).mpr honce)
  have hone : ∀ {note : Note}, w'.history = note :: w.history → (∀ now, note ≠ .started key now) → (OncePerTtl key w' ↔ True) :=
    fun heq hne => iff_true_intro ((oncePerTtl_append (heq.trans (List.singleton_append).symm) fun now hmem =>
      hne now (List.mem_singleton.mp hmem).symm).mpr honce)
  cases moves_of_step hstep with
  | arrives hnew => exact hquiet rfl
  | @starts pid done seen now v hv hphase hnow =>
    by_cases hkey : v.key = key
    · subst hkey
      obtain ⟨hle, hbefore⟩ := h.missed pid v seen hv rfl (by rw [hphase]; rfl)
      -- what the request had seen when it missed is expired; what remains is what it has missed
      have hsplit : OutcomesExpired v.key w.history now ↔
          OutcomesExpired v.key (w.history.take (w.history.length - seen)) now := by
        conv_lhs => rw [← List.take_append_drop (w.history.length - seen) w.history, outcomesExpired_append]
        exact and_iff_left (hbefore.mono hnow)
      rw [oncePerTtl_started rfl, hsplit, and_iff_left honce]
      refine ⟨fun hexpired u c seen' hu _ hphase' => ?_, fun hmissed => hmissed v done seen hv rfl hphase⟩
      rw [hv] at hu
      cases hu
      rw [hphase] at hphase'
      cases hphase'
      exact hexpired
    · refine (hone rfl fun _ heq => ?_).trans (iff_of_true trivial fun u c seen' hu hukey _ => ?_)
      · cases heq
        exact hkey rfl
      · rw [hv] at hu
        cases hu
        exact absurd hukey hkey
  | @stores pid done v value hv hphase =>
    refine iff_true_intro ((oncePerTtl_append (List.append_cons ..) fun now hmem => ?_).mpr honce)
    rcases List.mem_append.mp hmem with hmem | hmem
    · obtain ⟨_, -, heq⟩ := List.mem_map.mp hmem
      cases heq
    · cases List.mem_singleton.mp hmem
  | resolves hv hphase hresolve => exact hone rfl nofun
  | fails hv hphase hresolve => exact hone rfl nofun
  | _ => exact hquiet rfl

/-- In a run that does not evict the key, no resolution of the key starts before the ttl of an earlier outcome has passed exactly
when no request that starts one has missed such an outcome between its lookup and its claim. -/
theorem oncePerTtl_iff_missedNothing (lower : Char → Char) (key : Bytes) (events : List Event)
    (hkept : ∀ w ∈ states (step lower) Viewers.start events, .evicted key ∉ w.history) :
    (∀ w ∈ states (step lower) Viewers.start events, OncePerTtl key w) ↔
      EachStep (step lower) (MissedNothing key) Viewers.start events := by
  have hpast : ∀ {w e w'}, step lower w e = some w' → OncePerTtl key w' → OncePerTtl key w := by
    intro w e w' hstep honce
    obtain ⟨notes, hnotes⟩ := history_grows hstep
    rw [OncePerTtl, hnotes, List.pairwise_append] at honce
    exact honce.2.1
  refine states_iff_eachStep_while (I := fun w => Flights w ∧ (OncePerTtl key w → Caching key w))
    (fun w e w' ⟨hf, hc⟩ hkept hstep => ⟨Flights.step hf hstep, fun honce => (hc (hpast hstep honce)).step hf hkept honce hstep⟩)
    (fun w e w' ⟨_, hc⟩ honce _ hstep => oncePerTtl_step (hc honce) honce hstep) ⟨Flights.start, fun _ => Caching.start⟩
    List.Pairwise.nil events hkept

/-- An issuer that Horizon does not know. -/
def noAccount : Upstream := ⟨.answered 404 [] .malformed, .failed .unreachable, .failed .unreachable⟩

/-- Two requests miss; the second one resolves the asset, stores the outcome and is done before the first one claims the key. -/
def resolvedTwice : List Event :=
  [.arrives 0 (utf8 "AQUA") (utf8 "G"), .arrives 1 (utf8 "AQUA") (utf8 "G"), .acts 0 (.looks 5), .acts 1 (.looks 5), .acts 1 .claims,
   .acts 1 (.starts 6), .acts 1 (.resolves noAccount), .acts 1 .stores, .acts 1 .releases, .acts 0 .claims, .acts 0 (.starts 7)]

theorem resolvedTwice_kept : ∀ w ∈ states (step id) Viewers.start resolvedTwice, .evicted (utf8 "AQUA:G") ∉ w.history := by
  have h : (states (step id) Viewers.start resolvedTwice).all (fun w => decide (.evicted (utf8 "AQUA:G") ∉ w.history)) = true := by
    decide
  intro w hw
  exact of_decide_eq_true (List.all_eq_true.mp h w hw)

theorem oncePerTtl_iff_resolvedTwice : (∀ w ∈ states (step id) Viewers.start resolvedTwice, OncePerTtl (utf8 "AQUA:G") w) ↔
    EachStep (step id) (MissedNothing (utf8 "AQUA:G")) Viewers.start resolvedTwice :=
  oncePerTtl_iff_missedNothing id (utf8 "AQUA:G") resolvedTwice resolvedTwice_kept

/-- The outcome is one nanosecond old when the asset is resolved again. -/
theorem oncePerTtl_fails_resolvedTwice :
    (∀ w ∈ states (step id) Viewers.start resolvedTwice, .evicted (utf8 "AQUA:G") ∉ w.history) ∧
      ¬∀ w ∈ states (step id) Viewers.start resolvedTwice, OncePerTtl (utf8 "AQUA:G") w := by
  refine ⟨resolvedTwice_kept, fun hall => ?_⟩
  have h : (run (step id) Viewers.start resolvedTwice).map Viewers.history = some
      [.started (utf8 "AQUA:G") 7, .stored 1 (utf8 "AQUA:G") (Entry.bare [] 6), .resolved 1 noAccount,
       .started (utf8 "AQUA:G") 6] := by decide
  obtain ⟨w, hw, heq⟩ := Option.map_eq_some_iff.mp h
  have honce := hall w (run_mem_states hw)
  rw [OncePerTtl, heq, List.pairwise_cons] at honce
  have hexpired := honce.1 _ List.mem_cons_self 7 1 (Entry.bare [] 6) rfl rfl
  exact absurd hexpired (by decide)

end Icons

end Soroscan
