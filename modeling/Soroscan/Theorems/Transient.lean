import Soroscan.Lemmas.Viewers

/-!
# Transient trouble

A rate limit, a timeout, a cancellation or a dropped connection says nothing about the asset. At the issuer account, and while a
body is read, such trouble ends the resolution with an error and nothing is stored. At the stellar.toml and at the image, a request
that times out, is cancelled or is answered 429 or 408 is taken for an issuer that publishes nothing, and this is stored. In every
run, trouble surfaces exactly when no resolution meets it at these two places.
-/

namespace Soroscan

namespace Icons

/-! ## Trouble -/

/-- A request that timed out, was cancelled or was answered with a rate limit or a request timeout. -/
def Fetch.limited {β : Type} : Fetch β → Prop
  | .failed failure => failure = .timeout ∨ failure = .cancelled
  | .answered status _ _ => status = 429 ∨ status = 408

/-- The issuer account was not delivered for a reason that says nothing about the issuer. -/
def accountTroubled (account : Fetch AccountBody) : Prop :=
  account.limited ∨ ∃ contentType, account = .answered 200 contentType .dropped

/-- The stellar.toml was not delivered for such a reason. -/
def tomlTroubled (toml : Fetch Body) : Prop :=
  toml.limited ∨ ∃ contentType body, toml = .answered 200 contentType body ∧ body.readAll (maxTomlBytes + 1) = none

/-- The image was not delivered for such a reason. -/
def imageTroubled (image : Fetch Body) : Prop :=
  image.limited ∨ ∃ contentType body, image = .answered 200 contentType body ∧ mediaType contentType ∈ imageTypes ∧
    body.readAll (maxImageBytes + 1) = none

/-! ## Which fetches are made -/

/-- The issuer account is asked for, unless the home domain of the asset is repaired by hand. -/
def AsksAccount (code issuer : Bytes) : Prop := domainOverrides.lookup (assetKey code issuer) = none

/-- The stellar.toml of a domain is asked for. -/
def AsksToml (lower : Char → Char) (up : Upstream) (code issuer domain : Bytes) : Prop :=
  (domainOverrides.lookup (assetKey code issuer) = some domain ∨
    AsksAccount code issuer ∧ domain ≠ [] ∧ ∃ contentType, up.account = .answered 200 contentType (.account domain)) ∧
  usableDomain lower domain = true

/-- The image is asked for: the stellar.toml was delivered whole, and names one. -/
def AsksImage (lower : Char → Char) (up : Upstream) (code issuer : Bytes) : Prop :=
  (∃ domain, AsksToml lower up code issuer domain) ∧ ∃ contentType body text, up.toml = .answered 200 contentType body ∧
    body.readAll (maxTomlBytes + 1) = some text ∧ text.length ≤ maxTomlBytes ∧ (servedCurrency lower text code issuer).image ≠ []

/-- One of the fetches of a resolution met trouble that says nothing about the asset. -/
def Troubled (lower : Char → Char) (up : Upstream) (code issuer : Bytes) : Prop :=
  AsksAccount code issuer ∧ accountTroubled up.account ∨
  (∃ domain, AsksToml lower up code issuer domain) ∧ tomlTroubled up.toml ∨
  AsksImage lower up code issuer ∧ imageTroubled up.image

/-- Neither the stellar.toml nor the image, if it is asked for, times out, is cancelled or is answered 429 or 408. -/
def Unlimited (lower : Char → Char) (up : Upstream) (code issuer : Bytes) : Prop :=
  (∀ domain, AsksToml lower up code issuer domain → ¬up.toml.limited) ∧ (AsksImage lower up code issuer → ¬up.image.limited)

/-! ## What a resolution makes of it -/

section Resolve

variable {lower : Char → Char} {up : Upstream} {code issuer domain : Bytes} {now : Nat}

/-- Trouble at the account is an error, and not one that names an issuer without a domain. -/
theorem homeDomain_of_troubled {account : Fetch AccountBody} (h : accountTroubled account) :
    ∃ error, homeDomain account = .error error ∧ error.isNoDomain = false := by
  rcases h with h | ⟨contentType, rfl⟩
  · cases account with
    | failed failure => exact ⟨_, rfl, rfl⟩
    | answered status contentType body =>
      have hne : status ≠ 200 := by rcases h with rfl | rfl <;> decide
      refine ⟨.wrap "horizon account" (.transient (some status)), ?_, rfl⟩
      simp only [homeDomain, getJSON, if_pos hne]
      exact if_pos h
  · exact ⟨_, rfl, rfl⟩

/-- Trouble at the account ends the resolution. -/
theorem resolve_of_accountTroubled (hasks : AsksAccount code issuer) (h : accountTroubled up.account) :
    ∃ error, resolve lower up code issuer now = .error error := by
  obtain ⟨error, herror, hdomain⟩ := homeDomain_of_troubled h
  refine ⟨error, ?_⟩
  unfold resolve domainOf
  rw [hasks]
  simp [herror, hdomain]

/-- Where the stellar.toml is asked for, the resolution goes on with it. -/
theorem domainOf_of_asksToml (h : AsksToml lower up code issuer domain) : domainOf up.account code issuer = .ok domain := by
  unfold domainOf
  rcases h.1 with hoverride | ⟨hasks, hne, contentType, haccount⟩
  · rw [hoverride]
  · rw [hasks, haccount]
    simp [homeDomain, getJSON, hne]

/-- Without a currency, the resolution ends: with the error if that is marked, else with the domain alone. -/
theorem resolve_of_tomlError (h : AsksToml lower up code issuer domain) {error : IconError}
    (herror : tomlCurrency lower up.toml code issuer = .error error) :
    resolve lower up code issuer now = if error.isTransient then .error error else .ok (Entry.bare domain now) := by
  unfold resolve
  simp only [domainOf_of_asksToml h, h.2, herror, Bool.not_true, Bool.false_eq_true, if_false]

/-- With a currency that names an image, the resolution goes on with the image. -/
theorem resolve_of_currency (h : AsksToml lower up code issuer domain) {currency : TomlEntry}
    (hcurrency : tomlCurrency lower up.toml code issuer = .ok currency) (himage : currency.image ≠ []) :
    resolve lower up code issuer now =
      withImage { Entry.bare domain now with name := currency.name, desc := currency.desc } up.image := by
  unfold resolve
  simp only [domainOf_of_asksToml h, h.2, hcurrency, Bool.not_true, Bool.false_eq_true, if_false, if_neg himage]

/-- A limit at the stellar.toml is not taken for trouble. -/
theorem tomlCurrency_of_limited {toml : Fetch Body} (h : toml.limited) :
    ∃ error, tomlCurrency lower toml code issuer = .error error ∧ error.isTransient = false := by
  cases toml with
  | failed failure => rcases h with rfl | rfl <;> exact ⟨_, rfl, rfl⟩
  | answered status contentType body =>
    have hne : status ≠ 200 := by rcases h with rfl | rfl <;> decide
    exact ⟨.wrap "toml fetch" (.status status), if_pos hne, rfl⟩

/-- A dropped stellar.toml is. -/
theorem tomlCurrency_of_dropped {contentType : Bytes} {body : Body} (h : body.readAll (maxTomlBytes + 1) = none) :
    tomlCurrency lower (.answered 200 contentType body) code issuer = .error (.wrap "toml read" (.transient none)) := by
  simp [tomlCurrency, h]

/-- A limit at the image is not taken for trouble. -/
theorem withImage_of_limited {image : Fetch Body} (h : image.limited) (resolved : Entry) :
    withImage resolved image = .ok resolved := by
  have hfetch : fetchImage image = .error .noIcon := by
    cases image with
    | failed failure => rcases h with rfl | rfl <;> rfl
    | answered status contentType body =>
      have hne : status ≠ 200 := by rcases h with rfl | rfl <;> decide
      exact if_pos hne
  rw [withImage, hfetch]
  rfl

/-- A dropped image is. -/
theorem withImage_of_dropped {contentType : Bytes} {body : Body} (htype : mediaType contentType ∈ imageTypes)
    (h : body.readAll (maxImageBytes + 1) = none) (resolved : Entry) :
    withImage resolved (.answered 200 contentType body) = .error (.wrap "image read" (.transient none)) := by
  simp [withImage, fetchImage, htype, h, IconError.isTransient]

/-- Where the image is asked for, the resolution ends with it. -/
theorem resolve_of_asksImage (h : AsksImage lower up code issuer) :
    ∃ resolved, resolve lower up code issuer now = withImage resolved up.image := by
  obtain ⟨⟨domain, htoml⟩, contentType, body, text, hanswer, hread, hlength, himage⟩ := h
  have hcurrency : tomlCurrency lower up.toml code issuer = .ok (servedCurrency lower text code issuer) := by
    rw [hanswer]
    simp [tomlCurrency, hread, Nat.not_lt.mpr hlength]
  exact ⟨_, resolve_of_currency htoml hcurrency himage⟩

/-- A resolution that meets trouble ends in an error exactly when it meets no limit at the stellar.toml or the image. -/
theorem resolve_error_iff_unlimited :
    (Troubled lower up code issuer → ∃ error, resolve lower up code issuer now = .error error) ↔
      Unlimited lower up code issuer := by
  constructor
  · intro h
    refine ⟨fun domain htoml hlimited => ?_, fun himage hlimited => ?_⟩
    · obtain ⟨error, herror⟩ := h (Or.inr (Or.inl ⟨⟨domain, htoml⟩, Or.inl hlimited⟩))
      obtain ⟨lost, hlost, htransient⟩ := @tomlCurrency_of_limited lower code issuer _ hlimited
      rw [resolve_of_tomlError htoml hlost, htransient] at herror
      cases herror
    · obtain ⟨error, herror⟩ := h (Or.inr (Or.inr ⟨himage, Or.inl hlimited⟩))
      obtain ⟨resolved, hresolved⟩ := @resolve_of_asksImage lower up code issuer now himage
      rw [hresolved, withImage_of_limited hlimited] at herror
      cases herror
  · rintro ⟨htoml, himage⟩ (⟨hasks, haccount⟩ | ⟨⟨domain, hasks⟩, htroubled⟩ | ⟨hasks, htroubled⟩)
    · exact resolve_of_accountTroubled hasks haccount
    · rcases htroubled with hlimited | ⟨contentType, body, hanswer, hread⟩
      · exact absurd hlimited (htoml domain hasks)
      · refine ⟨.wrap "toml read" (.transient none), ?_⟩
        rw [resolve_of_tomlError hasks (hanswer ▸ tomlCurrency_of_dropped hread)]
        rfl
    · rcases htroubled with hlimited | ⟨contentType, body, hanswer, htype, hread⟩
      · exact absurd hlimited (himage hasks)
      · obtain ⟨resolved, hresolved⟩ := @resolve_of_asksImage lower up code issuer now hasks
        exact ⟨_, by rw [hresolved, hanswer, withImage_of_dropped htype hread]⟩

end Resolve

/-! ## Runs -/

/-- A request whose resolution met trouble ends in an error, and has stored nothing. -/
def TroubleSurfaces (lower : Char → Char) (w : Viewers) : Prop :=
  ∀ pid up v, .resolved pid up ∈ w.history → w.requests pid = some v → Troubled lower up v.code v.issuer →
    (∃ error, v.phase.result = some (.failed error)) ∧ ∀ key value, .stored pid key value ∉ w.history

/-- The condition on an event: a resolution meets no limit at the stellar.toml or the image. -/
def MeetsNoLimit (lower : Char → Char) (w : Viewers) : Event → Prop
  | .acts pid (.resolves up) => ∀ v, w.requests pid = some v → Unlimited lower up v.code v.issuer
  | _ => True

/-- A phase that a resolution leads to. -/
def Phase.Ends (phase : Phase) : Except IconError Entry → Prop
  | .ok value => (∃ done, phase = .storing done value) ∨ phase.result = some (.served value)
  | .error error => phase.result = some (.failed error)

/-- A request that has resolved is where its resolution leads to. -/
def Recorded (lower : Char → Char) (w : Viewers) : Prop :=
  ∀ pid up, .resolved pid up ∈ w.history →
    ∃ v now, w.requests pid = some v ∧ v.phase.Ends (resolve lower up v.code v.issuer now)

variable {lower : Char → Char} {w w' : Viewers} {e : Event} {pid : Nat} {v : Viewer} {phase : Phase}

theorem Phase.Ends.of_result {old new : Phase} {r : Except IconError Entry} (h : old.Ends r)
    (hstoring : ∀ done value, old = .storing done value → new.result = some (.served value))
    (hresult : ∀ result, old.result = some result → new.result = some result) : new.Ends r := by
  cases r with
  | ok value =>
    rcases h with ⟨done, h⟩ | h
    · exact Or.inr (hstoring done value h)
    · exact Or.inr (hresult _ h)
  | error error => exact hresult _ h

namespace Recorded

theorem start : Recorded lower Viewers.start := fun _ _ h => nomatch h

/-- A step of a request, which ends as it resolved. -/
theorem moved (h : Recorded lower w) (hr : w'.requests = Function.update w.requests pid (some { v with phase }))
    (hself : ∀ up, .resolved pid up ∈ w'.history → ∃ now, phase.Ends (resolve lower up v.code v.issuer now))
    (hother : ∀ q up, q ≠ pid → .resolved q up ∈ w'.history → .resolved q up ∈ w.history) : Recorded lower w' := by
  intro q up hmem
  rw [hr]
  by_cases hq : q = pid
  · subst hq
    obtain ⟨now, hends⟩ := hself up hmem
    exact ⟨_, now, Function.update_self .., hends⟩
  · rw [Function.update_of_ne hq]
    exact h q up (hother q up hq hmem)

/-- A step of a request that adds no resolution. -/
theorem quiet (h : Recorded lower w) (hv : w.requests pid = some v)
    (hr : w'.requests = Function.update w.requests pid (some { v with phase }))
    (hstoring : ∀ done value, v.phase = .storing done value → phase.result = some (.served value))
    (hresult : ∀ result, v.phase.result = some result → phase.result = some result)
    (hsame : ∀ q up, .resolved q up ∈ w'.history → .resolved q up ∈ w.history) : Recorded lower w' := by
  refine h.moved hr (fun up hmem => ?_) fun q up _ hmem => hsame q up hmem
  obtain ⟨u, now, hu, hends⟩ := h pid up (hsame pid up hmem)
  rw [hv] at hu
  cases hu
  exact ⟨now, hends.of_result hstoring hresult⟩

/-- A request resolves once. -/
theorem not_mem (h : Recorded lower w) (hv : w.requests pid = some v) {done now : Nat} (hphase : v.phase = .resolving done now)
    (up : Upstream) : .resolved pid up ∉ w.history := by
  intro hmem
  obtain ⟨u, later, hu, hends⟩ := h pid up hmem
  rw [hv] at hu
  cases hu
  rw [hphase] at hends
  cases hresolve : resolve lower up v.code v.issuer later with
  | ok value =>
    rw [hresolve] at hends
    rcases hends with ⟨_, hends⟩ | hends <;> cases hends
  | error error =>
    rw [hresolve] at hends
    cases hends

/-- The step in which a request resolves. -/
theorem resolved (h : Recorded lower w) {done now : Nat} {up : Upstream} (hv : w.requests pid = some v)
    (hphase : v.phase = .resolving done now) (hr : w'.requests = Function.update w.requests pid (some { v with phase }))
    (hends : phase.Ends (resolve lower up v.code v.issuer now)) (hhistory : w'.history = .resolved pid up :: w.history) :
    Recorded lower w' := by
  refine h.moved hr (fun up' hmem => ?_) fun q up' hne hmem => ?_
  · rw [hhistory] at hmem
    rcases List.mem_cons.mp hmem with heq | hmem
    · cases heq
      exact ⟨now, hends⟩
    · exact absurd hmem (h.not_mem hv hphase up')
  · rw [hhistory] at hmem
    rcases List.mem_cons.mp hmem with heq | hmem
    · cases heq
      exact absurd rfl hne
    · exact hmem

end Recorded

/-- What an event adds to the resolutions. -/
theorem resolved_of_step (hstep : step lower w e = some w') {q : Nat} {up : Upstream} (hmem : .resolved q up ∈ w'.history) :
    .resolved q up ∈ w.history ∨ e = .acts q (.resolves up) := by
  cases moves_of_step hstep with
  | starts =>
    rcases List.mem_cons.mp hmem with heq | hmem
    · cases heq
    · exact Or.inl hmem
  | resolves =>
    rcases List.mem_cons.mp hmem with heq | hmem
    · cases heq
      exact Or.inr rfl
    · exact Or.inl hmem
  | fails =>
    rcases List.mem_cons.mp hmem with heq | hmem
    · cases heq
      exact Or.inr rfl
    · exact Or.inl hmem
  | stores =>
    rcases List.mem_append.mp hmem with hmem | hmem
    · obtain ⟨_, -, heq⟩ := List.mem_map.mp hmem
      cases heq
    · rcases List.mem_cons.mp hmem with heq | hmem
      · cases heq
      · exact Or.inl hmem
  | _ => exact Or.inl hmem

/-- Every event keeps the requests where their resolutions lead to. -/
theorem Recorded.step (h : Recorded lower w) (hstep : Icons.step lower w e = some w') : Recorded lower w' := by
  have hsame : (∀ q up, e ≠ .acts q (.resolves up)) → ∀ q up, .resolved q up ∈ w'.history → .resolved q up ∈ w.history :=
    fun hne q up hmem => (resolved_of_step hstep hmem).resolve_right (hne q up)
  cases moves_of_step hstep with
  | arrives hnew =>
    refine h.moved (v := ⟨_, _, .looking⟩) rfl (fun up hmem => ?_) fun q up _ hmem => hmem
    obtain ⟨u, now, hu, -⟩ := h _ up hmem
    rw [hnew] at hu
    cases hu
  | resolves hv hphase hresolve => exact h.resolved hv hphase rfl (by rw [hresolve]; exact Or.inl ⟨_, rfl⟩) rfl
  | fails hv hphase hresolve => exact h.resolved hv hphase rfl (by rw [hresolve]; rfl) rfl
  | stores hv hphase =>
    refine h.quiet hv rfl (fun done value heq => ?_) (fun result hresult => ?_) (hsame (by simp))
    · rw [hphase] at heq
      cases heq
      rfl
    · rw [hphase] at hresult
      cases hresult
  | releases hv hphase =>
    refine h.quiet hv rfl (fun done value heq => ?_) (fun result hresult => ?_) (hsame (by simp))
    · rw [hphase] at heq
      cases heq
    · rw [hphase] at hresult
      exact hresult
  | _ hv hphase =>
    refine h.quiet hv rfl (fun done value heq => ?_) (fun result hresult => ?_) (hsame (by simp))
    · rw [hphase] at heq
      cases heq
    · rw [hphase] at hresult
      cases hresult

/-- Trouble surfaces exactly when no resolution has met a limit at the stellar.toml or the image. -/
theorem troubleSurfaces_iff (hrecorded : Recorded lower w) (hdeposited : Deposited w) : TroubleSurfaces lower w ↔
    ∀ pid up v, .resolved pid up ∈ w.history → w.requests pid = some v → Unlimited lower up v.code v.issuer := by
  refine forall_congr' fun pid => forall_congr' fun up => forall_congr' fun v => forall_congr' fun hmem => forall_congr' fun hv => ?_
  obtain ⟨u, now, hu, hends⟩ := hrecorded pid up hmem
  rw [hv] at hu
  cases hu
  rw [← @resolve_error_iff_unlimited lower up v.code v.issuer now]
  refine forall_congr' fun _ => ⟨fun ⟨⟨error, hfailed⟩, _⟩ => ?_, fun ⟨error, hresolve⟩ => ?_⟩
  · cases hresolve : resolve lower up v.code v.issuer now with
    | error error => exact ⟨error, rfl⟩
    | ok value =>
      rw [hresolve] at hends
      rcases hends with ⟨done, hphase⟩ | hserved
      · rw [hphase] at hfailed
        cases hfailed
      · rw [hserved] at hfailed
        cases hfailed
  · rw [hresolve] at hends
    refine ⟨⟨error, hends⟩, fun key value hstored => ?_⟩
    obtain ⟨u, hu, -, hserved⟩ := hdeposited pid key value hstored
    rw [hv] at hu
    cases hu
    rw [show v.phase.result = some (.failed error) from hends] at hserved
    cases hserved

/-- An event keeps trouble surfacing exactly when it is no resolution that meets such a limit. -/
theorem troubleSurfaces_step (hrecorded : Recorded lower w) (hdeposited : Deposited w) (h : TroubleSurfaces lower w)
    (hstep : step lower w e = some w') : TroubleSurfaces lower w' ↔ MeetsNoLimit lower w e := by
  rw [troubleSurfaces_iff (hrecorded.step hstep) (hdeposited.step hstep)]
  rw [troubleSurfaces_iff hrecorded hdeposited] at h
  constructor
  · intro hall
    cases e with
    | arrives pid code issuer => trivial
    | acts pid act =>
      cases act with
      | resolves up =>
        intro v hv
        obtain ⟨v', hv', hcode, hissuer⟩ := request_kept hstep hv
        rw [← hcode, ← hissuer]
        exact hall pid up v' (mem_history_of_resolves hstep) hv'
      | _ => trivial
  · intro hmeets pid up v' hmem hv'
    rcases resolved_of_step hstep hmem with hmem | rfl
    · obtain ⟨v, now, hv, -⟩ := hrecorded pid up hmem
      obtain ⟨u, hu, hcode, hissuer⟩ := request_kept hstep hv
      rw [hv'] at hu
      cases hu
      rw [hcode, hissuer]
      exact h pid up v hmem hv
    · obtain ⟨v, hv⟩ := request_of_acts hstep
      obtain ⟨u, hu, hcode, hissuer⟩ := request_kept hstep hv
      rw [hv'] at hu
      cases hu
      rw [hcode, hissuer]
      exact hmeets v hv

/-- In every run, trouble that says nothing about an asset ends its request in an error and stores nothing exactly when no
resolution meets a timeout, a cancellation or a status of 429 or 408 at the stellar.toml or the image. -/
theorem troubleSurfaces_iff_meetsNoLimit (lower : Char → Char) (events : List Event) :
    (∀ w ∈ states (step lower) Viewers.start events, TroubleSurfaces lower w) ↔
      EachStep (step lower) (MeetsNoLimit lower) Viewers.start events :=
  states_iff_eachStep (I := fun w => Recorded lower w ∧ Deposited w)
    (fun _ _ _ ⟨hr, hd⟩ hstep => ⟨hr.step hstep, hd.step hstep⟩)
    (fun _ _ _ ⟨hr, hd⟩ h hstep => troubleSurfaces_step hr hd h hstep) ⟨Recorded.start, Deposited.start⟩
    (fun _ _ _ h => nomatch h) events

/-- A domain whose stellar.toml takes too long. -/
def slowDomain : Upstream :=
  ⟨.answered 200 [] (.account (utf8 "aqua.network")), .failed .timeout, .failed .unreachable⟩

/-- One request, which meets the slow domain. -/
def slowRun : List Event :=
  [.arrives 0 (utf8 "AQUA") (utf8 "G"), .acts 0 (.looks 5), .acts 0 .claims, .acts 0 (.starts 5), .acts 0 (.resolves slowDomain),
   .acts 0 .stores, .acts 0 .releases]

/-- The request is served an entry without name and image, which stays in the cache. -/
theorem troubleSurfaces_fails_slowRun : ∃ w ∈ states (step id) Viewers.start slowRun,
    w.service.cache (utf8 "AQUA:G") = some (Entry.bare (utf8 "aqua.network") 5) ∧ ¬TroubleSurfaces id w := by
  have h : (run (step id) Viewers.start slowRun).map (fun w => (w.requests 0, w.history, w.service.cache (utf8 "AQUA:G"))) = some
      (some ⟨utf8 "AQUA", utf8 "G", .finished (.served (Entry.bare (utf8 "aqua.network") 5))⟩,
       [.stored 0 (utf8 "AQUA:G") (Entry.bare (utf8 "aqua.network") 5), .resolved 0 slowDomain, .started (utf8 "AQUA:G") 5],
       some (Entry.bare (utf8 "aqua.network") 5)) := by decide
  obtain ⟨w, hw, heq⟩ := Option.map_eq_some_iff.mp h
  obtain ⟨hrequest, hhistory, hcache⟩ : _ ∧ _ ∧ _ := by simpa only [Prod.mk.injEq] using heq
  refine ⟨w, run_mem_states hw, hcache, fun hsurfaces => ?_⟩
  have hasks : AsksToml id slowDomain (utf8 "AQUA") (utf8 "G") (utf8 "aqua.network") :=
    ⟨Or.inr ⟨by rw [AsksAccount]; decide, by decide, [], rfl⟩, by decide⟩
  have htroubled : Troubled id slowDomain (utf8 "AQUA") (utf8 "G") := Or.inr (Or.inl ⟨⟨_, hasks⟩, Or.inl (Or.inl rfl)⟩)
  have hmem : Note.resolved 0 slowDomain ∈ w.history := by
    rw [hhistory]
    exact List.mem_cons_of_mem _ List.mem_cons_self
  obtain ⟨⟨error, hfailed⟩, -⟩ := hsurfaces 0 slowDomain _ hmem hrequest htroubled
  cases hfailed

end Icons

end Soroscan
