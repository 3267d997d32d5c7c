import Soroscan.Endpoints
import Soroscan.Lemmas.SafeText
import Soroscan.Lemmas.Viewers
import Soroscan.Theorems.CacheOrder
import Soroscan.Theorems.WireWalk

/-!
# What is served of an asset

Issuers write their stellar.toml and their images as they like. Whatever they write, and however the requests for many assets come in
between each other, an answer is of its own asset and says what came of its own request: the image that a resolution of the asset
fetched, of an allowed kind and size; text without control characters, of a bounded length; or that nothing is known, where the
resolution of the request itself failed.
-/

namespace Soroscan

namespace Icons

/-! ## One resolution -/

/-- What is cached of an asset, whatever its issuer publishes. -/
structure SafeEntry (lower : Char → Char) (e : Entry) : Prop where
  image : e.found = true → e.contentType ∈ imageTypes ∧ e.body.length ≤ maxImageBytes
  name : ∃ t, e.name = utf8Bytes t ∧ SafeText maxNameRunes t
  desc : ∃ t, e.desc = utf8Bytes t ∧ SafeText maxDescRunes t
  domain : e.domain ≠ [] → usableDomain lower e.domain = true

theorem safeText_nil (limit : Nat) : SafeText limit [] := ⟨nofun, Nat.zero_le _, nofun, nofun⟩

theorem safeEntry_bare {lower : Char → Char} {domain : Bytes} (h : domain ≠ [] → usableDomain lower domain = true) (now : Nat) :
    SafeEntry lower (Entry.bare domain now) :=
  ⟨nofun, ⟨[], rfl, safeText_nil _⟩, ⟨[], rfl, safeText_nil _⟩, h⟩

/-- An image that is fetched is of an allowed kind and size. -/
theorem fetchImage_ok {image : Fetch Body} {body contentType : Bytes} (h : fetchImage image = .ok (body, contentType)) :
    contentType ∈ imageTypes ∧ body.length ≤ maxImageBytes := by
  unfold fetchImage at h
  split at h
  · cases h
  · cases h
  · split_ifs at h with hstatus htype
    split at h
    · cases h
    · rename_i bytes _
      split_ifs at h with hlarge
      cases h
      exact ⟨htype, not_lt.mp hlarge⟩

/-- Of the errors of a fetched image only trouble is returned. -/
theorem fetchImage_error {image : Fetch Body} {error : IconError} (h : fetchImage image = .error error)
    (htransient : error.isTransient = true) : error.isNoIcon = false ∧ error.isNoMeta = false := by
  unfold fetchImage at h
  split at h
  · cases h
    exact ⟨rfl, rfl⟩
  · cases h
    cases htransient
  · split_ifs at h with hstatus htype
    · cases h
      cases htransient
    · split at h
      · cases h
        exact ⟨rfl, rfl⟩
      · split_ifs at h
        cases h
        cases htransient
    · cases h
      cases htransient

/-- The text of a currency is safe. -/
theorem safe_servedCurrency (lower : Char → Char) (text code issuer : Bytes) :
    (∃ t, (servedCurrency lower text code issuer).name = utf8Bytes t ∧ SafeText maxNameRunes t) ∧
      ∃ t, (servedCurrency lower text code issuer).desc = utf8Bytes t ∧ SafeText maxDescRunes t := by
  have hname := clean_safe (show 1 ≤ maxNameRunes by decide) (currencyMeta lower text code issuer).name
  have hdesc := clean_safe (show 1 ≤ maxDescRunes by decide) (currencyMeta lower text code issuer).desc
  dsimp only [servedCurrency]
  exact ⟨hname, hdesc⟩

theorem tomlCurrency_ok {lower : Char → Char} {toml : Fetch Body} {code issuer : Bytes} {currency : TomlEntry}
    (h : tomlCurrency lower toml code issuer = .ok currency) :
    (∃ t, currency.name = utf8Bytes t ∧ SafeText maxNameRunes t) ∧ ∃ t, currency.desc = utf8Bytes t ∧ SafeText maxDescRunes t := by
  unfold tomlCurrency at h
  split at h
  · cases h
  · cases h
  · split_ifs at h
    split at h
    · cases h
    · rename_i text _
      by_cases hlarge : maxTomlBytes < text.length
      · rw [if_pos hlarge] at h
        cases h
      · rw [if_neg hlarge] at h
        rw [← Except.ok.inj h]
        exact safe_servedCurrency lower text code issuer

/-- The errors of a stellar.toml are about its fetch. -/
theorem tomlCurrency_error {lower : Char → Char} {toml : Fetch Body} {code issuer : Bytes} {error : IconError}
    (h : tomlCurrency lower toml code issuer = .error error) : error.isNoIcon = false ∧ error.isNoMeta = false := by
  unfold tomlCurrency at h
  split at h
  · rw [← Except.error.inj h]
    exact ⟨rfl, rfl⟩
  · rw [← Except.error.inj h]
    exact ⟨rfl, rfl⟩
  · split_ifs at h
    · rw [← Except.error.inj h]
      exact ⟨rfl, rfl⟩
    · split at h
      · rw [← Except.error.inj h]
        exact ⟨rfl, rfl⟩
      · rename_i text _
        by_cases hlarge : maxTomlBytes < text.length
        · rw [if_pos hlarge] at h
          rw [← Except.error.inj h]
          exact ⟨rfl, rfl⟩
        · rw [if_neg hlarge] at h
          exact nomatch h

theorem homeDomain_error {account : Fetch AccountBody} {error : IconError} (h : homeDomain account = .error error) :
    error.isNoIcon = false ∧ error.isNoMeta = false := by
  unfold homeDomain at h
  split at h
  · rename_i error' hjson
    cases h
    unfold getJSON at hjson
    split at hjson
    · cases hjson
      exact ⟨rfl, rfl⟩
    · split_ifs at hjson
      split at hjson <;> cases hjson <;> exact ⟨rfl, rfl⟩
  · split_ifs at h <;> cases h <;> exact ⟨rfl, rfl⟩

section

variable {lower : Char → Char} {up : Upstream} {code issuer : Bytes} {now : Nat}

/-- Whatever an issuer publishes, what is made of it is safe, and its image is the one that was fetched. -/
theorem safeEntry_of_resolve {e : Entry} (h : resolve lower up code issuer now = .ok e) :
    SafeEntry lower e ∧ (e.found = true → fetchImage up.image = .ok (e.body, e.contentType)) := by
  have hbare : ∀ domain, (domain ≠ [] → usableDomain lower domain = true) → SafeEntry lower (Entry.bare domain now) ∧
      ((Entry.bare domain now).found = true →
        fetchImage up.image = .ok ((Entry.bare domain now).body, (Entry.bare domain now).contentType)) :=
    fun domain hdomain => ⟨safeEntry_bare hdomain now, nofun⟩
  unfold resolve at h
  cases hdomain : domainOf up.account code issuer with
  | error error =>
    simp only [hdomain] at h
    split_ifs at h
    cases h
    exact hbare [] fun hnil => absurd rfl hnil
  | ok domain =>
    simp only [hdomain] at h
    by_cases husable : usableDomain lower domain = true
    · simp only [husable, Bool.not_true, Bool.false_eq_true, if_false] at h
      cases hcurrency : tomlCurrency lower up.toml code issuer with
      | error error =>
        simp only [hcurrency] at h
        split_ifs at h
        cases h
        exact hbare domain fun _ => husable
      | ok currency =>
        simp only [hcurrency] at h
        obtain ⟨hname, hdesc⟩ := tomlCurrency_ok hcurrency
        split_ifs at h with himage
        · cases h
          exact ⟨⟨nofun, hname, hdesc, fun _ => husable⟩, nofun⟩
        · unfold withImage at h
          split at h
          · rename_i body contentType hfetched
            cases h
            exact ⟨⟨fun _ => fetchImage_ok hfetched, hname, hdesc, fun _ => husable⟩, fun _ => hfetched⟩
          · split_ifs at h
            cases h
            exact ⟨⟨nofun, hname, hdesc, fun _ => husable⟩, nofun⟩
    · rw [Bool.not_eq_true] at husable
      simp only [husable, Bool.not_false, if_true] at h
      cases h
      exact hbare [] fun hnil => absurd rfl hnil

/-- A resolution that fails does not fail for want of an icon or of a domain. -/
theorem error_of_resolve {error : IconError} (h : resolve lower up code issuer now = .error error) :
    error.isNoIcon = false ∧ error.isNoMeta = false := by
  unfold resolve at h
  cases hdomain : domainOf up.account code issuer with
  | error error' =>
    simp only [hdomain] at h
    split_ifs at h
    cases h
    unfold domainOf at hdomain
    split at hdomain
    · cases hdomain
    · exact homeDomain_error hdomain
  | ok domain =>
    simp only [hdomain] at h
    split_ifs at h
    cases hcurrency : tomlCurrency lower up.toml code issuer with
    | error error' =>
      simp only [hcurrency] at h
      split_ifs at h
      cases h
      exact tomlCurrency_error hcurrency
    | ok currency =>
      simp only [hcurrency] at h
      split_ifs at h
      unfold withImage at h
      split at h
      · cases h
      · rename_i error' hfetched
        split_ifs at h with htransient
        cases h
        exact fetchImage_error hfetched htransient

end

/-! ## Keys -/

/-- Codes that are accepted have no colon, so that keys are distinct. -/
theorem notMem_of_codePattern {code : Bytes} (h : Wire.codePattern code = true) : 0x3A ∉ code := by
  rw [Wire.codePattern, Bool.and_eq_true, List.all_eq_true] at h
  intro hmem
  exact absurd (h.2 _ hmem) (by decide)

theorem assetKey_inj {code code' issuer issuer' : Bytes} (h : Wire.validAsset code issuer = true)
    (h' : Wire.validAsset code' issuer' = true) (hkey : assetKey code issuer = assetKey code' issuer') :
    code = code' ∧ issuer = issuer' := by
  have hcode := notMem_of_codePattern (Bool.and_eq_true_iff.mp h).1
  have hcode' := notMem_of_codePattern (Bool.and_eq_true_iff.mp h').1
  have hcut : ∀ {c i : Bytes}, 0x3A ∉ c → (assetKey c i).takeWhile (· ≠ 0x3A) = c := by
    intro c i hc
    have hall : ∀ b ∈ c, decide (b ≠ 0x3A) = true := fun b hb => decide_eq_true (ne_of_mem_of_not_mem hb hc)
    rw [assetKey, List.takeWhile_append_of_pos hall]
    simp
  have hfirst : code = code' := by rw [← hcut (i := issuer) hcode, hkey, hcut hcode']
  subst hfirst
  exact ⟨rfl, (List.cons.inj (List.append_cancel_left hkey)).2⟩

/-! ## Runs -/

/-- Requests are made for assets that pass the check. -/
def Admitted : Event → Prop
  | .arrives _ code issuer => Wire.validAsset code issuer = true
  | _ => True

/-- The entry that a request has. -/
def Phase.entry : Phase → Option Entry
  | .storing _ value => some value
  | .releasing _ (.served value) => some value
  | .finished (.served value) => some value
  | _ => none

/-- The error that a request has. -/
def Phase.error : Phase → Option IconError
  | .releasing _ (.failed error) => some error
  | .finished (.failed error) => some error
  | _ => none

/-- An entry that a request for the asset resolved. -/
def ResolvedFor (lower : Char → Char) (w : Viewers) (code issuer : Bytes) (value : Entry) : Prop :=
  ∃ pid v up now, w.requests pid = some v ∧ v.code = code ∧ v.issuer = issuer ∧ .resolved pid up ∈ w.history ∧
    resolve lower up code issuer now = .ok value

/-- The error with which the resolution that a request itself led came back. -/
def FailedFor (lower : Char → Char) (w : Viewers) (pid : Nat) (code issuer : Bytes) (error : IconError) : Prop :=
  ∃ up now, .resolved pid up ∈ w.history ∧ resolve lower up code issuer now = .error error

/-- Every cached entry, and every entry that a request has, was resolved for its own asset. The error that a request has is its own. -/
structure Owned (lower : Char → Char) (w : Viewers) : Prop where
  listed : w.service.Listed
  valid : ∀ pid v, w.requests pid = some v → Wire.validAsset v.code v.issuer = true
  cached : ∀ key value, w.service.cache key = some value →
    ∃ code issuer, Wire.validAsset code issuer = true ∧ assetKey code issuer = key ∧ ResolvedFor lower w code issuer value
  entry : ∀ pid v value, w.requests pid = some v → v.phase.entry = some value → ResolvedFor lower w v.code v.issuer value
  error : ∀ pid v error, w.requests pid = some v → v.phase.error = some error → FailedFor lower w pid v.code v.issuer error

section

variable {lower : Char → Char} {w w' : Viewers} {e : Event} {code issuer : Bytes} {value : Entry} {pid : Nat} {v : Viewer}
  {phase : Phase}

/-- What was resolved stays resolved. -/
theorem ResolvedFor.step (h : ResolvedFor lower w code issuer value) (hstep : Icons.step lower w e = some w') :
    ResolvedFor lower w' code issuer value := by
  obtain ⟨pid, v, up, now, hv, hcode, hissuer, hmem, hresolve⟩ := h
  obtain ⟨v', hv', hcode', hissuer'⟩ := request_kept hstep hv
  obtain ⟨notes, hnotes⟩ := history_grows hstep
  exact ⟨pid, v', up, now, hv', hcode'.trans hcode, hissuer'.trans hissuer,
    hnotes ▸ List.mem_append_right _ hmem, hresolve⟩

/-- What failed has failed. -/
theorem FailedFor.step {error : IconError} (h : FailedFor lower w pid code issuer error)
    (hstep : Icons.step lower w e = some w') : FailedFor lower w' pid code issuer error := by
  obtain ⟨up, now, hmem, hresolve⟩ := h
  obtain ⟨notes, hnotes⟩ := history_grows hstep
  exact ⟨up, now, hnotes ▸ List.mem_append_right _ hmem, hresolve⟩

namespace Owned

theorem start : Owned lower Viewers.start where
  listed := Service.listed_new
  valid _ _ h := nomatch h
  cached _ _ h := nomatch h
  entry _ _ _ h := nomatch h
  error _ _ _ h := nomatch h

/-- A step of one request. -/
theorem moved (h : Owned lower w) (hstep : Icons.step lower w e = some w')
    (hr : w'.requests = Function.update w.requests pid (some { v with phase })) (hlisted : w'.service.Listed)
    (hvalid : Wire.validAsset v.code v.issuer = true)
    (hcache : ∀ key value, w'.service.cache key = some value → w.service.cache key = some value ∨
      key = v.key ∧ ResolvedFor lower w' v.code v.issuer value)
    (hentry : ∀ value, phase.entry = some value → ResolvedFor lower w' v.code v.issuer value)
    (herror : ∀ error, phase.error = some error → FailedFor lower w' pid v.code v.issuer error) : Owned lower w' where
  listed := hlisted
  valid q u hu := by
    rw [hr] at hu
    by_cases hq : q = pid
    · subst hq
      rw [Function.update_self] at hu
      cases hu
      exact hvalid
    · exact h.valid q u ((Function.update_of_ne hq ..).symm.trans hu)
  cached key value hvalue := by
    rcases hcache key value hvalue with hold | ⟨rfl, hnew⟩
    · obtain ⟨code, issuer, hasset, hkey, hresolved⟩ := h.cached key value hold
      exact ⟨code, issuer, hasset, hkey, hresolved.step hstep⟩
    · exact ⟨v.code, v.issuer, hvalid, rfl, hnew⟩
  entry q u value hu hvalue := by
    rw [hr] at hu
    by_cases hq : q = pid
    · subst hq
      rw [Function.update_self] at hu
      cases hu
      exact hentry value hvalue
    · exact (h.entry q u value ((Function.update_of_ne hq ..).symm.trans hu) hvalue).step hstep
  error q u error hu herr := by
    rw [hr] at hu
    by_cases hq : q = pid
    · subst hq
      rw [Function.update_self] at hu
      cases hu
      exact herror error herr
    · exact (h.error q u error ((Function.update_of_ne hq ..).symm.trans hu) herr).step hstep

/-- A step that leaves the cache as it is, and gives the request nothing it did not have. -/
theorem quiet (h : Owned lower w) (hstep : Icons.step lower w e = some w') (hv : w.requests pid = some v)
    (hr : w'.requests = Function.update w.requests pid (some { v with phase })) (hservice : w'.service.cache = w.service.cache)
    (horder : w'.service.order = w.service.order) (hentry : ∀ value, phase.entry = some value → v.phase.entry = some value)
    (herror : ∀ error, phase.error = some error → v.phase.error = some error) : Owned lower w' := by
  refine h.moved hstep hr ?_ (h.valid pid v hv) (fun key value hvalue => ?_) (fun value hvalue => ?_) fun error herr => ?_
  · exact ⟨horder ▸ h.listed.nodup, fun key => by rw [hservice, horder]; exact h.listed.cached_iff key⟩
  · rw [hservice] at hvalue
    exact Or.inl hvalue
  · exact (h.entry pid v value hv (hentry value hvalue)).step hstep
  · exact (h.error pid v error hv (herror error herr)).step hstep

theorem step (h : Owned lower w) (hadmitted : Admitted e) (hstep : Icons.step lower w e = some w') : Owned lower w' := by
  have hmoves := moves_of_step hstep
  cases hmoves with
  | arrives hnew =>
    exact h.moved (v := ⟨_, _, .looking⟩) hstep rfl h.listed hadmitted (fun _ _ hvalue => Or.inl hvalue) nofun nofun
  | @hits pid now v value hv hphase hnow hit =>
    refine h.moved hstep rfl h.listed (h.valid pid v hv) (fun _ _ hvalue => Or.inl hvalue) (fun value' hvalue' => ?_) nofun
    cases hvalue'
    -- what is cached under the key was resolved for the very asset
    obtain ⟨code, issuer, hasset, hkey, hresolved⟩ := h.cached v.key value (Option.filter_eq_some_iff.mp hit).1
    obtain ⟨rfl, rfl⟩ := assetKey_inj hasset (h.valid pid v hv) hkey
    exact hresolved.step hstep
  | misses hv hphase => exact h.quiet hstep hv rfl rfl rfl nofun nofun
  | leads hv hphase => exact h.quiet hstep hv rfl rfl rfl nofun nofun
  | waits hv hphase => exact h.quiet hstep hv rfl rfl rfl nofun nofun
  | wakes hv hphase => exact h.quiet hstep hv rfl rfl rfl nofun nofun
  | cancels hv hphase => exact h.quiet hstep hv rfl rfl rfl nofun nofun
  | starts hv hphase => exact h.quiet hstep hv rfl rfl rfl nofun nofun
  | @resolves pid done now v up value hv hphase hresolve =>
    refine h.moved hstep rfl h.listed (h.valid pid v hv) (fun _ _ hvalue => Or.inl hvalue) (fun value' hvalue' => ?_) nofun
    cases hvalue'
    exact ⟨pid, _, up, now, Function.update_self .., rfl, rfl, List.mem_cons_self, hresolve⟩
  | @fails pid done now v up error hv hphase hresolve =>
    refine h.moved hstep rfl h.listed (h.valid pid v hv) (fun _ _ hvalue => Or.inl hvalue) nofun fun error' herror' => ?_
    cases herror'
    exact ⟨up, now, List.mem_cons_self, hresolve⟩
  | panics hv hphase => exact h.quiet hstep hv rfl rfl rfl nofun nofun
  | @stores pid done v value hv hphase =>
    have hresolved := (h.entry pid v value hv (by rw [hphase]; rfl)).step hstep
    refine h.moved hstep rfl (h.listed.store v.key value) (h.valid pid v hv) (fun key value' hvalue => ?_) (fun value' hvalue' => ?_)
      nofun
    · rcases Service.cache_of_store h.listed hvalue with ⟨rfl, rfl⟩ | ⟨-, hold⟩
      · exact Or.inr ⟨rfl, hresolved⟩
      · exact Or.inl hold
    · cases hvalue'
      exact hresolved
  | @releases pid done v result hv hphase =>
    refine h.quiet hstep hv rfl ?_ ?_ (fun value hvalue => ?_) fun error herror => ?_
    · show (w.service.release v.key).1.cache = _
      unfold Service.release
      cases w.service.inFlight v.key <;> rfl
    · show (w.service.release v.key).1.order = _
      unfold Service.release
      cases w.service.inFlight v.key <;> rfl
    · rw [hphase]
      cases result <;> exact hvalue
    · rw [hphase]
      cases result <;> exact herror

end Owned

end

end Icons

namespace Wire

open Icons

/-! ## Answers -/

/-- What a client is shown of an entry. -/
def shownMeta (e : Entry) : AssetMeta where
  name := if e.name = [] then none else some (textOf e.name)
  description := if e.desc = [] then none else some (textOf e.desc)
  domain := textOf e.domain
  icon := e.found

theorem textOf_ne_nil {s : Bytes} (h : s ≠ []) : textOf s ≠ [] := by
  rw [textOf, ne_eq, List.map_eq_nil_iff]
  exact decodeRunes_ne_nil h

/-- The members of a `Meta`, read. -/
def metaMembers (m : Meta) : List (Text × Json) :=
  (if m.name = [] then [] else [(key "name", .str (textOf m.name))]) ++
    (if m.description = [] then [] else [(key "description", .str (textOf m.description))]) ++
    [(key "domain", .str (textOf m.domain)), (key "icon", .bool m.icon)]

theorem nodup_metaMembers (m : Meta) : ((metaMembers m).map (·.1)).Nodup := by
  unfold metaMembers
  split_ifs <;> simp only [List.map_append, List.map_cons, List.map_nil] <;> decide

/-- The text of a `Meta` stands for its members. -/
theorem stands_metaText (m : Meta) : Json.Stands (metaText m) (.obj (Json.objectOf (metaMembers m))) := by
  have homit : ∀ name value, List.Forall₂ Json.PieceOf (omitEmpty name value)
      (if value = [] then [] else [(key name, .str (textOf value))]) := by
    intro name value
    unfold omitEmpty
    split_ifs
    · exact .nil
    · exact .cons ⟨rfl, Json.stands_runes _⟩ .nil
  exact Json.stands_objectText (List.rel_append (List.rel_append (homit _ _) (homit _ _))
    (.cons ⟨rfl, Json.stands_runes _⟩ (.cons ⟨rfl, Json.stands_bool _⟩ .nil)))

/-- The fields of a `Meta` that are left out where they are empty. -/
theorem stringField_metaMembers (m : Meta) :
    stringField "name" (Json.obj (Json.objectOf (metaMembers m))).toJs = (if m.name = [] then none else some (textOf m.name)) ∧
      stringField "description" (Json.obj (Json.objectOf (metaMembers m))).toJs =
        if m.description = [] then none else some (textOf m.description) := by
  have habsent : ∀ {name : String}, key name ∉ (metaMembers m).map (·.1) →
      stringField name (Json.obj (Json.objectOf (metaMembers m))).toJs = none := by
    intro name h
    rw [stringField, JsValue.field_toJs, Json.field_objectOf_none h]
    rfl
  constructor
  · split_ifs with hname
    · refine habsent ?_
      unfold metaMembers
      rw [if_pos hname]
      split_ifs <;> simp only [List.map_append, List.map_cons, List.map_nil] <;> decide
    · exact stringField_of_mem (nodup_metaMembers m) (by simp [metaMembers, hname])
  · split_ifs with hdesc
    · refine habsent ?_
      unfold metaMembers
      rw [if_pos hdesc]
      split_ifs <;> simp only [List.map_append, List.map_cons, List.map_nil] <;> decide
    · exact stringField_of_mem (nodup_metaMembers m) (by simp [metaMembers, hdesc])

/-- The members of a `Meta` are read back. -/
theorem readAssetMeta_metaMembers {m : Meta} (hdomain : m.domain ≠ []) :
    readAssetMeta ⟨200, true, (Json.obj (Json.objectOf (metaMembers m))).toJs⟩ =
      .ok (some ⟨if m.name = [] then none else some (textOf m.name),
        if m.description = [] then none else some (textOf m.description), textOf m.domain, m.icon⟩) := by
  obtain ⟨hname, hdescription⟩ := stringField_metaMembers m
  have hnodup := nodup_metaMembers m
  have hdomainField : stringField "domain" (Json.obj (Json.objectOf (metaMembers m))).toJs = some (textOf m.domain) :=
    stringField_of_mem hnodup (by simp [metaMembers])
  have hicon : isTrue "icon" (Json.obj (Json.objectOf (metaMembers m))).toJs = m.icon := by
    rw [isTrue, JsValue.field_toJs, Json.field_objectOf hnodup (v := .bool m.icon) (by simp [metaMembers])]
    rfl
  obtain ⟨c, cs, htext⟩ := List.exists_cons_of_ne_nil (textOf_ne_nil hdomain)
  rw [htext] at hdomainField ⊢
  rw [readAssetMeta, if_neg (show ¬(200 = 404) by decide), if_neg (show ¬(!true) = true by decide)]
  simp only [hdomainField, hname, hdescription, hicon]

/-! ## Answers of a valid asset -/

section

variable {code issuer : Bytes}

/-- The icon of an entry that has one. -/
theorem assetIcon_found (h : validAsset code issuer = true) {e : Entry} (hfound : e.found = true) :
    assetIcon code issuer (.ok e) = ⟨200, e.contentType, some "public, max-age=86400", true, e.body⟩ := by
  simp [assetIcon, h, Except.bind, iconOf, hfound]

/-- The icon of an entry that has none. -/
theorem assetIcon_missing (h : validAsset code issuer = true) {e : Entry} (hfound : e.found = false) :
    assetIcon code issuer (.ok e) = iconError ⟨404, "no icon for this asset"⟩ (some "public, max-age=3600") := by
  simp [assetIcon, h, Except.bind, iconOf, hfound, IconError.isNoIcon]

/-- An error that is not about an icon says nothing of the asset. -/
theorem assetIcon_error (h : validAsset code issuer = true) {error : IconError} (herror : error.isNoIcon = false) :
    assetIcon code issuer (.error error) = iconError internalError none := by
  simp [assetIcon, h, Except.bind, herror]

/-- What a client is told of an entry: what it shows, or that there is nothing. -/
theorem fetchedMeta_ok (h : validAsset code issuer = true) (e : Entry) :
    (assetMeta code issuer (.ok e)).fetchedMeta = some (.ok (if e.domain = [] then none else some (shownMeta e))) := by
  by_cases hdomain : e.domain = []
  · have hmeta : assetMeta code issuer (.ok e) = writeError ⟨404, "no meta for this asset"⟩ := by
      simp [assetMeta, h, Except.bind, metaOf, hdomain, IconError.isNoMeta]
    have hstands : Json.Stands (Json.objectText [(key "error", Json.quote "no meta for this asset".toList)])
        (.obj (Json.objectOf [(key "error", .str "no meta for this asset".toList)])) :=
      Json.stands_objectText (.cons ⟨rfl, Json.stands_quote _⟩ .nil)
    rw [hmeta, HttpReply.fetchedMeta, writeError, accepted_of_stands hstands (by decide), if_pos hdomain]
    rfl
  · have hmeta : assetMeta code issuer (.ok e) = writeJSON (some (metaText ⟨e.name, e.desc, e.domain, e.found⟩)) := by
      simp [assetMeta, h, Except.bind, metaOf, hdomain]
    rw [hmeta, HttpReply.fetchedMeta, writeJSON, accepted_of_stands (stands_metaText _) (by decide), Option.map_some, if_neg hdomain]
    exact congrArg some (readAssetMeta_metaMembers hdomain)

/-- A client is told nothing of an error that is not about a domain. -/
theorem fetchedMeta_error (h : validAsset code issuer = true) {error : IconError} (herror : error.isNoMeta = false) :
    (assetMeta code issuer (.error error)).fetchedMeta = none := by
  have hmeta : assetMeta code issuer (.error error) = writeError internalError := by
    simp [assetMeta, h, Except.bind, herror]
  rw [hmeta, HttpReply.fetchedMeta, writeError, accepted_of_retriable (by decide), Option.map_none]

end

/-- What the icon of an asset is answered with, by what the request came to: the image that a resolution of the very asset fetched, of
an allowed kind and size, with the header that keeps a browser from taking it for something else; that there is none, if a resolution
of the asset found none; or that the request failed, if the resolution it led failed or it was cancelled. -/
inductive IconServed (lower : Char → Char) (w : Viewers) (pid : Nat) (v : Viewer) : Result → IconReply → Prop
  | image {e : Entry} {q : Nat} {u : Viewer} {up : Upstream} {now : Nat} (hfound : e.found = true) (hu : w.requests q = some u)
    (hasset : u.code = v.code ∧ u.issuer = v.issuer) (hresolved : .resolved q up ∈ w.history)
    (hresolve : resolve lower up v.code v.issuer now = .ok e) (hfetched : fetchImage up.image = .ok (e.body, e.contentType))
    (hkind : e.contentType ∈ imageTypes) (hsize : e.body.length ≤ maxImageBytes) :
    IconServed lower w pid v (.served e) ⟨200, e.contentType, some "public, max-age=86400", true, e.body⟩
  | missing {e : Entry} (hfound : e.found = false) (hresolved : ResolvedFor lower w v.code v.issuer e) :
    IconServed lower w pid v (.served e) (iconError ⟨404, "no icon for this asset"⟩ (some "public, max-age=3600"))
  | failed {error : IconError} (hfailed : FailedFor lower w pid v.code v.issuer error) :
    IconServed lower w pid v (.failed error) (iconError internalError none)
  | cancelled : IconServed lower w pid v .cancelled (iconError internalError none)

/-- What a client is told of an asset, by what the request came to: what a resolution of the very asset came to, in text that is fit to
be shown, or that there is nothing, if it came to no domain; and not a thing if the resolution that the request led failed or it was
cancelled. -/
inductive MetaServed (lower : Char → Char) (w : Viewers) (pid : Nat) (v : Viewer) :
    Result → Option (Except ClientError (Option AssetMeta)) → Prop
  | shown {e : Entry} (hdomain : e.domain ≠ []) (hresolved : ResolvedFor lower w v.code v.issuer e)
    (husable : usableDomain lower e.domain = true)
    (hname : ∀ name ∈ (shownMeta e).name, SafeText maxNameRunes name)
    (hdescription : ∀ description ∈ (shownMeta e).description, SafeText maxDescRunes description) :
    MetaServed lower w pid v (.served e) (some (.ok (some (shownMeta e))))
  | missing {e : Entry} (hdomain : e.domain = []) (hresolved : ResolvedFor lower w v.code v.issuer e) :
    MetaServed lower w pid v (.served e) (some (.ok none))
  | failed {error : IconError} (hfailed : FailedFor lower w pid v.code v.issuer error) :
    MetaServed lower w pid v (.failed error) none
  | cancelled : MetaServed lower w pid v .cancelled none

section

variable {lower : Char → Char} {w : Viewers} {pid : Nat} {v : Viewer}

/-- A request that is served is answered with an entry of its asset. -/
theorem served_of_resolvedFor (hvalid : validAsset v.code v.issuer = true) {e : Entry}
    (h : ResolvedFor lower w v.code v.issuer e) :
    IconServed lower w pid v (.served e) (assetIcon v.code v.issuer (.ok e)) ∧
      MetaServed lower w pid v (.served e) (assetMeta v.code v.issuer (.ok e)).fetchedMeta := by
  obtain ⟨q, u, up, now, hu, hcode, hissuer, hmem, hresolve⟩ := id h
  obtain ⟨hsafe, himage⟩ := safeEntry_of_resolve hresolve
  constructor
  · cases hfound : e.found with
    | true =>
      rw [assetIcon_found hvalid hfound]
      exact .image hfound hu ⟨hcode, hissuer⟩ hmem hresolve (himage hfound) (hsafe.image hfound).1 (hsafe.image hfound).2
    | false =>
      rw [assetIcon_missing hvalid hfound]
      exact .missing hfound h
  · rw [fetchedMeta_ok hvalid]
    split_ifs with hdomain
    · exact .missing hdomain h
    · obtain ⟨name, hname, hsafeName⟩ := hsafe.name
      obtain ⟨desc, hdesc, hsafeDesc⟩ := hsafe.desc
      refine .shown hdomain h (hsafe.domain hdomain) (fun t ht => ?_) fun t ht => ?_
      · change (if e.name = [] then none else some (textOf e.name)) = some t at ht
        rw [hname, textOf_utf8Bytes] at ht
        split_ifs at ht
        rw [← Option.some.inj ht]
        exact hsafeName
      · change (if e.desc = [] then none else some (textOf e.desc)) = some t at ht
        rw [hdesc, textOf_utf8Bytes] at ht
        split_ifs at ht
        rw [← Option.some.inj ht]
        exact hsafeDesc

/-- A request that failed is answered with an error, of which a client makes nothing. -/
theorem served_of_failedFor (hvalid : validAsset v.code v.issuer = true) {error : IconError}
    (h : FailedFor lower w pid v.code v.issuer error) :
    IconServed lower w pid v (.failed error) (assetIcon v.code v.issuer (.error error)) ∧
      MetaServed lower w pid v (.failed error) (assetMeta v.code v.issuer (.error error)).fetchedMeta := by
  obtain ⟨up, now, hmem, hresolve⟩ := id h
  obtain ⟨hicon, hmeta⟩ := error_of_resolve hresolve
  rw [assetIcon_error hvalid hicon, fetchedMeta_error hvalid hmeta]
  exact ⟨.failed h, .failed h⟩

end

/-- Any number of requests for any assets, in any interleaving, over issuers that publish what they like: every answer is of its own
asset and says what the request came to. An icon is an image of an allowed kind and size that was fetched for the asset, what a client
is told of the asset is what was resolved for it, in text without control characters and of a bounded length, and a request that fails,
for an error of the resolution it led, tells the client nothing. -/
theorem assets_served (lower : Char → Char) {events : List Icons.Event} (hadmitted : ∀ e ∈ events, Admitted e) {w : Viewers}
    (hrun : run (Icons.step lower) Viewers.start events = some w) {pid : Nat} {v : Viewer} (hv : w.requests pid = some v)
    {result : Result} (hfinished : v.phase = .finished result) {returned : Except IconError Entry}
    (hreturned : result.returned = some returned) :
    IconServed lower w pid v result (assetIcon v.code v.issuer returned) ∧
      MetaServed lower w pid v result (assetMeta v.code v.issuer returned).fetchedMeta := by
  have howned : Owned lower w :=
    run_invariant_of_mem (fun e he _ _ h hstep => Owned.step h (hadmitted e he) hstep) Owned.start hrun
  have hvalid := howned.valid pid v hv
  cases result with
  | served e =>
    cases hreturned
    exact served_of_resolvedFor hvalid (howned.entry pid v e hv (by rw [hfinished]; rfl))
  | failed error =>
    cases hreturned
    exact served_of_failedFor hvalid (howned.error pid v error hv (by rw [hfinished]; rfl))
  | cancelled =>
    cases hreturned
    rw [assetIcon_error hvalid rfl, fetchedMeta_error hvalid rfl]
    exact ⟨.cancelled, .cancelled⟩
  | panicked => cases hreturned

/-! ## Issuers that spoof and that fail -/

def spoofIssuer : Bytes := 71 :: List.replicate 55 65

/-- A name that begins with an override of the reading direction. -/
def spoofToml : Bytes :=
  utf8 "[[CURRENCIES]]\ncode=SPOOF\nissuer=" ++ spoofIssuer ++ utf8 "\nname= \u202ecoin\nimage=https://e.io/i"

def spoofUpstream : Upstream :=
  ⟨.answered 200 [] (.account (utf8 "e.io")), .answered 200 [] ⟨spoofToml, false⟩,
    .answered 200 (utf8 "image/png; a=b") ⟨[137, 80], false⟩⟩

/-- The account cannot be read for now. -/
def busyUpstream : Upstream :=
  ⟨.answered 429 [] .malformed, .answered 200 [] ⟨spoofToml, false⟩, .answered 200 (utf8 "image/png") ⟨[137, 80], false⟩⟩

/-- Three requests for one asset and two for another come in between each other. The first asset is resolved, and the request that
waited for it finds it cached; another is cancelled. The resolution of the second asset fails, and the next one finds no domain. -/
def spoofServed : List Icons.Event :=
  [.arrives 0 (utf8 "SPOOF") spoofIssuer, .arrives 1 (utf8 "SPOOF") spoofIssuer, .arrives 2 (utf8 "SPOOF") spoofIssuer,
   .arrives 3 (utf8 "BUSY") spoofIssuer, .acts 0 (.looks 5), .acts 0 .claims, .acts 1 (.looks 5), .acts 3 (.looks 5), .acts 1 .claims,
   .acts 2 (.looks 6), .acts 3 .claims, .acts 0 (.starts 6), .acts 2 .claims, .acts 3 (.starts 7), .acts 0 (.resolves spoofUpstream),
   .acts 2 .cancels, .acts 3 (.resolves busyUpstream), .acts 0 .stores, .acts 3 .releases, .acts 0 .releases, .acts 1 .wakes,
   .acts 1 (.looks 8), .arrives 4 (utf8 "BUSY") spoofIssuer, .acts 4 (.looks 8), .acts 4 .claims, .acts 4 (.starts 9),
   .acts 4 (.resolves ⟨.answered 404 [] .malformed, spoofUpstream.toml, spoofUpstream.image⟩), .acts 4 .stores, .acts 4 .releases]

def spoofEntry : Entry := ⟨[137, 80], utf8 "image/png", utf8 "e.io", utf8 "coin", [], 6, true⟩

def busyError : IconError := .wrap "horizon account" (.transient (some 429))

/-- What the five requests came to. -/
def spoofResults : List Result := [.served spoofEntry, .served spoofEntry, .cancelled, .failed busyError, .served (Entry.bare [] 9)]

theorem assets_served_spoof : ∃ w, run (Icons.step id) Viewers.start spoofServed = some w ∧
    ∀ pid result, spoofResults[pid]? = some result → ∃ v returned, w.requests pid = some v ∧ v.phase = .finished result ∧
      result.returned = some returned ∧ IconServed id w pid v result (assetIcon v.code v.issuer returned) ∧
      MetaServed id w pid v result (assetMeta v.code v.issuer returned).fetchedMeta := by
  have hend : (run (Icons.step id) Viewers.start spoofServed).map
      (fun w => (List.range 5).map fun pid => (w.requests pid).map Viewer.phase) =
      some (spoofResults.map fun result => some (.finished result)) := by
    decide +kernel
  obtain ⟨w, hw, hv⟩ := Option.map_eq_some_iff.mp hend
  have hadmitted : ∀ e ∈ spoofServed, Admitted e := by
    have hspoof : validAsset (utf8 "SPOOF") spoofIssuer = true := by decide +kernel
    have hbusy : validAsset (utf8 "BUSY") spoofIssuer = true := by decide +kernel
    simp only [spoofServed, List.forall_mem_cons, Admitted, List.not_mem_nil, false_implies, implies_true, and_true, true_and]
    exact ⟨hspoof, hspoof, hspoof, hbusy, hbusy⟩
  refine ⟨w, hw, fun pid result hresult => ?_⟩
  have hphase : (w.requests pid).map Viewer.phase = some (.finished result) := by
    have hpid : pid < 5 := (List.getElem?_eq_some_iff.mp hresult).1
    have heq := congrArg (fun phases => phases[pid]?) hv
    simpa [List.getElem?_map, hresult, hpid] using heq
  obtain ⟨v, hv, hphase⟩ := Option.map_eq_some_iff.mp hphase
  have hreturns : ∀ result ∈ spoofResults, ∃ returned, result.returned = some returned := by
    simp [spoofResults, Result.returned]
  obtain ⟨returned, hreturned⟩ := hreturns result (List.mem_of_getElem? hresult)
  exact ⟨v, returned, hv, hphase, hreturned, assets_served id hadmitted hw hv hphase hreturned⟩

end Wire

end Soroscan
