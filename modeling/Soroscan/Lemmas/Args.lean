import Soroscan.Args
import Soroscan.Lib.JsonRoundTrip

/-!
# Placeholders and addresses

Rewriting addresses to placeholders keeps a value well formed, and putting the addresses back gives the value again exactly
when the value itself holds no object that reads as a placeholder (`Plain`).
-/

namespace Soroscan

mutual

/-- No object at any depth of the value reads as a placeholder. -/
def Plain : Json → Prop
  | .arr items => PlainItems items
  | .obj members => placeholderID members = none ∧ PlainMembers members
  | _ => True

def PlainItems : List Json → Prop
  | [] => True
  | v :: vs => Plain v ∧ PlainItems vs

def PlainMembers : List (Text × Json) → Prop
  | [] => True
  | (_, v) :: ms => Plain v ∧ PlainMembers ms

end

/-! ## Well-formedness -/

theorem placeholder_ok (id : BitVec 32) : (placeholder id).Ok := by
  simp [placeholder, Json.Ok, Json.OkMembers, Json.readNumber_intDecimal]

theorem rewriteMembers_names (ids : Text → Option (BitVec 32)) (ms : List (Text × Json)) :
    (rewriteMembers ids ms).map (·.1) = ms.map (·.1) := by
  induction ms with
  | nil => rfl
  | cons m ms ih => rw [rewriteMembers, List.map_cons, List.map_cons, ih]

mutual

theorem rewriteAddresses_ok (ids : Text → Option (BitVec 32)) : ∀ v : Json, v.Ok → (rewriteAddresses ids v).Ok
  | .null, _ => trivial
  | .bool _, _ => trivial
  | .num _, h => h
  | .str s, _ => by
    rw [rewriteAddresses]
    split
    · exact placeholder_ok _
    · trivial
  | .arr items, h => rewriteItems_ok ids items h
  | .obj members, h => by
    refine ⟨?_, rewriteMembers_ok ids members h.2⟩
    rw [rewriteMembers_names]
    exact h.1

theorem rewriteItems_ok (ids : Text → Option (BitVec 32)) : ∀ vs : List Json, Json.OkItems vs →
    Json.OkItems (rewriteItems ids vs)
  | [], _ => trivial
  | v :: vs, h => ⟨rewriteAddresses_ok ids v h.1, rewriteItems_ok ids vs h.2⟩

theorem rewriteMembers_ok (ids : Text → Option (BitVec 32)) : ∀ ms : List (Text × Json), Json.OkMembers ms →
    Json.OkMembers (rewriteMembers ids ms)
  | [], _ => trivial
  | (_, v) :: ms, h => ⟨rewriteAddresses_ok ids v h.1, rewriteMembers_ok ids ms h.2⟩

end

/-! ## Reading a placeholder -/

/-- The decimal form of a 32-bit integer is read back. -/
@[simp] theorem parseInt32_intDecimal (id : BitVec 32) : parseInt32 (intDecimal id.toInt) = some id := by
  have hne : ∀ t, intDecimal id.toInt ≠ '+' :: t := by
    intro t h
    have hr := readInt_intDecimal id.toInt
    rw [h] at hr
    simp [readInt, readDecimal] at hr
  have hlo := BitVec.le_toInt id
  have hhi := BitVec.toInt_lt (x := id)
  unfold parseInt32
  split
  · rename_i ds heq
    exact absurd heq (hne ds)
  · rw [readInt_intDecimal, Option.bind_some, if_pos ⟨by simpa using hlo, by simpa using hhi⟩, BitVec.ofInt_toInt]

@[simp] theorem placeholderID_placeholder (id : BitVec 32) :
    placeholderID [(placeholderName, .num (intDecimal id.toInt))] = some id := by
  simp [placeholderID]

/-- A member whose value is no number makes no placeholder. -/
theorem placeholderID_of_not_num {k : Text} {v : Json} (h : ∀ token, v ≠ .num token) : placeholderID [(k, v)] = none := by
  cases v with
  | num token => exact absurd rfl (h token)
  | _ => rfl

/-- Rewriting gives a number only for a number. -/
theorem rewriteAddresses_ne_num {ids : Text → Option (BitVec 32)} {v : Json} (h : ∀ token, v ≠ .num token) :
    ∀ token, rewriteAddresses ids v ≠ .num token := by
  intro token
  cases v with
  | num t => exact absurd rfl (h t)
  | str s =>
    rw [rewriteAddresses]
    split <;> simp [placeholder]
  | _ => simp [rewriteAddresses]

/-- Rewriting the members of an object neither makes it a placeholder nor stops it from being one. -/
theorem placeholderID_rewriteMembers (ids : Text → Option (BitVec 32)) (ms : List (Text × Json)) :
    placeholderID (rewriteMembers ids ms) = placeholderID ms := by
  match ms with
  | [] => rfl
  | [(k, .num token)] => rfl
  | [(k, .null)] => rfl
  | [(k, .bool _)] => rfl
  | [(k, .arr _)] => rfl
  | [(k, .obj _)] => rfl
  | [(k, .str s)] =>
    have h : ∀ token, Json.str s ≠ .num token := by simp
    rw [placeholderID_of_not_num h]
    exact placeholderID_of_not_num (rewriteAddresses_ne_num h)
  | (k, v) :: (k', v') :: ms => simp [rewriteMembers, placeholderID]

/-! ## Putting the addresses back -/

/-- A dictionary and its inverse name the addresses of a list: each has an id, and the id leads back to it. -/
def Names (ids : Text → Option (BitVec 32)) (addrs : BitVec 32 → Option Text) (as : List Text) : Prop :=
  ∀ a ∈ as, ∃ id, ids a = some id ∧ addrs id = some a

theorem Names.left {ids : Text → Option (BitVec 32)} {addrs : BitVec 32 → Option Text} {as bs : List Text}
    (h : Names ids addrs (as ++ bs)) : Names ids addrs as := fun a ha => h a (List.mem_append_left _ ha)

theorem Names.right {ids : Text → Option (BitVec 32)} {addrs : BitVec 32 → Option Text} {as bs : List Text}
    (h : Names ids addrs (as ++ bs)) : Names ids addrs bs := fun a ha => h a (List.mem_append_right _ ha)

/-- An address comes back from its placeholder, every other string was never replaced. -/
theorem resolve_rewrite_str {ids : Text → Option (BitVec 32)} {addrs : BitVec 32 → Option Text} {s : Text}
    (h : Names ids addrs (collectAddresses (.str s))) :
    resolvePlaceholders addrs (rewriteAddresses ids (.str s)) = .str s := by
  rw [rewriteAddresses]
  split
  · rename_i hs
    obtain ⟨id, hid, haddr⟩ := h s (by simp [collectAddresses, hs])
    simp [placeholder, resolvePlaceholders, hid, haddr]
  · rfl

mutual

/-- Rewriting and putting back gives a value again exactly when no object of it reads as a placeholder. -/
theorem resolve_rewrite_iff {ids : Text → Option (BitVec 32)} {addrs : BitVec 32 → Option Text} : ∀ v : Json,
    Names ids addrs (collectAddresses v) → (resolvePlaceholders addrs (rewriteAddresses ids v) = v ↔ Plain v)
  | .null, _ => iff_of_true rfl trivial
  | .bool _, _ => iff_of_true rfl trivial
  | .num _, _ => iff_of_true rfl trivial
  | .str s, h => iff_of_true (resolve_rewrite_str h) trivial
  | .arr items, h => by
    rw [rewriteAddresses, resolvePlaceholders, Json.arr.injEq]
    exact resolveItems_rewrite_iff items h
  | .obj members, h => by
    rw [rewriteAddresses, resolvePlaceholders, placeholderID_rewriteMembers, Plain]
    cases hp : placeholderID members with
    | some id => simp
    | none =>
      simp only [Json.obj.injEq, true_and]
      exact resolveMembers_rewrite_iff members h

theorem resolveItems_rewrite_iff {ids : Text → Option (BitVec 32)} {addrs : BitVec 32 → Option Text} :
    ∀ vs : List Json, Names ids addrs (collectAddressesItems vs) →
      (resolveItems addrs (rewriteItems ids vs) = vs ↔ PlainItems vs)
  | [], _ => iff_of_true rfl trivial
  | v :: vs, h => by
    rw [rewriteItems, resolveItems, List.cons.injEq, PlainItems]
    exact and_congr (resolve_rewrite_iff v h.left) (resolveItems_rewrite_iff vs h.right)

theorem resolveMembers_rewrite_iff {ids : Text → Option (BitVec 32)} {addrs : BitVec 32 → Option Text} :
    ∀ ms : List (Text × Json), Names ids addrs (collectAddressesMembers ms) →
      (resolveMembers addrs (rewriteMembers ids ms) = ms ↔ PlainMembers ms)
  | [], _ => iff_of_true rfl trivial
  | (k, v) :: ms, h => by
    rw [rewriteMembers, resolveMembers, List.cons.injEq, Prod.mk.injEq, PlainMembers]
    simp only [true_and]
    exact and_congr (resolve_rewrite_iff v h.left) (resolveMembers_rewrite_iff ms h.right)

end

/-! ## Values without a placeholder -/

mutual

/-- A value without a placeholder is left as it is. -/
theorem resolvePlaceholders_eq_self (addrs : BitVec 32 → Option Text) : ∀ v : Json, collectPlaceholderIDs v = [] →
    resolvePlaceholders addrs v = v
  | .null, _ => rfl
  | .bool _, _ => rfl
  | .num _, _ => rfl
  | .str _, _ => rfl
  | .arr items, h => by
    rw [collectPlaceholderIDs] at h
    rw [resolvePlaceholders, resolveItems_eq_self addrs items h]
  | .obj members, h => by
    rw [collectPlaceholderIDs] at h
    split at h
    · cases h
    · rename_i hid
      rw [resolvePlaceholders, hid]
      simp only [resolveMembers_eq_self addrs members h]

theorem resolveItems_eq_self (addrs : BitVec 32 → Option Text) : ∀ vs : List Json, collectPlaceholderIDsItems vs = [] →
    resolveItems addrs vs = vs
  | [], _ => rfl
  | v :: vs, h => by
    rw [collectPlaceholderIDsItems, List.append_eq_nil_iff] at h
    rw [resolveItems, resolvePlaceholders_eq_self addrs v h.1, resolveItems_eq_self addrs vs h.2]

theorem resolveMembers_eq_self (addrs : BitVec 32 → Option Text) : ∀ ms : List (Text × Json),
    collectPlaceholderIDsMembers ms = [] → resolveMembers addrs ms = ms
  | [], _ => rfl
  | (k, v) :: ms, h => by
    rw [collectPlaceholderIDsMembers, List.append_eq_nil_iff] at h
    rw [resolveMembers, resolvePlaceholders_eq_self addrs v h.1, resolveMembers_eq_self addrs ms h.2]

end

/-! ## Putting addresses back -/

theorem resolveMembers_names (addrs : BitVec 32 → Option Text) (ms : List (Text × Json)) :
    (resolveMembers addrs ms).map (·.1) = ms.map (·.1) := by
  induction ms with
  | nil => rfl
  | cons m ms ih => rw [resolveMembers, List.map_cons, List.map_cons, ih]

mutual

/-- With its addresses back a value is still well formed. -/
theorem resolvePlaceholders_ok (addrs : BitVec 32 → Option Text) : ∀ v : Json, v.Ok → (resolvePlaceholders addrs v).Ok
  | .null, _ => trivial
  | .bool _, _ => trivial
  | .num _, h => h
  | .str _, _ => trivial
  | .arr items, h => resolveItems_ok addrs items h
  | .obj members, h => by
    rw [resolvePlaceholders]
    split
    · trivial
    · refine ⟨?_, resolveMembers_ok addrs members h.2⟩
      rw [resolveMembers_names]
      exact h.1

theorem resolveItems_ok (addrs : BitVec 32 → Option Text) : ∀ vs : List Json, Json.OkItems vs → Json.OkItems (resolveItems addrs vs)
  | [], _ => trivial
  | v :: vs, h => ⟨resolvePlaceholders_ok addrs v h.1, resolveItems_ok addrs vs h.2⟩

theorem resolveMembers_ok (addrs : BitVec 32 → Option Text) : ∀ ms : List (Text × Json), Json.OkMembers ms →
    Json.OkMembers (resolveMembers addrs ms)
  | [], _ => trivial
  | (_, v) :: ms, h => ⟨resolvePlaceholders_ok addrs v h.1, resolveMembers_ok addrs ms h.2⟩

end

end Soroscan
