import Soroscan.Lemmas.Collected

/-!
# The value of a lifetime

A lifetime can change several times in one transaction. The walk keeps the first written value of each key hash, over a pre-image
of it, and stops looking at lifetimes once it has met as many different hashes as fit. The row of a hash shows the value written
last exactly when nothing later differs from what was kept (`LastWriteStands`).
-/

namespace Soroscan

/-- A lifetime that was not removed: a written value, or a pre-image. -/
structure TtlChange where
  hash : Text
  value : Nat
  written : Bool
  deriving DecidableEq, Repr

/-- The lifetime a change is about. -/
def ttlChangeOf : LedgerEntryChange → Option TtlChange
  | .created (.ttl keyHash liveUntil) => some ⟨hexText keyHash.bytes, liveUntil.toNat, true⟩
  | .updated (.ttl keyHash liveUntil) => some ⟨hexText keyHash.bytes, liveUntil.toNat, true⟩
  | .restored (.ttl keyHash liveUntil) => some ⟨hexText keyHash.bytes, liveUntil.toNat, true⟩
  | .state (.ttl keyHash liveUntil) => some ⟨hexText keyHash.bytes, liveUntil.toNat, false⟩
  | _ => none

/-- The lifetimes of a list of changes. -/
def ttlChangesOf (changes : List LedgerEntryChange) : List TtlChange := changes.filterMap ttlChangeOf

/-- The written values of a hash. -/
def writesOf (hash : Text) (l : List TtlChange) : List TtlChange := l.filter fun c => decide (c.hash = hash) && c.written

/-- The pre-images of a hash. -/
def imagesOf (hash : Text) (l : List TtlChange) : List TtlChange := l.filter fun c => decide (c.hash = hash) && !c.written

/-- Every row shows the value its hash was written with last, and that of a pre-image if it was not written. -/
def TtlShowsLast (changes : List LedgerEntryChange) : Prop :=
  ∀ row ∈ (walkChanges changes).ttlExtensions,
    match (writesOf row.keyHash (ttlChangesOf changes)).getLast? with
    | some last => row.liveUntilLedger = last.value
    | none => row.liveUntilLedger ∈ (imagesOf row.keyHash (ttlChangesOf changes)).map TtlChange.value

/-! ## What the walk looks at -/

/-- One more lifetime, as long as those before it have fewer different hashes than fit. -/
def pushEarly (l : List TtlChange) (c : TtlChange) : List TtlChange :=
  if (l.map TtlChange.hash).dedup.length < maxItems then l ++ [c] else l

/-- The lifetimes up to the first one of the last hash that fits. -/
def early (l : List TtlChange) : List TtlChange := l.foldl pushEarly []

/-- The value a hash was written with first is the one it is written with last, and a hash that is only written after the walk
has stopped looking had that value before. -/
structure LastWriteStands (l : List TtlChange) : Prop where
  rewritten : ∀ hash first last, (writesOf hash (early l)).head? = some first → (writesOf hash l).getLast? = some last →
    first.value = last.value
  writtenLate : ∀ hash image last, writesOf hash (early l) = [] → (imagesOf hash (early l)).getLast? = some image →
    (writesOf hash l).getLast? = some last → image.value = last.value

theorem early_append (l : List TtlChange) (c : TtlChange) : early (l ++ [c]) = pushEarly (early l) c := by
  rw [early, List.foldl_append]
  rfl

/-- The walk looks at the front of the lifetimes. -/
theorem early_isInitial (l : List TtlChange) : early l <+: l := by
  have h : early l = l ∨ early l <+: l ∧ maxItems ≤ ((early l).map TtlChange.hash).dedup.length := by
    induction l using List.reverseRecOn with
    | nil => exact Or.inl rfl
    | append_singleton l c ih =>
      rw [early_append, pushEarly]
      rcases ih with heq | ⟨hinitial, hfull⟩
      · rw [heq]
        split_ifs with hroom
        · exact Or.inl rfl
        · exact Or.inr ⟨List.prefix_append _ _, not_lt.mp hroom⟩
      · rw [if_neg (not_lt.mpr hfull)]
        exact Or.inr ⟨hinitial.trans (List.prefix_append _ _), hfull⟩
  rcases h with heq | ⟨hinitial, -⟩
  · rw [heq]
  · exact hinitial

/-- What is known of a hash: its first written value, and its last pre-image before there is one. -/
def knownTtl (hash : Text) (l : List TtlChange) : Option TtlValue :=
  match (writesOf hash l).head? with
  | some c => some ⟨c.value, true⟩
  | none => (imagesOf hash l).getLast?.map fun c => ⟨c.value, false⟩

theorem knownTtl_append_of_ne {hash : Text} {c : TtlChange} (h : c.hash ≠ hash) (l : List TtlChange) :
    knownTtl hash (l ++ [c]) = knownTtl hash l := by
  simp [knownTtl, writesOf, imagesOf, h]

/-- A further lifetime of a hash replaces what is known, unless that was written. -/
theorem knownTtl_append (c : TtlChange) (l : List TtlChange) :
    knownTtl c.hash (l ++ [c]) =
      if (knownTtl c.hash l).all fun ttl => !ttl.written then some ⟨c.value, c.written⟩ else knownTtl c.hash l := by
  unfold knownTtl
  cases hhead : (writesOf c.hash l).head? with
  | some first =>
    rw [writesOf, List.filter_append, List.head?_append, show (l.filter _).head? = some first from hhead]
    rfl
  | none =>
    have hnil : writesOf c.hash l = [] := List.head?_eq_none_iff.mp hhead
    have hall : ((imagesOf c.hash l).getLast?.map fun c => (⟨c.value, false⟩ : TtlValue)).all fun ttl => !ttl.written := by
      cases (imagesOf c.hash l).getLast? <;> rfl
    rw [if_pos hall, writesOf, List.filter_append, show l.filter _ = [] from hnil, List.nil_append]
    cases hw : c.written <;> simp [imagesOf, hw]

theorem knownTtl_isSome_iff (hash : Text) (l : List TtlChange) :
    (knownTtl hash l).isSome ↔ hash ∈ l.map TtlChange.hash := by
  induction l using List.reverseRecOn with
  | nil => simp [knownTtl, writesOf, imagesOf]
  | append_singleton l c ih =>
    rw [List.map_append, List.mem_append, List.map_singleton, List.mem_singleton, ← ih]
    by_cases h : c.hash = hash
    · subst h
      rw [knownTtl_append]
      split_ifs with hall
      · simp
      · cases hk : knownTtl c.hash l with
        | none => simp [hk] at hall
        | some v => simp
    · rw [knownTtl_append_of_ne h]
      simp [Ne.symm h]

/-! ## What the walk keeps -/

/-- A lifetime, as `walkChanges` takes it into its map. -/
def recordTtl (ttls : List (Text × TtlValue)) (c : TtlChange) : List (Text × TtlValue) :=
  if ((ttls.lookup c.hash).all fun ttl => !ttl.written) && decide (ttls.length < maxItems) then
    ChangesWalk.setTtl ttls c.hash ⟨c.value, c.written⟩
  else ttls

theorem ttlByHash_pushCandidate (w : ChangesWalk) (candidate : KeyCandidate) :
    (w.pushCandidate candidate).ttlByHash = w.ttlByHash := by
  unfold ChangesWalk.pushCandidate
  split_ifs <;> rfl

theorem ttlByHash_pushContractData (w : ChangesWalk) (kind : Option StateChangeKind) (contract : ScAddress) (key : ScVal)
    (durability : Durability) (val : Option ScVal) :
    (w.pushContractData kind contract key durability val).ttlByHash = w.ttlByHash := by
  cases kind with
  | none => exact ttlByHash_pushCandidate w _
  | some kind =>
    unfold ChangesWalk.pushContractData ChangesWalk.pushStateChange
    simp only
    split_ifs <;> exact ttlByHash_pushCandidate w _

theorem ttlByHash_pushTtl (w : ChangesWalk) (written : Bool) (keyHash : Bytes32) (liveUntil : BitVec 32) :
    (w.pushTtl written keyHash liveUntil).ttlByHash = recordTtl w.ttlByHash ⟨hexText keyHash.bytes, liveUntil.toNat, written⟩ := by
  unfold ChangesWalk.pushTtl recordTtl
  simp only
  split_ifs <;> rfl

/-- A change is taken in as the lifetime it is about, if it is about one. -/
theorem ttlByHash_pushChange (w : ChangesWalk) (change : LedgerEntryChange) :
    (w.pushChange change).ttlByHash = (ttlChangeOf change).elim w.ttlByHash (recordTtl w.ttlByHash) := by
  rcases change with data | data | key | data | data <;> [cases data; cases data; cases key; cases data; cases data]
  all_goals
    first
    | exact ttlByHash_pushTtl w _ _ _
    | exact ttlByHash_pushContractData w _ _ _ _ _
    | exact ttlByHash_pushCandidate w _
    | rfl

theorem ttlByHash_walkChanges (changes : List LedgerEntryChange) :
    (walkChanges changes).ttlByHash = (ttlChangesOf changes).foldl recordTtl [] := by
  have h : ∀ w : ChangesWalk, (changes.foldl ChangesWalk.pushChange w).ttlByHash =
      (ttlChangesOf changes).foldl recordTtl w.ttlByHash := by
    induction changes with
    | nil => exact fun _ => rfl
    | cons change changes ih =>
      intro w
      rw [List.foldl_cons, ih, ttlByHash_pushChange, ttlChangesOf, ttlChangesOf]
      cases hchange : ttlChangeOf change with
      | none => rw [List.filterMap_cons_none hchange, Option.elim_none]
      | some c => rw [List.filterMap_cons_some hchange, Option.elim_some, List.foldl_cons]
  exact h _

/-- The entry of a hash replaced, as far as there is one. -/
theorem lookup_replace (ttls : List (Text × TtlValue)) (hash : Text) (ttl : TtlValue) (other : Text) :
    (ttls.map fun t => if t.1 = hash then (hash, ttl) else t).lookup other =
      if other = hash ∧ hash ∈ ttls.map Prod.fst then some ttl else ttls.lookup other := by
  induction ttls with
  | nil => simp
  | cons t ttls ih =>
    obtain ⟨key, value⟩ := t
    rw [List.map_cons, List.map_cons, List.lookup_cons]
    simp only [List.mem_cons]
    by_cases hkey : key = hash
    · subst hkey
      rw [if_pos rfl, List.lookup_cons, ih]
      by_cases hother : other = key
      · simp [hother]
      · simp [hother, beq_eq_false_iff_ne.mpr hother]
    · have hmem : hash = key ∨ hash ∈ ttls.map Prod.fst ↔ hash ∈ ttls.map Prod.fst := or_iff_right (Ne.symm hkey)
      rw [if_neg hkey, List.lookup_cons, ih]
      by_cases hother : other = hash
      · rw [beq_eq_false_iff_ne.mpr fun h => hkey (h.symm.trans hother)]
        exact (if_congr (and_congr_right' hmem) rfl rfl).symm
      · simp [hother]

theorem lookup_setTtl (ttls : List (Text × TtlValue)) (hash : Text) (ttl : TtlValue) (other : Text) :
    (ChangesWalk.setTtl ttls hash ttl).lookup other = if other = hash then some ttl else ttls.lookup other := by
  have hany : (ttls.any fun t => decide (t.1 = hash)) = true ↔ hash ∈ ttls.map Prod.fst := by
    rw [List.any_eq_true, List.mem_map]
    simp only [decide_eq_true_eq]
  unfold ChangesWalk.setTtl
  split_ifs with h hother hother
  · rw [lookup_replace, if_pos ⟨hother, hany.mp h⟩]
  · rw [lookup_replace, if_neg fun hboth => hother hboth.1]
  · subst hother
    have hnone : ttls.lookup other = none := by
      rw [← Option.not_isSome_iff_eq_none, ChangesWalk.lookup_isSome_iff]
      exact fun hmem => h (hany.mpr hmem)
    rw [List.lookup_append, hnone, Option.none_or, List.lookup_cons_self]
  · rw [List.lookup_append, List.lookup_cons, beq_eq_false_iff_ne.mpr hother, List.lookup_nil, Option.or_none]

/-- What the map of lifetimes holds after a list of them. -/
structure Recorded (ttls : List (Text × TtlValue)) (l : List TtlChange) : Prop where
  nodup : (ttls.map Prod.fst).Nodup
  lookup : ∀ hash, ttls.lookup hash = knownTtl hash (early l)

theorem Recorded.mem_iff {ttls : List (Text × TtlValue)} {l : List TtlChange} (h : Recorded ttls l) (hash : Text) :
    hash ∈ ttls.map Prod.fst ↔ hash ∈ (early l).map TtlChange.hash := by
  rw [← ChangesWalk.lookup_isSome_iff, h.lookup, knownTtl_isSome_iff]

/-- The map has one entry for each hash that was looked at. -/
theorem Recorded.length_eq {ttls : List (Text × TtlValue)} {l : List TtlChange} (h : Recorded ttls l) :
    ttls.length = ((early l).map TtlChange.hash).dedup.length := by
  rw [← List.length_map Prod.fst]
  refine List.Perm.length_eq ((List.perm_ext_iff_of_nodup h.nodup (List.nodup_dedup _)).mpr fun hash => ?_)
  rw [h.mem_iff, List.mem_dedup]

theorem nodup_setTtl {ttls : List (Text × TtlValue)} (h : (ttls.map Prod.fst).Nodup) (hash : Text) (ttl : TtlValue) :
    ((ChangesWalk.setTtl ttls hash ttl).map Prod.fst).Nodup := by
  rw [ChangesWalk.hashes_setTtl]
  split_ifs with hmem
  · exact h
  · rw [← List.concat_eq_append]
    exact List.Nodup.concat hmem h

theorem Recorded.record {ttls : List (Text × TtlValue)} {l : List TtlChange} (h : Recorded ttls l) (c : TtlChange) :
    Recorded (recordTtl ttls c) (l ++ [c]) := by
  have hlength := h.length_eq
  unfold recordTtl
  simp only [Bool.and_eq_true, decide_eq_true_eq, h.lookup]
  by_cases hroom : ttls.length < maxItems
  · have hearly : early (l ++ [c]) = early l ++ [c] := by rw [early_append, pushEarly, if_pos (hlength ▸ hroom)]
    split_ifs with hknown
    · refine ⟨nodup_setTtl h.nodup _ _, fun hash => ?_⟩
      rw [lookup_setTtl, hearly]
      split_ifs with heq
      · subst heq
        rw [knownTtl_append, if_pos hknown.1]
      · rw [knownTtl_append_of_ne (Ne.symm heq), h.lookup]
    · refine ⟨h.nodup, fun hash => ?_⟩
      rw [h.lookup, hearly]
      by_cases heq : c.hash = hash
      · subst heq
        rw [knownTtl_append, if_neg fun hall => hknown ⟨hall, hroom⟩]
      · rw [knownTtl_append_of_ne heq]
  · have hearly : early (l ++ [c]) = early l := by rw [early_append, pushEarly, if_neg (hlength ▸ hroom)]
    rw [if_neg fun hknown => hroom hknown.2]
    exact ⟨h.nodup, fun hash => by rw [h.lookup, hearly]⟩

theorem recorded_foldl (l : List TtlChange) : Recorded (l.foldl recordTtl []) l := by
  induction l using List.reverseRecOn with
  | nil => exact ⟨List.nodup_nil, fun _ => rfl⟩
  | append_singleton l c ih =>
    rw [List.foldl_append]
    exact ih.record c

/-- With different keys, the entries are what the lookup finds. -/
theorem mem_iff_lookup {ttls : List (Text × TtlValue)} (h : (ttls.map Prod.fst).Nodup) (t : Text × TtlValue) :
    t ∈ ttls ↔ ttls.lookup t.1 = some t.2 := by
  induction ttls with
  | nil => simp
  | cons u ttls ih =>
    rw [List.map_cons, List.nodup_cons] at h
    rw [List.mem_cons, List.lookup_cons, ih h.2]
    by_cases heq : t.1 = u.1
    · have hnone : ttls.lookup t.1 ≠ some t.2 := by
        intro hsome
        exact h.1 (heq ▸ List.mem_map_of_mem ((ih h.2).mpr hsome))
      simp only [heq, beq_self_eq_true, Option.some.injEq]
      rw [← heq]
      constructor
      · rintro (rfl | hsome)
        · rfl
        · exact absurd hsome hnone
      · intro hvalue
        exact Or.inl (Prod.ext heq hvalue.symm)
    · have hne : t ≠ u := fun htu => heq (by rw [htu])
      simp [hne, beq_eq_false_iff_ne.mpr heq]

/-- The rows are the hashes that were looked at, each with the value that is known of it. -/
theorem mem_ttlExtensions_iff (changes : List LedgerEntryChange) (row : TraceTtl) :
    row ∈ (walkChanges changes).ttlExtensions ↔
      ∃ ttl, knownTtl row.keyHash (early (ttlChangesOf changes)) = some ttl ∧ row = ⟨row.keyHash, ttl.value, none, none⟩ := by
  have hrec := recorded_foldl (ttlChangesOf changes)
  rw [← ttlByHash_walkChanges] at hrec
  rw [ChangesWalk.ttlExtensions, List.mem_map]
  constructor
  · rintro ⟨t, ht, rfl⟩
    exact ⟨t.2, (hrec.lookup t.1).symm.trans ((mem_iff_lookup hrec.nodup t).mp ht), rfl⟩
  · rintro ⟨ttl, hknown, hrow⟩
    refine ⟨(row.keyHash, ttl), (mem_iff_lookup hrec.nodup _).mpr ((hrec.lookup _).trans hknown), hrow.symm⟩

/-- A hash that is written is shown with its last value, or with that of a pre-image, exactly when its value is known so. -/
theorem ttlShowsLast_iff_known (changes : List LedgerEntryChange) :
    TtlShowsLast changes ↔ ∀ hash ttl, knownTtl hash (early (ttlChangesOf changes)) = some ttl →
      match (writesOf hash (ttlChangesOf changes)).getLast? with
      | some last => ttl.value = last.value
      | none => ttl.value ∈ (imagesOf hash (ttlChangesOf changes)).map TtlChange.value := by
  constructor
  · intro h hash ttl hknown
    exact h ⟨hash, ttl.value, none, none⟩ ((mem_ttlExtensions_iff changes _).mpr ⟨ttl, hknown, rfl⟩)
  · intro h row hrow
    obtain ⟨ttl, hknown, heq⟩ := (mem_ttlExtensions_iff changes row).mp hrow
    rw [heq]
    exact h row.keyHash ttl hknown

/-- Every row shows the last written value, or that of a pre-image, exactly when the last write of each hash stands. -/
theorem ttlShowsLast_iff (changes : List LedgerEntryChange) :
    TtlShowsLast changes ↔ LastWriteStands (ttlChangesOf changes) := by
  rw [ttlShowsLast_iff_known]
  constructor
  · intro h
    constructor
    · intro hash first last hfirst hlast
      have hshown := h hash ⟨first.value, true⟩ (by rw [knownTtl, hfirst])
      rw [hlast] at hshown
      exact hshown
    · intro hash image last hnone himage hlast
      have hshown := h hash ⟨image.value, false⟩ (by rw [knownTtl, hnone, List.head?_nil, himage]; rfl)
      rw [hlast] at hshown
      exact hshown
  · intro h hash ttl hknown
    rw [knownTtl] at hknown
    cases hfirst : (writesOf hash (early (ttlChangesOf changes))).head? with
    | some first =>
      rw [hfirst] at hknown
      cases hknown
      cases hlast : (writesOf hash (ttlChangesOf changes)).getLast? with
      | some last => exact h.rewritten hash first last hfirst hlast
      | none =>
        have hmem := List.mem_of_mem_head? hfirst
        have hsub : (writesOf hash (early (ttlChangesOf changes))).Sublist (writesOf hash (ttlChangesOf changes)) :=
          (early_isInitial _).sublist.filter _
        rw [List.getLast?_eq_none_iff.mp hlast] at hsub
        exact absurd (hsub.subset hmem) (List.not_mem_nil)
    | none =>
      rw [hfirst] at hknown
      obtain ⟨image, himage, rfl⟩ := Option.map_eq_some_iff.mp hknown
      cases hlast : (writesOf hash (ttlChangesOf changes)).getLast? with
      | some last => exact h.writtenLate hash image last (List.head?_eq_none_iff.mp hfirst) himage hlast
      | none =>
        have hsub : (imagesOf hash (early (ttlChangesOf changes))).Sublist (imagesOf hash (ttlChangesOf changes)) :=
          (early_isInitial _).sublist.filter _
        exact List.mem_map_of_mem (hsub.subset (List.mem_of_getLast? himage))

/-- A lifetime that is restored up to ledger 10 and then extended to ledger 20. -/
def restoredThenExtended : List LedgerEntryChange := [.restored (.ttl Bytes32.zero 10), .updated (.ttl Bytes32.zero 20)]

/-- The row shows ledger 10. -/
theorem restoredThenExtended_shows :
    (walkChanges restoredThenExtended).ttlExtensions.map (·.liveUntilLedger) = [10] ∧ ¬TtlShowsLast restoredThenExtended := by
  refine ⟨by decide +kernel, ?_⟩
  rw [ttlShowsLast_iff_known]
  intro h
  have hvalue := h (hexText Bytes32.zero.bytes) ⟨10, true⟩ rfl
  rw [show (writesOf (hexText Bytes32.zero.bytes) (ttlChangesOf restoredThenExtended)).getLast? =
    some ⟨hexText Bytes32.zero.bytes, 20, true⟩ by decide +kernel] at hvalue
  exact absurd hvalue (by decide)

end Soroscan
