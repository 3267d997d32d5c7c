import Soroscan.Icons
import Mathlib.Data.List.Dedup

/-!
# The order of the icon cache

The order is that of insertion. A key that is stored again keeps its place, so the order is that of freshness exactly as long as
only the last key is stored again while it is cached.
-/

namespace Soroscan

namespace Icons

/-! ## Keys by their last use -/

/-- The keys of a list by their last occurrence, after one more. -/
theorem dedup_concat {α : Type} [DecidableEq α] (l : List α) (a : α) :
    (l ++ [a]).dedup = (l.dedup.filter fun b => decide (b ≠ a)) ++ [a] := by
  induction l with
  | nil => rfl
  | cons b l ih =>
    by_cases hmem : b ∈ l
    · rw [List.cons_append, List.dedup_cons_of_mem (List.mem_append_left _ hmem), List.dedup_cons_of_mem hmem, ih]
    · rw [List.cons_append, List.dedup_cons_of_notMem hmem]
      by_cases hba : b = a
      · rw [List.dedup_cons_of_mem (by rw [hba]; exact List.mem_append_right _ List.mem_cons_self), ih,
          List.filter_cons_of_neg (by simpa using hba)]
      · rw [List.dedup_cons_of_notMem (by simp [hmem, hba]), ih, List.filter_cons_of_pos (by simpa using hba), List.cons_append]

/-! ## Evictions -/

/-- A sum over keys does not see a key that is not one of them. -/
theorem sum_map_update_of_notMem {α : Type} [DecidableEq α] (f : α → Int) {l : List α} {a : α} (h : a ∉ l) (x : Int) :
    (l.map (Function.update f a x)).sum = (l.map f).sum := by
  congr 1
  refine List.map_congr_left fun b hb => Function.update_of_ne ?_ x f
  rintro rfl
  exact h hb

namespace Service

/-- The keys in the order are those in the cache, each once. -/
structure Listed (s : Service) : Prop where
  nodup : s.order.Nodup
  cached_iff : ∀ key, (s.cache key).isSome ↔ key ∈ s.order

theorem listed_new : new.Listed := ⟨List.nodup_nil, fun _ => iff_of_false Bool.false_ne_true List.not_mem_nil⟩

/-- A key that is stored takes the last place, unless it has one. -/
theorem insert_order (s : Service) (key : Bytes) (value : Entry) :
    (s.insert key value).order = if (s.cache key).isSome then s.order else s.order ++ [key] := by
  unfold insert
  cases s.cache key <;> rfl

theorem insert_cache (s : Service) (key : Bytes) (value : Entry) :
    (s.insert key value).cache = Function.update s.cache key (some value) := by
  unfold insert
  cases s.cache key <;> rfl

theorem Listed.insert {s : Service} (h : s.Listed) (key : Bytes) (value : Entry) : (s.insert key value).Listed := by
  have hcached := h.cached_iff key
  constructor
  · rw [insert_order]
    split
    · exact h.nodup
    · next hnew =>
      rw [hcached] at hnew
      rw [← List.concat_eq_append]
      exact List.Nodup.concat hnew h.nodup
  · intro k
    rw [insert_cache, insert_order]
    by_cases hk : k = key
    · subst hk
      rw [Function.update_self]
      refine iff_of_true rfl ?_
      split
      · next hold => exact hcached.mp hold
      · exact List.mem_append_right _ List.mem_cons_self
    · rw [Function.update_of_ne hk, h.cached_iff k]
      split
      · exact Iff.rfl
      · rw [List.mem_append, List.mem_singleton, or_iff_left hk]

/-- The bytes that a key takes in the cache. -/
def bytesAt (cache : Bytes → Option Entry) (key : Bytes) : Int := (cache key).elim 0 fun e => e.size

theorem bytesAt_update (cache : Bytes → Option Entry) (key : Bytes) (e : Option Entry) :
    bytesAt (Function.update cache key e) = Function.update (bytesAt cache) key (e.elim 0 fun e => (e.size : Int)) := by
  funext k
  unfold bytesAt
  by_cases hk : k = key
  · rw [hk, Function.update_self, Function.update_self]
  · rw [Function.update_of_ne hk, Function.update_of_ne hk]

/-- What eviction does with some keys: it takes the first ones and their entries out, and ends within the budget or without a key. -/
structure Evicted (s : Service) (keys : List Bytes) (s' : Service) (gone : List Bytes) : Prop where
  append : gone ++ s'.order = keys
  cache : ∀ key, s'.cache key = if key ∈ gone then none else s.cache key
  cacheBytes : s'.cacheBytes = s.cacheBytes - (gone.map (bytesAt s.cache)).sum
  ends : s'.cacheBytes ≤ cacheBudget ∨ s'.order = []

theorem evicted_evict {s : Service} {keys : List Bytes} (hnodup : keys.Nodup) (hcached : ∀ key ∈ keys, (s.cache key).isSome) :
    Evicted s keys (s.evict keys).1 (s.evict keys).2 := by
  induction keys generalizing s with
  | nil => exact ⟨rfl, fun _ => rfl, (Int.sub_zero _).symm, .inr rfl⟩
  | cons oldest rest ih =>
    rw [evict]
    split
    · next hwithin => exact ⟨rfl, fun _ => rfl, (Int.sub_zero _).symm, .inl hwithin⟩
    · obtain ⟨hnotMem, hrest⟩ := List.nodup_cons.mp hnodup
      obtain ⟨hold, hcached⟩ := List.forall_mem_cons.mp hcached
      obtain ⟨evicted, hevicted⟩ := Option.isSome_iff_exists.mp hold
      have hne : ∀ key ∈ rest, key ≠ oldest := fun key hkey heq => hnotMem (heq ▸ hkey)
      have htail := @ih { s with cacheBytes := s.cacheBytes - evicted.size, cache := Function.update s.cache oldest none } hrest
        fun key hkey => by
          dsimp only
          rw [Function.update_of_ne (hne key hkey)]
          exact hcached key hkey
      rw [hevicted]
      dsimp only at htail ⊢
      generalize evict _ rest = out at htail ⊢
      have hgone : oldest ∉ out.2 := fun hmem => hnotMem (htail.append ▸ List.mem_append_left _ hmem)
      have hcache : ∀ key, out.1.cache key = if key ∈ out.2 then none else Function.update s.cache oldest none key := htail.cache
      have hbytes : out.1.cacheBytes =
        s.cacheBytes - evicted.size - (out.2.map (bytesAt (Function.update s.cache oldest none))).sum := htail.cacheBytes
      refine ⟨congrArg (List.cons oldest) htail.append, fun key => ?_, ?_, htail.ends⟩
      · rw [hcache key]
        by_cases hkey : key = oldest
        · rw [hkey, if_neg hgone, if_pos List.mem_cons_self, Function.update_self]
        · simp only [List.mem_cons, hkey, false_or, Function.update_of_ne hkey]
      · rw [bytesAt_update, sum_map_update_of_notMem _ hgone] at hbytes
        rw [hbytes, List.map_cons, List.sum_cons, bytesAt, hevicted, Option.elim_some]
        omega

/-- The keys that are evicted stand before those that stay, and are not cached any more; the others stay as they are. -/
theorem evict_spec {s : Service} {keys : List Bytes} (hnodup : keys.Nodup)
    (hcached : ∀ key, (s.cache key).isSome ↔ key ∈ keys) :
    (s.evict keys).2 ++ (s.evict keys).1.order = keys ∧
      (∀ key, ((s.evict keys).1.cache key).isSome ↔ key ∈ (s.evict keys).1.order) ∧
      ∀ key value, (s.evict keys).1.cache key = some value → s.cache key = some value := by
  have hevicted := evicted_evict hnodup fun key => (hcached key).mpr
  generalize s.evict keys = out at hevicted ⊢
  obtain rfl := hevicted.append
  refine ⟨rfl, fun key => ?_, fun key value hvalue => ?_⟩
  · rw [hevicted.cache key]
    split
    · next hgone => exact iff_of_false Bool.false_ne_true fun hkept => (List.nodup_append.mp hnodup).2.2 key hgone key hkept rfl
    · next hkept => rw [hcached key, List.mem_append, or_iff_right hkept]
  · rw [hevicted.cache key] at hvalue
    split at hvalue
    · cases hvalue
    · exact hvalue

/-- What a store evicts and what it keeps in order are what was inserted, in order. -/
theorem store_append {s : Service} (h : s.Listed) (key : Bytes) (value : Entry) :
    (s.store key value).2 ++ (s.store key value).1.order = (s.insert key value).order :=
  (evict_spec (h.insert key value).nodup (h.insert key value).cached_iff).1

theorem Listed.store {s : Service} (h : s.Listed) (key : Bytes) (value : Entry) : (s.store key value).1.Listed := by
  have hinserted := h.insert key value
  obtain ⟨happend, hlisted, -⟩ := evict_spec hinserted.nodup hinserted.cached_iff
  refine ⟨?_, hlisted⟩
  have hnodup := hinserted.nodup
  rw [← happend] at hnodup
  exact (List.nodup_append.mp hnodup).2.1

/-- What is cached after a store is the stored value, or was cached before. -/
theorem cache_of_store {s : Service} (h : s.Listed) {key k : Bytes} {value e : Entry}
    (he : (s.store key value).1.cache k = some e) : k = key ∧ e = value ∨ k ≠ key ∧ s.cache k = some e := by
  have hinserted := h.insert key value
  have hkept := (evict_spec hinserted.nodup hinserted.cached_iff).2.2 k e he
  rw [insert_cache] at hkept
  by_cases hk : k = key
  · rw [hk, Function.update_self] at hkept
    exact .inl ⟨hk, (Option.some.inj hkept).symm⟩
  · rw [Function.update_of_ne hk] at hkept
    exact .inr ⟨hk, hkept⟩

end Service

/-! ## Runs -/

/-- The service after some stores. -/
def storeAll (stores : List (Bytes × Entry)) : Service :=
  stores.foldl (fun s kv => (s.store kv.1 kv.2).1) Service.new

theorem storeAll_concat (stores : List (Bytes × Entry)) (key : Bytes) (value : Entry) :
    storeAll (stores ++ [(key, value)]) = ((storeAll stores).store key value).1 := by
  rw [storeAll, List.foldl_concat]
  rfl

theorem listed_storeAll (stores : List (Bytes × Entry)) : (storeAll stores).Listed := by
  induction stores using List.reverseRecOn with
  | nil => exact Service.listed_new
  | append_singleton stores kv ih =>
    rw [storeAll_concat]
    exact ih.store kv.1 kv.2

/-- The keys by their last store: the one stored longest ago first. -/
def byLastStore (stores : List (Bytes × Entry)) : List Bytes := (stores.map Prod.fst).dedup

/-- After the last of some stores, the keys that it evicted and then the cached ones in their order follow their last stores, and
the listing shows the newest first. -/
structure FollowsFreshness (stores : List (Bytes × Entry)) (evicted : List Bytes) (s : Service) : Prop where
  order : (evicted ++ s.order).Sublist (byLastStore stores)
  cached_iff : ∀ key, (s.cache key).isSome ↔ key ∈ s.order
  newestFirst : s.cached.Pairwise fun a b => b.fetchedAt ≤ a.fetchedAt

/-- In a run, the order follows freshness after every store. -/
def OrderIsFreshness (stores : List (Bytes × Entry)) : Prop :=
  ∀ before key value after, stores = before ++ (key, value) :: after →
    FollowsFreshness (before ++ [(key, value)]) ((storeAll before).store key value).2 ((storeAll before).store key value).1

/-- In a run, a key that is still cached is stored again only when it is the last one of the order. -/
def RestoresLast (stores : List (Bytes × Entry)) : Prop :=
  ∀ before key value after, stores = before ++ (key, value) :: after → ((storeAll before).cache key).isSome →
    (storeAll before).order.getLast? = some key

/-- The points in time of the stores do not decrease. -/
def InTime (stores : List (Bytes × Entry)) : Prop := (stores.map fun kv => kv.2.fetchedAt).Pairwise (· ≤ ·)

theorem byLastStore_concat (stores : List (Bytes × Entry)) (key : Bytes) (value : Entry) :
    byLastStore (stores ++ [(key, value)]) = ((byLastStore stores).filter fun k => decide (k ≠ key)) ++ [key] := by
  rw [byLastStore, List.map_append]
  exact dedup_concat _ key

/-! ## Where the order is that of freshness -/

/-- A list without repetition that lies in some others and then a key has the key last, if it has it. -/
theorem getLast?_of_sublist_concat {α : Type} {l front : List α} {a : α} (hsub : l.Sublist (front ++ [a]))
    (hfront : a ∉ front) (hmem : a ∈ l) : l.getLast? = some a := by
  obtain ⟨l₁, l₂, rfl, h₁, h₂⟩ := List.sublist_append_iff.mp hsub
  rcases List.sublist_singleton.mp h₂ with rfl | rfl
  · rw [List.append_nil] at hmem
    exact absurd (h₁.subset hmem) hfront
  · exact List.getLast?_concat

/-- A run whose order is that of freshness stores only the last key again while it is cached. -/
theorem restoresLast_of_orderIsFreshness {stores : List (Bytes × Entry)} (h : OrderIsFreshness stores) :
    RestoresLast stores := by
  intro before key value after hstores hcached
  have horder := (h before key value after hstores).order
  have hlisted := listed_storeAll before
  rw [Service.store_append hlisted, Service.insert_order, if_pos hcached, byLastStore_concat] at horder
  refine getLast?_of_sublist_concat horder ?_ ((hlisted.cached_iff key).mp hcached)
  simp

/-- The order of a service follows the last stores, also by the time of its entries. -/
structure Fresh (stores : List (Bytes × Entry)) (s : Service) : Prop where
  order : s.order.Sublist (byLastStore stores)
  times : s.order.Pairwise fun a b => ∀ ea ∈ s.cache a, ∀ eb ∈ s.cache b, ea.fetchedAt ≤ eb.fetchedAt
  stored : ∀ key value, s.cache key = some value → value ∈ stores.map Prod.snd

theorem fresh_new : Fresh [] Service.new :=
  ⟨List.Sublist.slnil, List.Pairwise.nil, fun _ _ h => by cases h⟩

/-- The listing goes through the order from its end. -/
theorem Fresh.newestFirst {stores : List (Bytes × Entry)} {s : Service} (h : Fresh stores s) :
    s.cached.Pairwise fun a b => b.fetchedAt ≤ a.fetchedAt := by
  unfold Service.cached
  rw [List.pairwise_filterMap, List.pairwise_reverse]
  refine h.times.imp fun {a b} hab x hx y hy => ?_
  obtain ⟨eb, heb, rfl⟩ := Option.map_eq_some_iff.mp hx
  obtain ⟨ea, hea, rfl⟩ := Option.map_eq_some_iff.mp hy
  exact hab ea hea eb heb

/-- A key that is new, or the last one, takes the last place. -/
theorem insert_order_of_last {s : Service} (hlisted : s.Listed) {key : Bytes} (value : Entry)
    (hlast : (s.cache key).isSome → s.order.getLast? = some key) :
    ∃ front, (s.insert key value).order = front ++ [key] ∧ front.Sublist s.order ∧ key ∉ front := by
  rw [Service.insert_order]
  by_cases hcached : (s.cache key).isSome
  · obtain ⟨front, hfront⟩ := List.getLast?_eq_some_iff.mp (hlast hcached)
    refine ⟨front, by rw [if_pos hcached, hfront], ?_, fun hmem => ?_⟩
    · rw [hfront]
      exact List.sublist_append_left _ _
    · have hnodup := hlisted.nodup
      rw [hfront] at hnodup
      exact (List.nodup_append.mp hnodup).2.2 key hmem key List.mem_cons_self rfl
  · refine ⟨s.order, by rw [if_neg hcached], List.Sublist.refl _, fun hmem => ?_⟩
    exact hcached ((hlisted.cached_iff key).mpr hmem)

/-- A store of a later outcome keeps the order fresh, if the key is new or the last one; what it evicts comes first. -/
theorem Fresh.store {stores : List (Bytes × Entry)} {s : Service} (h : Fresh stores s) (hlisted : s.Listed) {key : Bytes}
    {value : Entry} (hlast : (s.cache key).isSome → s.order.getLast? = some key)
    (htime : ∀ kv ∈ stores, kv.2.fetchedAt ≤ value.fetchedAt) :
    ((s.store key value).2 ++ (s.store key value).1.order).Sublist (byLastStore (stores ++ [(key, value)])) ∧
      Fresh (stores ++ [(key, value)]) (s.store key value).1 := by
  obtain ⟨front, hinserted, hfront, hnotMem⟩ := insert_order_of_last hlisted value hlast
  have happend := Service.store_append hlisted key value
  rw [hinserted] at happend
  have hsub : (front ++ [key]).Sublist (byLastStore (stores ++ [(key, value)])) := by
    rw [byLastStore_concat]
    refine List.Sublist.append ?_ (List.Sublist.refl _)
    have hfilter := (hfront.trans h.order).filter fun k => decide (k ≠ key)
    have hother : ∀ k ∈ front, decide (k ≠ key) = true := by
      intro k hk
      refine decide_eq_true fun heq => hnotMem ?_
      rwa [heq] at hk
    rwa [List.filter_eq_self.mpr hother] at hfilter
  have hkept : (s.store key value).1.order.Sublist (front ++ [key]) := by
    rw [← happend]
    exact List.sublist_append_right _ _
  refine ⟨happend ▸ hsub, hkept.trans hsub, ?_, ?_⟩
  · refine List.Pairwise.sublist hkept (List.pairwise_append.mpr ⟨?_, List.pairwise_singleton _ _, ?_⟩)
    · refine (List.Pairwise.and_mem.mp (h.times.sublist hfront)).imp fun {a b} hab ea hea eb heb => ?_
      obtain ⟨ha, hb, hle⟩ := hab
      rcases Service.cache_of_store hlisted hea with ⟨rfl, -⟩ | ⟨-, hea⟩
      · exact absurd ha hnotMem
      · rcases Service.cache_of_store hlisted heb with ⟨rfl, -⟩ | ⟨-, heb⟩
        · exact absurd hb hnotMem
        · exact hle ea hea eb heb
    · intro a ha b hb ea hea eb heb
      rw [List.mem_singleton.mp hb] at heb
      rcases Service.cache_of_store hlisted heb with ⟨-, rfl⟩ | ⟨hne, -⟩
      · rcases Service.cache_of_store hlisted hea with ⟨rfl, -⟩ | ⟨-, hea⟩
        · exact absurd ha hnotMem
        · obtain ⟨kv, hkv, rfl⟩ := List.mem_map.mp (h.stored a ea hea)
          exact htime kv hkv
      · exact absurd rfl hne
  · intro k e he
    rw [List.map_append]
    rcases Service.cache_of_store hlisted he with ⟨-, rfl⟩ | ⟨-, he⟩
    · exact List.mem_append_right _ List.mem_cons_self
    · exact List.mem_append_left _ (h.stored k e he)

theorem InTime.le {before after : List (Bytes × Entry)} {key : Bytes} {value : Entry}
    (h : InTime (before ++ (key, value) :: after)) : ∀ kv ∈ before, kv.2.fetchedAt ≤ value.fetchedAt := by
  intro kv hkv
  rw [InTime, List.map_append] at h
  exact (List.pairwise_append.mp h).2.2 _ (List.mem_map_of_mem hkv) _ List.mem_cons_self

/-- The order is fresh after every part of a run that stores only the last key again while it is cached. -/
theorem fresh_storeAll {stores : List (Bytes × Entry)} (htime : InTime stores) (h : RestoresLast stores) :
    ∀ before after, stores = before ++ after → Fresh before (storeAll before) := by
  intro before
  induction before using List.reverseRecOn with
  | nil => exact fun _ _ => fresh_new
  | append_singleton before kv ih =>
    intro after hstores
    have hsplit : stores = before ++ (kv.1, kv.2) :: after := by rw [hstores, List.append_assoc]; rfl
    rw [storeAll_concat]
    exact ((ih _ hsplit).store (listed_storeAll before) (h before kv.1 kv.2 after hsplit) (hsplit ▸ htime).le).2

theorem orderIsFreshness_of_restoresLast {stores : List (Bytes × Entry)} (htime : InTime stores) (h : RestoresLast stores) :
    OrderIsFreshness stores := by
  intro before key value after hstores
  have hlisted := listed_storeAll before
  obtain ⟨horder, hfresh⟩ := (fresh_storeAll htime h before _ hstores).store hlisted (h before key value after hstores)
    (hstores ▸ htime).le
  exact ⟨horder, (hlisted.store key value).cached_iff, hfresh.newestFirst⟩

/-- In a run of stores in time, the order of the cache is that of freshness after every store exactly when no key but the last
one is stored again while it is cached. -/
theorem orderIsFreshness_iff {stores : List (Bytes × Entry)} (htime : InTime stores) :
    OrderIsFreshness stores ↔ RestoresLast stores :=
  ⟨restoresLast_of_orderIsFreshness, orderIsFreshness_of_restoresLast htime⟩

/-- A run that stores its only key again. -/
theorem orderIsFreshness_onlyKey :
    OrderIsFreshness [(utf8 "A:G", Entry.bare [] 0), (utf8 "A:G", Entry.bare [] (negativeTTL + 1))] ↔
      RestoresLast [(utf8 "A:G", Entry.bare [] 0), (utf8 "A:G", Entry.bare [] (negativeTTL + 1))] := by
  refine orderIsFreshness_iff ?_
  unfold InTime
  decide +kernel

/-! ## A key that is stored again after its ttl -/

/-- `A` is stored, then `B`, and `A` again when its ttl has passed. -/
def storedAgain : List (Bytes × Entry) :=
  [(utf8 "A:G", Entry.bare [] 0), (utf8 "B:G", Entry.bare [] 1), (utf8 "A:G", Entry.bare [] (negativeTTL + 2))]

/-- The order still has `A` first, and the listing shows `B` as the newest. -/
theorem storedAgain_out_of_order :
    InTime storedAgain ∧ (storeAll (storedAgain.take 2)).lookup (utf8 "A:G") (negativeTTL + 2) = none ∧
      (storeAll storedAgain).cached.map CachedIcon.fetchedAt = [1, negativeTTL + 2] ∧ ¬OrderIsFreshness storedAgain := by
  refine ⟨?_, by decide +kernel, by decide +kernel, fun h => ?_⟩
  · unfold InTime
    decide +kernel
  have horder := (h (storedAgain.take 2) (utf8 "A:G") (Entry.bare [] (negativeTTL + 2)) [] rfl).newestFirst
  exact absurd horder (by decide +kernel)

end Icons

end Soroscan
