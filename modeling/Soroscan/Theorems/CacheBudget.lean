import Soroscan.Theorems.CacheOrder
import Mathlib.Algebra.Order.BigOperators.Group.List
import Mathlib.Data.Finset.Card

/-!
# The budget of the icon cache

`store` keeps three things in step: the entries, the order of their keys, and the bytes they take. Inserting adds what it puts in
and subtracts what it replaces; evicting subtracts what it takes out, and ends when the bytes are within the budget or no key is
left.
-/

namespace Soroscan

namespace Icons

/-! ## Sums over keys -/

/-- The value of one key changes. -/
theorem sum_map_update {α : Type} [DecidableEq α] (f : α → Int) {l : List α} (hnodup : l.Nodup) {a : α} (h : a ∈ l) (x : Int) :
    (l.map (Function.update f a x)).sum = (l.map f).sum - f a + x := by
  induction l with
  | nil => exact absurd h List.not_mem_nil
  | cons b l ih =>
    obtain ⟨hb, hl⟩ := List.nodup_cons.mp hnodup
    simp only [List.map_cons, List.sum_cons]
    rcases List.mem_cons.mp h with rfl | h
    · rw [Function.update_self, sum_map_update_of_notMem f hb]
      omega
    · have hne : b ≠ a := fun hba => hb (hba ▸ h)
      rw [Function.update_of_ne hne, ih hl h]
      omega

namespace Service

/-! ## What is accounted -/

/-- The keys are in order, and the counter is what their entries take. -/
structure Accounted (s : Service) : Prop extends Listed s where
  cacheBytes_eq : s.cacheBytes = (s.order.map (bytesAt s.cache)).sum

/-- A service within its budget, or without an entry. -/
structure InBudget (s : Service) : Prop extends Accounted s where
  within : s.cacheBytes ≤ cacheBudget ∨ ∀ key, s.cache key = none
  count : ∀ keys : Finset Bytes, (∀ key ∈ keys, (s.cache key).isSome) → keys.card ≤ cacheBudget / entryOverhead

theorem accounted_new : new.Accounted := ⟨listed_new, rfl⟩

/-! ## Inserting -/

/-- A replaced entry gives its bytes back. -/
theorem Accounted.insert {s : Service} (h : s.Accounted) (key : Bytes) (value : Entry) : (s.insert key value).Accounted := by
  refine ⟨h.toListed.insert key value, ?_⟩
  have hmem := h.cached_iff key
  unfold Service.insert
  cases hold : s.cache key with
  | some old =>
    rw [hold] at hmem
    dsimp only
    rw [bytesAt_update, sum_map_update _ h.nodup (hmem.mp rfl), ← h.cacheBytes_eq]
    simp only [bytesAt, hold, Option.elim_some]
  | none =>
    rw [hold] at hmem
    have hnew : key ∉ s.order := fun hkey => Bool.false_ne_true (hmem.mpr hkey)
    dsimp only
    rw [bytesAt_update, List.map_append, List.sum_append, sum_map_update_of_notMem _ hnew, ← h.cacheBytes_eq]
    simp only [List.map_cons, List.map_nil, Function.update_self, Option.elim_some, List.sum_cons, List.sum_nil, Int.add_zero]

/-! ## Evicting -/

/-- The loop keeps the counter in step with the keys that are left, and ends within the budget or without a key. -/
theorem evict_cacheBytes {s : Service} {keys : List Bytes} (hnodup : keys.Nodup)
    (hcached : ∀ key, (s.cache key).isSome ↔ key ∈ keys) (hbytes : s.cacheBytes = (keys.map (bytesAt s.cache)).sum) :
    (s.evict keys).1.cacheBytes = ((s.evict keys).1.order.map (bytesAt (s.evict keys).1.cache)).sum ∧
      ((s.evict keys).1.cacheBytes ≤ cacheBudget ∨ (s.evict keys).1.order = []) := by
  have hevicted := evicted_evict hnodup fun key => (hcached key).mpr
  generalize s.evict keys = out at hevicted ⊢
  obtain rfl := hevicted.append
  refine ⟨?_, hevicted.ends⟩
  have hkept : out.1.order.map (bytesAt out.1.cache) = out.1.order.map (bytesAt s.cache) := by
    refine List.map_congr_left fun key hkey => ?_
    have hgone : key ∉ out.2 := fun hgone => (List.nodup_append.mp hnodup).2.2 key hgone key hkey rfl
    rw [bytesAt, bytesAt, hevicted.cache key, if_neg hgone]
  rw [hkept, hevicted.cacheBytes, hbytes, List.map_append, List.sum_append]
  omega

theorem Accounted.store {s : Service} (h : s.Accounted) (key : Bytes) (value : Entry) : (s.store key value).1.Accounted :=
  have hinserted := h.insert key value
  ⟨h.toListed.store key value, (evict_cacheBytes hinserted.nodup hinserted.cached_iff hinserted.cacheBytes_eq).1⟩

/-- A store ends within the budget, or without a key. -/
theorem store_within {s : Service} (h : s.Accounted) (key : Bytes) (value : Entry) :
    (s.store key value).1.cacheBytes ≤ cacheBudget ∨ (s.store key value).1.order = [] :=
  have hinserted := h.insert key value
  (evict_cacheBytes hinserted.nodup hinserted.cached_iff hinserted.cacheBytes_eq).2

/-! ## How many entries there can be -/

/-- Every cached entry takes the overhead at least. -/
theorem overhead_le_bytesAt {cache : Bytes → Option Entry} {key : Bytes} (h : (cache key).isSome) :
    (entryOverhead : Int) ≤ bytesAt cache key := by
  obtain ⟨e, he⟩ := Option.isSome_iff_exists.mp h
  rw [bytesAt, he, Option.elim_some, Entry.size]
  omega

theorem Accounted.overhead_le {s : Service} (h : s.Accounted) : (s.order.length * entryOverhead : Int) ≤ s.cacheBytes := by
  have hle := List.card_nsmul_le_sum (s.order.map (bytesAt s.cache)) (entryOverhead : Int) fun bytes hbytes => by
    obtain ⟨key, hkey, rfl⟩ := List.mem_map.mp hbytes
    exact overhead_le_bytesAt ((h.cached_iff key).mpr hkey)
  rwa [List.length_map, nsmul_eq_mul, ← h.cacheBytes_eq] at hle

/-- The order has as many keys as there are cached entries. -/
theorem Listed.card_le {s : Service} (h : s.Listed) {keys : Finset Bytes} (hkeys : ∀ key ∈ keys, (s.cache key).isSome) :
    keys.card ≤ s.order.length := by
  have hsub : keys ⊆ s.order.toFinset := fun key hkey => List.mem_toFinset.mpr ((h.cached_iff key).mp (hkeys key hkey))
  exact (Finset.card_le_card hsub).trans (List.toFinset_card_le s.order)

/-- Without a key there is no entry. -/
theorem Listed.cache_eq_none {s : Service} (h : s.Listed) (horder : s.order = []) (key : Bytes) : s.cache key = none := by
  rw [← Option.not_isSome_iff_eq_none, h.cached_iff key, horder]
  exact List.not_mem_nil

theorem Accounted.inBudget {s : Service} (h : s.Accounted) (hwithin : s.cacheBytes ≤ cacheBudget ∨ s.order = []) : s.InBudget := by
  refine ⟨h, hwithin.imp_right h.toListed.cache_eq_none, fun keys hkeys => ?_⟩
  refine (h.toListed.card_le hkeys).trans ?_
  rw [Nat.le_div_iff_mul_le (by decide)]
  rcases hwithin with hbytes | horder
  · exact_mod_cast h.overhead_le.trans hbytes
  · rw [horder, List.length_nil, Nat.zero_mul]
    exact Nat.zero_le _

end Service

/-! ## Runs -/

/-- The counter is in step after every run of stores. -/
theorem accounted_storeAll (stores : List (Bytes × Entry)) : (storeAll stores).Accounted := by
  induction stores using List.reverseRecOn with
  | nil => exact Service.accounted_new
  | append_singleton stores kv ih =>
    rw [storeAll_concat]
    exact ih.store kv.1 kv.2

/-- After every run of stores the order has each cached key once and nothing else, the counter is the sum of what the entries take,
and the cache is within its budget or empty; so it never has more entries than the overhead of each allows. -/
theorem inBudget_storeAll (stores : List (Bytes × Entry)) : (storeAll stores).InBudget := by
  have haccounted := accounted_storeAll stores
  refine haccounted.inBudget ?_
  induction stores using List.reverseRecOn with
  | nil => exact .inr rfl
  | append_singleton stores kv =>
    rw [storeAll_concat]
    exact Service.store_within (accounted_storeAll stores) kv.1 kv.2

end Icons

end Soroscan
