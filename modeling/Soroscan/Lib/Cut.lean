import Mathlib.Data.List.Dedup
import Mathlib.Data.List.Perm.Subperm
import Mathlib.Tactic

/-!
# Lists that may have been cut

A collector keeps what it finds, up to some bound. `Cut ok kept whole` says that it kept everything if `ok` holds, and less than
everything otherwise. Cuts compose as the lists do, so that the bound of a collection is found from the bounds of its parts.
-/

namespace Soroscan

variable {α β : Type*}

/-- All of the list was kept if `ok` holds, and less if not. -/
structure Cut (ok : Prop) (kept whole : List β) : Prop where
  whole_of : ok → kept = whole
  less_of : ¬ok → kept.length < whole.length

namespace Cut

variable {ok ok' : Prop} {kept whole kept' whole' : List β}

theorem length_le (h : Cut ok kept whole) : kept.length ≤ whole.length := by
  by_cases hok : ok
  · rw [h.whole_of hok]
  · exact (h.less_of hok).le

/-- Nothing was dropped if and only if the condition holds. -/
theorem perm_iff (h : Cut ok kept whole) : kept.Perm whole ↔ ok := by
  constructor
  · intro hperm
    by_contra hok
    exact absurd hperm.length_eq (h.less_of hok).ne
  · intro hok
    rw [h.whole_of hok]

theorem of_iff (h : Cut ok kept whole) (hiff : ok ↔ ok') : Cut ok' kept whole :=
  ⟨fun hok => h.whole_of (hiff.mpr hok), fun hok => h.less_of fun hok' => hok (hiff.mp hok')⟩

theorem refl (whole : List β) : Cut True whole whole := ⟨fun _ => rfl, fun h => absurd trivial h⟩

/-- The front of a list. -/
theorem front (kept rest : List β) : Cut (rest = []) kept (kept ++ rest) := by
  refine ⟨fun h => by rw [h, List.append_nil], fun h => ?_⟩
  have := List.length_pos_iff.mpr h
  rw [List.length_append]
  omega

theorem append (h : Cut ok kept whole) (h' : Cut ok' kept' whole') : Cut (ok ∧ ok') (kept ++ kept') (whole ++ whole') := by
  refine ⟨fun hok => by rw [h.whole_of hok.1, h'.whole_of hok.2], fun hok => ?_⟩
  rw [List.length_append, List.length_append]
  by_cases hfirst : ok
  · have := h'.less_of fun hsecond => hok ⟨hfirst, hsecond⟩
    have := h.length_le
    omega
  · have := h.less_of hfirst
    have := h'.length_le
    omega

theorem cons (h : Cut ok kept whole) (b : β) : Cut ok (b :: kept) (b :: whole) :=
  ((refl [b]).append h).of_iff (iff_of_eq (true_and ok))

theorem flatMap {ok : α → Prop} {kept whole : α → List β} {l : List α} (h : ∀ a ∈ l, Cut (ok a) (kept a) (whole a)) :
    Cut (∀ a ∈ l, ok a) (l.flatMap kept) (l.flatMap whole) := by
  induction l with
  | nil => exact (refl []).of_iff (by simp)
  | cons a l ih =>
    rw [List.flatMap_cons, List.flatMap_cons]
    refine ((h a List.mem_cons_self).append (ih fun b hb => h b (List.mem_cons_of_mem _ hb))).of_iff ?_
    rw [List.forall_mem_cons]

/-- The first items of a list. -/
theorem take (whole : List β) (n : Nat) : Cut (whole.length ≤ n) (whole.take n) whole := by
  refine ⟨List.take_of_length_le, fun h => ?_⟩
  rw [List.length_take]
  omega

end Cut

/-! ## Collecting under a bound -/

/-- One more item, if there is room for it. -/
def pushWithin (n : Nat) (l : List β) (b : β) : List β := if l.length < n then l ++ [b] else l

/-- Collecting items under a bound keeps the first ones. -/
theorem foldl_pushWithin (n : Nat) (items l : List β) (hl : l.length ≤ n) :
    items.foldl (pushWithin n) l = (l ++ items).take n := by
  induction items generalizing l with
  | nil => rw [List.foldl_nil, List.append_nil, List.take_of_length_le hl]
  | cons b items ih =>
    rw [List.foldl_cons, pushWithin]
    split_ifs with hroom
    · rw [ih _ (by rw [List.length_append, List.length_singleton]; omega), List.append_assoc, List.singleton_append]
    · have hlen : l.length = n := by omega
      rw [ih _ hl, ← hlen, List.take_left, List.take_left]

/-- What a list of different items collected under a bound looks like. -/
structure CollectedWithin (n : Nat) (items l : List β) : Prop where
  nodup : l.Nodup
  subset : l ⊆ items
  length_le : l.length ≤ n
  all_of_room : l.length < n → items ⊆ l

/-- Nothing was collected if and only if there was nothing. -/
theorem CollectedWithin.eq_nil_iff {n : Nat} {items l : List β} (h : CollectedWithin n items l) (hn : 0 < n) :
    l = [] ↔ items = [] := by
  constructor
  · intro hl
    subst hl
    exact List.subset_nil.mp (h.all_of_room hn)
  · intro hitems
    exact List.subset_nil.mp (hitems ▸ h.subset)

section

variable [DecidableEq β]

/-- One more item, if it is not there yet and there is room for it. -/
def insertWithin (n : Nat) (l : List β) (b : β) : List β := if b ∈ l then l else pushWithin n l b

theorem CollectedWithin.insert {n : Nat} {items l : List β} (h : CollectedWithin n items l) (b : β) :
    CollectedWithin n (items ++ [b]) (insertWithin n l b) := by
  have hitems : items ⊆ items ++ [b] := List.subset_append_left _ _
  rw [insertWithin, pushWithin]
  split_ifs with hmem hroom
  · refine ⟨h.nodup, List.Subset.trans h.subset hitems, h.length_le, fun hlt => ?_⟩
    exact List.append_subset.mpr ⟨h.all_of_room hlt, List.cons_subset.mpr ⟨hmem, List.nil_subset _⟩⟩
  · refine ⟨?_, ?_, ?_, fun _ => ?_⟩
    · rw [← List.concat_eq_append]
      exact List.Nodup.concat hmem h.nodup
    · exact List.append_subset.mpr ⟨List.Subset.trans h.subset hitems, List.subset_append_right _ _⟩
    · rw [List.length_append, List.length_singleton]
      omega
    · exact List.append_subset.mpr
        ⟨List.Subset.trans (h.all_of_room hroom) (List.subset_append_left _ _), List.subset_append_right _ _⟩
  · exact ⟨h.nodup, List.Subset.trans h.subset hitems, h.length_le, fun hlt => absurd hlt hroom⟩

theorem collectedWithin_foldl (n : Nat) (items : List β) : CollectedWithin n items (items.foldl (insertWithin n) []) := by
  induction items using List.reverseRecOn with
  | nil => exact ⟨List.nodup_nil, List.nil_subset _, Nat.zero_le _, fun _ => List.nil_subset _⟩
  | append_singleton items b ih =>
    rw [List.foldl_append]
    exact ih.insert b

/-- Every item was collected if and only if there are not more different ones than the bound. -/
theorem CollectedWithin.subset_iff {n : Nat} {items l : List β} (h : CollectedWithin n items l) :
    items ⊆ l ↔ items.dedup.length ≤ n := by
  constructor
  · intro hsub
    have hdedup : items.dedup ⊆ l := List.Subset.trans (List.dedup_subset items) hsub
    exact ((List.nodup_dedup items).subperm hdedup).length_le.trans h.length_le
  · intro hle
    by_cases hroom : l.length < n
    · exact h.all_of_room hroom
    · have hsub : l ⊆ items.dedup := List.Subset.trans h.subset (List.subset_dedup items)
      have hperm := (h.nodup.subperm hsub).perm_of_length_le (by omega)
      exact List.Subset.trans (List.subset_dedup items) hperm.symm.subset

end

end Soroscan
