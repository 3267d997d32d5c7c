import Mathlib.Data.List.Forall2
import Mathlib.Tactic

/-!
# Lists of fallible steps

A fallible step applied to each item of a list succeeds exactly when it succeeds on every item; the results then stand item by
item beside what they come from.
-/

namespace Soroscan

variable {α β ε : Type}

/-- The results of steps that all succeeded, item by item. -/
theorem forall₂_of_mapM_ok {f : α → Except ε β} :
    ∀ {as : List α} {bs : List β}, as.mapM f = .ok bs → List.Forall₂ (fun a b => f a = .ok b) as bs
  | [], bs, h => by
    rw [List.mapM_nil] at h
    cases h
    exact .nil
  | a :: as, bs, h => by
    rw [List.mapM_cons] at h
    rcases hf : f a with e | b
    · rw [hf] at h
      cases h
    · rcases ht : as.mapM f with e | bs'
      · rw [hf, ht] at h
        cases h
      · rw [hf, ht] at h
        cases h
        exact .cons hf (forall₂_of_mapM_ok ht)

/-- The results of optional steps that all gave one, item by item. -/
theorem forall₂_of_mapM_some {f : α → Option β} :
    ∀ {as : List α} {bs : List β}, as.mapM f = some bs → List.Forall₂ (fun a b => f a = some b) as bs
  | [], bs, h => by
    rw [List.mapM_nil] at h
    cases h
    exact .nil
  | a :: as, bs, h => by
    rw [List.mapM_cons] at h
    obtain ⟨b, hf, h⟩ := Option.bind_eq_some_iff.mp h
    obtain ⟨bs', ht, h⟩ := Option.bind_eq_some_iff.mp h
    cases h
    exact .cons hf (forall₂_of_mapM_some ht)

/-- Steps on a list succeed when each of them does. -/
theorem exists_mapM_ok {f : α → Except ε β} {as : List α} (h : ∀ a ∈ as, ∃ b, f a = .ok b) : ∃ bs, as.mapM f = .ok bs := by
  induction as with
  | nil => exact ⟨[], rfl⟩
  | cons a as ih =>
    obtain ⟨b, hb⟩ := h a List.mem_cons_self
    obtain ⟨bs, hbs⟩ := ih fun a' ha' => h a' (List.mem_cons_of_mem _ ha')
    exact ⟨b :: bs, by rw [List.mapM_cons, hb, hbs]; rfl⟩

theorem exists_mapM_some {f : α → Option β} {as : List α} (h : ∀ a ∈ as, ∃ b, f a = some b) : ∃ bs, as.mapM f = some bs := by
  induction as with
  | nil => exact ⟨[], rfl⟩
  | cons a as ih =>
    obtain ⟨b, hb⟩ := h a List.mem_cons_self
    obtain ⟨bs, hbs⟩ := ih fun a' ha' => h a' (List.mem_cons_of_mem _ ha')
    exact ⟨b :: bs, by rw [List.mapM_cons, hb, hbs]; rfl⟩

/-- Steps that undo a map on each item undo it on the list. -/
theorem mapM_map_some {f : β → Option α} {g : α → β} {as : List α} (h : ∀ a ∈ as, f (g a) = some a) :
    (as.map g).mapM f = some as := by
  induction as with
  | nil => rfl
  | cons a as ih =>
    obtain ⟨ha, has⟩ := List.forall_mem_cons.mp h
    rw [List.map_cons, List.mapM_cons, ha, ih has]
    rfl

/-- Steps on a list fail with the error of one of them. -/
theorem exists_error_of_mapM {f : α → Except ε β} {e : ε} :
    ∀ {as : List α}, as.mapM f = .error e → ∃ a ∈ as, f a = .error e
  | [], h => by
    rw [List.mapM_nil] at h
    cases h
  | a :: as, h => by
    rw [List.mapM_cons] at h
    rcases hf : f a with e' | b
    · rw [hf] at h
      cases h
      exact ⟨a, List.mem_cons_self, hf⟩
    · rcases ht : as.mapM f with e' | bs
      · rw [hf, ht] at h
        cases h
        obtain ⟨a', ha', he⟩ := exists_error_of_mapM ht
        exact ⟨a', List.mem_cons_of_mem _ ha', he⟩
      · rw [hf, ht] at h
        cases h

/-- What stands beside an item. -/
theorem exists_of_forall₂_left {R : α → β → Prop} {as : List α} {bs : List β} (h : List.Forall₂ R as bs) {a : α}
    (ha : a ∈ as) : ∃ b ∈ bs, R a b := by
  induction h with
  | nil => cases ha
  | cons hab _ ih =>
    rcases List.mem_cons.mp ha with rfl | ha
    · exact ⟨_, List.mem_cons_self, hab⟩
    · obtain ⟨b, hb, hr⟩ := ih ha
      exact ⟨b, List.mem_cons_of_mem _ hb, hr⟩

theorem exists_of_forall₂_right {R : α → β → Prop} {as : List α} {bs : List β} (h : List.Forall₂ R as bs) {b : β}
    (hb : b ∈ bs) : ∃ a ∈ as, R a b := by
  obtain ⟨a, ha, hr⟩ := exists_of_forall₂_left h.flip hb
  exact ⟨a, ha, hr⟩

/-- What is known of the items on the right can be added to what stands side by side. -/
theorem forall₂_and_right {R : α → β → Prop} {P : β → Prop} {as : List α} {bs : List β} (h : List.Forall₂ R as bs)
    (hp : ∀ b ∈ bs, P b) : List.Forall₂ (fun a b => P b ∧ R a b) as bs := by
  induction h with
  | nil => exact List.Forall₂.nil
  | cons hab _ ih =>
    exact List.Forall₂.cons ⟨hp _ List.mem_cons_self, hab⟩ (ih fun b hb => hp b (List.mem_cons_of_mem _ hb))

/-- What stands beside the last item. -/
theorem getLast?_of_forall₂ {R : α → β → Prop} {as : List α} {bs : List β} (h : List.Forall₂ R as bs) :
    as.getLast? = none ∧ bs.getLast? = none ∨ ∃ a b, as.getLast? = some a ∧ bs.getLast? = some b ∧ R a b := by
  induction h with
  | nil => exact Or.inl ⟨rfl, rfl⟩
  | @cons a b as bs hab hrest ih =>
    refine Or.inr ?_
    cases hrest with
    | nil => exact ⟨a, b, rfl, rfl, hab⟩
    | @cons a' b' as bs _ _ =>
      rcases ih with ⟨hnone, -⟩ | ⟨x, y, hx, hy, hxy⟩
      · simp at hnone
      · exact ⟨x, y, by rw [List.getLast?_cons_cons, hx], by rw [List.getLast?_cons_cons, hy], hxy⟩

/-- Two features that tell the items of two lists side by side apart in the same way have equally many values. -/
theorem length_dedup_of_forall₂ {R : α → β → Prop} {γ δ : Type*} [DecidableEq γ] [DecidableEq δ] {f : α → γ} {g : β → δ}
    (hfg : ∀ a b a' b', R a b → R a' b' → (f a = f a' ↔ g b = g b')) {as : List α} {bs : List β} (h : List.Forall₂ R as bs) :
    (as.map f).dedup.length = (bs.map g).dedup.length := by
  induction h with
  | nil => rfl
  | @cons a b as bs hab hrest ih =>
    have hmem : f a ∈ as.map f ↔ g b ∈ bs.map g := by
      constructor
      · intro hf
        obtain ⟨a', ha', hf⟩ := List.mem_map.mp hf
        obtain ⟨b', hb', hr⟩ := exists_of_forall₂_left hrest ha'
        exact List.mem_map.mpr ⟨b', hb', (hfg a' b' a b hr hab).mp hf⟩
      · intro hg
        obtain ⟨b', hb', hg⟩ := List.mem_map.mp hg
        obtain ⟨a', ha', hr⟩ := exists_of_forall₂_right hrest hb'
        exact List.mem_map.mpr ⟨a', ha', (hfg a' b' a b hr hab).mpr hg⟩
    rw [List.map_cons, List.map_cons, List.dedup_cons, List.dedup_cons]
    by_cases hf : f a ∈ as.map f
    · rw [if_pos hf, if_pos (hmem.mp hf), ih]
    · rw [if_neg hf, if_neg (mt hmem.mpr hf), List.length_cons, List.length_cons, ih]

/-! ## A partial map that is defined on every item -/

theorem length_filterMap_of_isSome {f : α → Option β} {as : List α} (h : ∀ a ∈ as, (f a).isSome = true) :
    (as.filterMap f).length = as.length := by
  induction as with
  | nil => rfl
  | cons a as ih =>
    obtain ⟨b, hb⟩ := Option.isSome_iff_exists.mp (h a List.mem_cons_self)
    rw [List.filterMap_cons_some hb, List.length_cons, List.length_cons, ih fun a' ha' => h a' (List.mem_cons_of_mem _ ha')]

theorem take_filterMap_of_isSome {f : α → Option β} {as : List α} (h : ∀ a ∈ as, (f a).isSome = true) (n : Nat) :
    (as.filterMap f).take n = (as.take n).filterMap f := by
  induction as generalizing n with
  | nil => simp
  | cons a as ih =>
    obtain ⟨b, hb⟩ := Option.isSome_iff_exists.mp (h a List.mem_cons_self)
    cases n with
    | zero => rfl
    | succ n =>
      rw [List.filterMap_cons_some hb, List.take_succ_cons, List.take_succ_cons, List.filterMap_cons_some hb,
        ih fun a' ha' => h a' (List.mem_cons_of_mem _ ha')]

end Soroscan
