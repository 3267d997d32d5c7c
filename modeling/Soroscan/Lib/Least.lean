import Mathlib.Data.List.Induction
import Mathlib.Logic.Function.Basic
import Mathlib.Order.Nat

/-!
# The least item of each key

A map from keys keeps an item when it comes before the one it has. Where coming before is having a smaller rank, it holds the least
item of each key of all it was given, in whatever order.
-/

namespace Soroscan

section

variable {α κ : Type*} {key : α → κ} {less : α → α → Bool} {rank : α → Nat}

/-- The map takes an item if it has none of its key, or a later one. -/
def keepLeast [DecidableEq κ] (key : α → κ) (less : α → α → Bool) (m : κ → Option α) (a : α) : κ → Option α :=
  match m (key a) with
  | none => Function.update m (key a) (some a)
  | some b => if less a b then Function.update m (key a) (some a) else m

/-- The least item of a key, or nothing if the key has none. -/
def IsLeastOf (key : α → κ) (rank : α → Nat) (items : List α) (k : κ) : Option α → Prop
  | none => ∀ a ∈ items, key a ≠ k
  | some a => a ∈ items ∧ key a = k ∧ ∀ b ∈ items, key b = k → rank a ≤ rank b

theorem isLeastOf_append_of_ne {items : List α} {a : α} {k : κ} {least : Option α} (hne : key a ≠ k)
    (h : IsLeastOf key rank items k least) : IsLeastOf key rank (items ++ [a]) k least := by
  cases least with
  | none =>
    intro b hb
    rcases List.mem_append.mp hb with hb | hb
    · exact h b hb
    · rwa [List.mem_singleton.mp hb]
  | some b =>
    refine ⟨List.mem_append_left _ h.1, h.2.1, fun c hc hkey => ?_⟩
    rcases List.mem_append.mp hc with hc | hc
    · exact h.2.2 c hc hkey
    · exact absurd (List.mem_singleton.mp hc ▸ hkey) hne

section

variable [DecidableEq κ]

/-- One more item keeps the map the least of each key, if it is compared with the item of its key by rank. -/
theorem isLeastOf_keepLeast {items : List α} {m : κ → Option α} {a : α} (h : ∀ k, IsLeastOf key rank items k (m k))
    (hless : ∀ b ∈ items, key b = key a → (less a b = true ↔ rank a < rank b)) (k : κ) :
    IsLeastOf key rank (items ++ [a]) k (keepLeast key less m a k) := by
  have hown := h (key a)
  by_cases hk : k = key a
  · subst hk
    rw [keepLeast]
    cases hm : m (key a) with
    | none =>
      -- the first item of its key
      rw [hm] at hown
      simp only [Function.update_self]
      refine ⟨List.mem_append_right _ List.mem_cons_self, rfl, fun b hb hkey => ?_⟩
      rcases List.mem_append.mp hb with hb | hb
      · exact absurd hkey (hown b hb)
      · exact (congrArg rank (List.mem_singleton.mp hb)).ge
    | some b =>
      rw [hm] at hown
      obtain ⟨hb, hkey, hle⟩ := hown
      simp only
      split
      · rename_i hlt
        rw [Function.update_self]
        refine ⟨List.mem_append_right _ List.mem_cons_self, rfl, fun c hc hkeyc => ?_⟩
        rcases List.mem_append.mp hc with hc | hc
        · exact le_trans (Nat.le_of_lt ((hless b hb hkey).mp hlt)) (hle c hc hkeyc)
        · exact (congrArg rank (List.mem_singleton.mp hc)).ge
      · rename_i hnot
        rw [hm]
        refine ⟨List.mem_append_left _ hb, hkey, fun c hc hkeyc => ?_⟩
        rcases List.mem_append.mp hc with hc | hc
        · exact hle c hc hkeyc
        · rw [List.mem_singleton.mp hc]
          exact not_lt.mp fun hlt => hnot ((hless b hb hkey).mpr hlt)
  · have hsame : keepLeast key less m a k = m k := by
      rw [keepLeast]
      cases m (key a) with
      | none => exact Function.update_of_ne hk _ _
      | some b =>
        simp only
        split
        · exact Function.update_of_ne hk _ _
        · rfl
    rw [hsame]
    exact isLeastOf_append_of_ne (Ne.symm hk) (h k)

/-- After all items the map holds the least of each key. -/
theorem isLeastOf_foldl {items : List α}
    (hless : ∀ a ∈ items, ∀ b ∈ items, key b = key a → (less a b = true ↔ rank a < rank b)) (k : κ) :
    IsLeastOf key rank items k (items.foldl (keepLeast key less) (fun _ => none) k) := by
  induction items using List.reverseRecOn generalizing k with
  | nil => exact fun _ ha => absurd ha List.not_mem_nil
  | append_singleton items a ih =>
    rw [List.foldl_append, List.foldl_cons, List.foldl_nil]
    have hinit := ih fun b hb c hc => hless b (List.mem_append_left _ hb) c (List.mem_append_left _ hc)
    exact isLeastOf_keepLeast hinit
      (fun b hb => hless a (List.mem_append_right _ List.mem_cons_self) b (List.mem_append_left _ hb)) k

end

/-- Lists of the same items have the same least one, if no two of the items have one rank. -/
theorem IsLeastOf.unique {items items' : List α} {k : κ} {least least' : Option α} (h : IsLeastOf key rank items k least)
    (h' : IsLeastOf key rank items' k least') (hmem : ∀ a, a ∈ items ↔ a ∈ items')
    (hrank : ∀ a ∈ items, ∀ b ∈ items, key a = key b → rank a = rank b → a = b) : least = least' := by
  cases least with
  | none =>
    cases least' with
    | none => rfl
    | some b => exact absurd h'.2.1 (h b ((hmem b).mpr h'.1))
  | some a =>
    cases least' with
    | none => exact absurd h.2.1 (h' a ((hmem a).mp h.1))
    | some b =>
      have hle := h.2.2 b ((hmem b).mpr h'.1) h'.2.1
      have hge := h'.2.2 a ((hmem a).mp h.1) h.2.1
      rw [hrank a h.1 b ((hmem b).mpr h'.1) (h.2.1.trans h'.2.1.symm) (Nat.le_antisymm hle hge)]

end

end Soroscan
