import Mathlib.Data.List.Dedup
import Mathlib.Data.List.Perm.Subperm
import Mathlib.Data.Set.Basic
import Mathlib.Tactic

/-!
# The newest items of a set

A list of bounded length holds the newest of what was seen when everything it lacks is older than all it holds, and nothing is
lacking while there is room. Adding items and cutting off the oldest ones keeps it so, whatever was cut off before.
-/

namespace Soroscan

section

variable {α : Type*} [LinearOrder α]

/-- The list holds the newest items that were seen, at most `n`. -/
structure NewestOf (n : Nat) (seen : Set α) (l : List α) : Prop where
  nodup : l.Nodup
  subset : ∀ a ∈ l, a ∈ seen
  length_le : l.length ≤ n
  rest : ∀ a ∈ seen, a ∉ l → l.length = n ∧ ∀ b ∈ l, a < b

namespace NewestOf

variable {n : Nat} {seen : Set α} {l : List α}

theorem nil (n : Nat) : NewestOf n (∅ : Set α) [] :=
  ⟨List.nodup_nil, fun _ ha => absurd ha List.not_mem_nil, Nat.zero_le _, fun _ ha => absurd ha (Set.notMem_empty _)⟩

/-- Of the items of a list that holds the newest ones and of some more, the front holds the newest, if the rest is older. -/
theorem cut (h : NewestOf n seen l) {items all : List α} (hnodup : all.Nodup) (hall : ∀ a, a ∈ all ↔ a ∈ l ∨ a ∈ items)
    (hcut : ∀ a ∈ all.drop n, ∀ b ∈ all.take n, a < b) : NewestOf n (seen ∪ {a | a ∈ items}) (all.take n) := by
  refine ⟨hnodup.sublist (List.take_sublist _ _), fun a ha => ?_, ?_, fun a ha hnot => ?_⟩
  · rcases (hall a).mp (List.mem_of_mem_take ha) with ha | ha
    · exact Or.inl (h.subset a ha)
    · exact Or.inr ha
  · rw [List.length_take]
    exact min_le_left _ _
  · by_cases hin : a ∈ all
    · -- an item that is cut off now
      have hdrop : a ∈ all.drop n := by
        rw [← List.take_append_drop n all] at hin
        exact (List.mem_append.mp hin).resolve_left hnot
      refine ⟨?_, fun b hb => hcut a hdrop b hb⟩
      have hlong := List.length_pos_of_mem hdrop
      rw [List.length_drop] at hlong
      rw [List.length_take]
      omega
    · -- an item that was cut off before: it is older than the full list it was cut off from
      have hout : a ∉ l := fun hl => hin ((hall a).mpr (Or.inl hl))
      have hseen : a ∈ seen := ha.resolve_right fun hitem => hin ((hall a).mpr (Or.inr hitem))
      obtain ⟨hfull, holder⟩ := h.rest a hseen hout
      have hlong : n ≤ all.length := by
        rw [← hfull]
        exact (h.nodup.subperm fun b hb => (hall b).mpr (Or.inl hb)).length_le
      have hlength : (all.take n).length = n := by rw [List.length_take, min_eq_left hlong]
      refine ⟨hlength, fun b hb => ?_⟩
      by_contra hle
      have hb' : b ∉ l := fun hl => hle (holder b hl)
      -- a new item that is older took the place of one of the list
      have hgone : ∃ c ∈ l, c ∉ all.take n := by
        by_contra hnone
        push Not at hnone
        have hperm := (h.nodup.subperm hnone).perm_of_length_le (by omega)
        exact hb' (hperm.mem_iff.mpr hb)
      obtain ⟨c, hc, hcgone⟩ := hgone
      have hdrop : c ∈ all.drop n := by
        have hcall := (hall c).mpr (Or.inl hc)
        rw [← List.take_append_drop n all] at hcall
        exact (List.mem_append.mp hcall).resolve_left hcgone
      exact hle ((holder c hc).trans (hcut c hdrop b hb))

end NewestOf

end

/-- When the newest numbers that were seen have no gap down to the bound, neither has the list that holds them. -/
theorem NewestOf.mem_of_between {n top : Nat} {seen : Set Nat} {l : List Nat} (h : NewestOf n seen l)
    (htop : ∀ a ∈ seen, a ≤ top) (hwindow : ∀ a, top - n < a → a ≤ top → a ∈ seen) {a b c : Nat} (ha : a ∈ l) (hb : b ∈ l)
    (hpos : 0 < a) (hac : a ≤ c) (hcb : c ≤ b) : c ∈ l := by
  have hlow : top - n < a := by
    by_contra hle
    -- otherwise the list would hold the whole window and one more
    have hsub : a :: List.range' (top - n + 1) n ⊆ l := by
      refine List.cons_subset.mpr ⟨ha, fun x hx => ?_⟩
      obtain ⟨hx₁, hx₂⟩ := List.mem_range'_1.mp hx
      by_contra hout
      exact absurd ((h.rest x (hwindow x (by omega) (by omega)) hout).2 a ha) (by omega)
    have hnodup : (a :: List.range' (top - n + 1) n).Nodup := by
      refine List.nodup_cons.mpr ⟨fun hmem => ?_, List.nodup_range'⟩
      have := (List.mem_range'_1.mp hmem).1
      omega
    have hlength := (hnodup.subperm hsub).length_le
    rw [List.length_cons, List.length_range'] at hlength
    exact absurd h.length_le (by omega)
  have hctop := htop b (h.subset b hb)
  by_contra hout
  exact absurd ((h.rest c (hwindow c (by omega) (by omega)) hout).2 a ha) (by omega)

end Soroscan
