import Mathlib.Data.Finset.Lattice.Fold
import Mathlib.Data.Finset.Range

/-!
# Drawing until there are enough

Items are drawn into a set until it has a number of members. Where all draws come from a set, and each of its members is drawn at some
time, there are enough at some time when the set has as many.
-/

namespace Soroscan

section

variable {α : Type*} [DecidableEq α]

/-- Items are drawn into a set until it has `n` members, if it has them before the fuel runs out. -/
def collect (draw : Nat → α) (n : Int) : (fuel i : Nat) → Finset α → Option (Finset α)
  | 0, _, _ => none
  | fuel + 1, i, seen => if (seen.card : Int) < n then collect draw n fuel (i + 1) (insert (draw i) seen) else some seen

variable {draw : Nat → α} {n : Int}

/-- What is collected: all that was there, enough of it, and of the rest only what was drawn. -/
theorem collect_spec {fuel i : Nat} {seen out : Finset α} (h : collect draw n fuel i seen = some out) :
    seen ⊆ out ∧ n ≤ out.card ∧ ∀ a ∈ out, a ∈ seen ∨ ∃ j, draw j = a := by
  induction fuel generalizing i seen with
  | zero => cases h
  | succ fuel ih =>
    rw [collect] at h
    split at h
    · obtain ⟨hsubset, hcard, hmem⟩ := ih h
      refine ⟨fun a ha => hsubset (Finset.mem_insert_of_mem ha), hcard, fun a ha => ?_⟩
      rcases hmem a ha with ha | ha
      · rcases Finset.mem_insert.mp ha with rfl | ha
        · exact Or.inr ⟨i, rfl⟩
        · exact Or.inl ha
      · exact Or.inr ha
    · rename_i henough
      obtain rfl := Option.some.inj h
      exact ⟨Finset.Subset.refl _, not_lt.mp henough, fun a ha => Or.inl ha⟩

/-- With fuel for as many draws as make it enough, the drawing ends. -/
theorem isSome_collect {k fuel i : Nat} {seen : Finset α} (hfuel : k < fuel)
    (h : n ≤ (seen ∪ (Finset.range k).image fun j => draw (i + j)).card) : (collect draw n fuel i seen).isSome = true := by
  induction fuel generalizing k i seen with
  | zero => exact absurd hfuel (Nat.not_lt_zero k)
  | succ fuel ih =>
    rw [collect]
    split
    · rename_i hfew
      cases k with
      | zero =>
        rw [Finset.range_zero, Finset.image_empty, Finset.union_empty] at h
        omega
      | succ k =>
        refine ih (Nat.lt_of_succ_lt_succ hfuel) (h.trans (Int.ofNat_le.mpr (Finset.card_le_card fun a ha => ?_)))
        -- the first of the draws is in the set now
        rcases Finset.mem_union.mp ha with ha | ha
        · exact Finset.mem_union_left _ (Finset.mem_insert_of_mem ha)
        · obtain ⟨j, hj, rfl⟩ := Finset.mem_image.mp ha
          cases j with
          | zero => exact Finset.mem_union_left _ (Finset.mem_insert_self _ _)
          | succ j =>
            refine Finset.mem_union_right _ (Finset.mem_image.mpr ⟨j, ?_, by rw [Nat.add_right_comm]; rfl⟩)
            exact Finset.mem_range.mpr (Nat.lt_of_succ_lt_succ (Finset.mem_range.mp hj))
    · rfl

/-- All that is drawn at some time is drawn within some number of draws. -/
theorem exists_draws (pool : Finset α) (hall : ∀ a ∈ pool, ∃ j, draw j = a) :
    ∃ k, pool ⊆ (Finset.range k).image draw := by
  induction pool using Finset.induction_on with
  | empty => exact ⟨0, Finset.empty_subset _⟩
  | insert a pool _ ih =>
    obtain ⟨k, hk⟩ := ih fun b hb => hall b (Finset.mem_insert_of_mem hb)
    obtain ⟨j, rfl⟩ := hall a (Finset.mem_insert_self a pool)
    refine ⟨max k (j + 1), Finset.insert_subset ?_ (hk.trans (Finset.image_subset_image ?_))⟩
    · exact Finset.mem_image.mpr ⟨j, Finset.mem_range.mpr (by omega), rfl⟩
    · exact Finset.range_subset_range.mpr (le_max_left _ _)

/-- Drawing from a pool of which each member is drawn ends when the pool has enough members. -/
theorem exists_collect_iff {pool seen : Finset α} (hseen : seen ⊆ pool) (hdraw : ∀ j, draw j ∈ pool)
    (hall : ∀ a ∈ pool, ∃ j, draw j = a) : (∃ fuel, (collect draw n fuel 0 seen).isSome = true) ↔ n ≤ pool.card := by
  constructor
  · rintro ⟨fuel, h⟩
    obtain ⟨out, hout⟩ := Option.isSome_iff_exists.mp h
    obtain ⟨-, hcard, hmem⟩ := collect_spec hout
    refine hcard.trans (Int.ofNat_le.mpr (Finset.card_le_card fun a ha => ?_))
    rcases hmem a ha with ha | ⟨j, rfl⟩
    · exact hseen ha
    · exact hdraw j
  · intro h
    obtain ⟨k, hk⟩ := exists_draws pool hall
    refine ⟨k + 1, isSome_collect (Nat.lt_succ_self k) (h.trans (Int.ofNat_le.mpr (Finset.card_le_card ?_)))⟩
    simp only [Nat.zero_add]
    exact hk.trans Finset.subset_union_right

end

end Soroscan
