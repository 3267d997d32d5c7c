import Mathlib.Order.WithBot
import Mathlib.Data.List.Basic
import Mathlib.Data.Set.Basic
import Mathlib.Tactic

/-!
# Pages that tile a list

A list of positions, highest first, is shown in slices: the positions below a bound, down to the next bound or to the end. Positions
can be added while it is shown, so that a slice is only sure to have the ones that were there at first. Slices one below another tile
the list: together they descend, and they have every first position down to the last bound.
-/

namespace Soroscan

section

variable {P : Type*} [LinearOrder P] {first known : Set P}

/-- The positions of a slice, from below the bound `top` down to the bound `bottom`, or to the end. -/
structure Slice (first known : Set P) (top : WithTop P) (bottom : Option P) (ps : List P) : Prop where
  descends : ps.Pairwise fun p q => q < p
  held : ∀ p ∈ ps, p ∈ known
  below : ∀ p ∈ ps, (p : WithTop P) < top
  above : ∀ b ∈ bottom, ∀ p ∈ ps, b ≤ p
  further : ∀ b ∈ bottom, (b : WithTop P) < top
  all : ∀ p ∈ first, (p : WithTop P) < top → (∀ b ∈ bottom, b ≤ p) → p ∈ ps

/-- A slice stays one for less that was there at first, and more that is known. -/
theorem Slice.mono {first' known' : Set P} {top : WithTop P} {bottom : Option P} {ps : List P}
    (h : Slice first known top bottom ps) (hfirst : ∀ p ∈ first', p ∈ first) (hknown : ∀ p ∈ known, p ∈ known') :
    Slice first' known' top bottom ps :=
  { h with held := fun p hp => hknown p (h.held p hp), all := fun p hp => h.all p (hfirst p hp) }

/-- Slices one below another, the first of them below `start`: the bound they end at, and their positions. -/
inductive Tiles (first known : Set P) (start : WithTop P) : WithTop P → List P → Prop
  | start : Tiles first known start start []
  | slice {bound : WithTop P} {ps qs : List P} {b : P} (htiles : Tiles first known start bound ps)
      (hslice : Slice first known bound (some b) qs) : Tiles first known start b (ps ++ qs)

variable {start bound : WithTop P} {ps qs : List P} {bottom : Option P}

theorem Tiles.held (h : Tiles first known start bound ps) : ∀ p ∈ ps, p ∈ known := by
  induction h with
  | start =>
    intro p hp
    cases hp
  | slice _ hslice ih =>
    intro p hp
    exact (List.mem_append.mp hp).elim (ih p) (hslice.held p)

/-- The slices go down. -/
theorem Tiles.bound_le (h : Tiles first known start bound ps) : bound ≤ start := by
  induction h with
  | start => exact le_rfl
  | slice _ hslice ih => exact (hslice.further _ rfl).le.trans ih

/-- Everything shown is above the bound. -/
theorem Tiles.above (h : Tiles first known start bound ps) : ∀ p ∈ ps, bound ≤ (p : WithTop P) := by
  induction h with
  | start =>
    intro p hp
    cases hp
  | slice _ hslice ih =>
    intro p hp
    rcases List.mem_append.mp hp with hp | hp
    · exact (hslice.further _ rfl).le.trans (ih p hp)
    · exact WithTop.coe_le_coe.mpr (hslice.above _ rfl p hp)

/-- Everything shown is below the start. -/
theorem Tiles.lt_start (h : Tiles first known start bound ps) : ∀ p ∈ ps, (p : WithTop P) < start := by
  induction h with
  | start =>
    intro p hp
    cases hp
  | slice htiles hslice ih =>
    intro p hp
    exact (List.mem_append.mp hp).elim (ih p) fun hp => lt_of_lt_of_le (hslice.below p hp) htiles.bound_le

/-- One more slice goes on below. -/
theorem Tiles.descends_append (h : Tiles first known start bound ps) (hps : ps.Pairwise fun p q => q < p)
    (hslice : Slice first known bound bottom qs) : (ps ++ qs).Pairwise fun p q => q < p :=
  List.pairwise_append.mpr ⟨hps, hslice.descends, fun p hp q hq =>
    WithTop.coe_lt_coe.mp (lt_of_lt_of_le (hslice.below q hq) (h.above p hp))⟩

/-- What is shown descends. -/
theorem Tiles.descends (h : Tiles first known start bound ps) : ps.Pairwise fun p q => q < p := by
  induction h with
  | start => exact List.Pairwise.nil
  | slice htiles hslice ih => exact htiles.descends_append ih hslice

/-- Every first position below the start and down to the bound is shown. -/
theorem Tiles.all (h : Tiles first known start bound ps) :
    ∀ p ∈ first, (p : WithTop P) < start → bound ≤ (p : WithTop P) → p ∈ ps := by
  induction h with
  | start =>
    intro p _ hstart hp
    exact absurd hp (not_le.mpr hstart)
  | @slice bound ps qs b _ hslice ih =>
    intro p hfirst hstart hp
    rw [List.mem_append]
    by_cases hbound : bound ≤ (p : WithTop P)
    · exact Or.inl (ih p hfirst hstart hbound)
    · refine Or.inr (hslice.all p hfirst (not_le.mp hbound) ?_)
      rintro _ ⟨⟩
      exact WithTop.coe_le_coe.mp hp

/-- With one more slice, every first position down to its bound is shown, or every one below the start if it goes down to the end. -/
theorem Tiles.all_append (h : Tiles first known start bound ps) (hslice : Slice first known bound bottom qs) :
    ∀ p ∈ first, (p : WithTop P) < start → (∀ b ∈ bottom, b ≤ p) → p ∈ ps ++ qs := by
  intro p hfirst hstart hbottom
  rw [List.mem_append]
  by_cases hbound : bound ≤ (p : WithTop P)
  · exact Or.inl (h.all p hfirst hstart hbound)
  · exact Or.inr (hslice.all p hfirst (not_le.mp hbound) hbottom)

end

end Soroscan
