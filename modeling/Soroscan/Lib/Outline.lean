import Mathlib.Data.List.Basic
import Mathlib.Order.Nat

/-!
# Outlines

A tree is drawn as a list of rows, each with its depth, and with a line for each level above it on which a branch goes on. `Siblings`
says how rows are put together from the trees under them, from the top down: a row carries on the lines it is under, and one for its
own siblings. Then each row has the lines that the list itself asks for: one for a level on which the branch goes on further down.
-/

namespace Soroscan

namespace Outline

/-- A branch on a level goes on in rows of some depths: one of the next depth comes before any at or above the level. -/
def goesOn (level : Nat) : List Nat → Bool
  | [] => false
  | depth :: rest => if level + 1 < depth then goesOn level rest else depth == level + 1

section

variable {ρ : Type*} (depth : ρ → Nat) (carries : ρ → Nat → Bool)

/-- The lines above the rows under a row: those it is under, and its own if it has a sibling after it. -/
def branch (d : Nat) (last : Bool) (lines : Nat → Bool) (level : Nat) : Bool := if level + 1 = d then !last else lines level

/-- The rows of a tree: one that carries the lines it is under, and the rows of what is under it. -/
inductive Siblings : Nat → (Nat → Bool) → List ρ → Prop
  | nil (d : Nat) (lines : Nat → Bool) : Siblings d lines []
  | cons {d : Nat} {lines : Nat → Bool} (r : ρ) (under rest : List ρ) (hdepth : depth r = d)
      (hcarries : ∀ l < d, carries r l = branch d rest.isEmpty lines l) (hunder : Siblings (d + 1) (branch d rest.isEmpty lines) under)
      (hrest : Siblings d lines rest) : Siblings d lines (r :: under ++ rest)

/-- The rows of one tree of a depth, last of its siblings or not. -/
structure IsTree (d : Nat) (last : Bool) (lines : Nat → Bool) (rows : List ρ) : Prop where
  exists_rows : ∃ r under, rows = r :: under ∧ depth r = d ∧ (∀ l < d, carries r l = branch d last lines l) ∧
    Siblings depth carries (d + 1) (branch d last lines) under

/-- Every row carries the lines that the rows after it and some more ask for. -/
def Drawn (rows : List ρ) (tail : List Nat) : Prop :=
  ∀ front r rest, rows = front ++ r :: rest → ∀ l < depth r, carries r l = goesOn l (rest.map depth ++ tail)

end

/-! ## Levels in lists of depths -/

theorem goesOn_append {level : Nat} {depths : List Nat} (h : ∀ d ∈ depths, level + 1 < d) (tail : List Nat) :
    goesOn level (depths ++ tail) = goesOn level tail := by
  induction depths with
  | nil => rfl
  | cons d depths ih =>
    obtain ⟨hd, hdepths⟩ := List.forall_mem_cons.mp h
    rw [List.cons_append, goesOn, if_pos hd, ih hdepths]

theorem goesOn_iff (level : Nat) (depths : List Nat) :
    goesOn level depths = true ↔ ∃ front rest, depths = front ++ (level + 1) :: rest ∧ ∀ d ∈ front, level < d := by
  induction depths with
  | nil =>
    rw [goesOn]
    refine iff_of_false Bool.false_ne_true ?_
    rintro ⟨front, rest, h, -⟩
    exact absurd h.symm (List.append_ne_nil_of_right_ne_nil _ (List.cons_ne_nil _ _))
  | cons d depths ih =>
    rw [goesOn]
    split
    · rename_i hd
      rw [ih]
      constructor
      · rintro ⟨front, rest, rfl, hfront⟩
        exact ⟨d :: front, rest, rfl, List.forall_mem_cons.mpr ⟨by omega, hfront⟩⟩
      · rintro ⟨front, rest, h, hfront⟩
        cases front with
        | nil =>
          have := (List.cons.inj h).1
          omega
        | cons c front =>
          obtain ⟨rfl, rfl⟩ := List.cons.inj h
          exact ⟨front, rest, rfl, (List.forall_mem_cons.mp hfront).2⟩
    · rename_i hd
      rw [beq_iff_eq]
      constructor
      · rintro rfl
        exact ⟨[], depths, rfl, fun _ h => absurd h List.not_mem_nil⟩
      · rintro ⟨front, rest, h, hfront⟩
        cases front with
        | nil => exact (List.cons.inj h).1
        | cons c front =>
          have hc := (List.forall_mem_cons.mp hfront).1
          have := (List.cons.inj h).1
          omega

/-! ## Trees are drawn -/

section

variable {ρ : Type*} {depth : ρ → Nat} {carries : ρ → Nat → Bool}

theorem Siblings.le_depth {d : Nat} {lines : Nat → Bool} {rows : List ρ} (h : Siblings depth carries d lines rows) :
    ∀ r ∈ rows, d ≤ depth r := by
  induction h with
  | nil => exact fun _ hr => absurd hr List.not_mem_nil
  | cons r under rest hdepth _ _ _ ihunder ihrest =>
    intro s hs
    rcases List.mem_append.mp hs with hs | hs
    · rcases List.mem_cons.mp hs with rfl | hs
      · exact hdepth.ge
      · exact le_trans (Nat.le_succ _) (ihunder s hs)
    · exact ihrest s hs

/-- The first of some siblings is at their depth. -/
theorem Siblings.goesOn_eq {d : Nat} {lines : Nat → Bool} {rows : List ρ} (h : Siblings depth carries d lines rows) (hne : rows ≠ [])
    {level : Nat} (hlevel : d ≤ level + 1) (tail : List Nat) : goesOn level (rows.map depth ++ tail) = (d == level + 1) := by
  cases h with
  | nil => exact absurd rfl hne
  | cons r under rest hdepth =>
    rw [List.cons_append, List.map_cons, List.cons_append, goesOn, hdepth, if_neg (by omega)]

/-- What some siblings and the rows after them ask for, on the levels above. -/
theorem Siblings.goesOn_branch {d : Nat} {lines : Nat → Bool} {rows : List ρ} {tail : List Nat}
    (h : Siblings depth carries d lines rows) (hlines : ∀ l, l + 1 < d → goesOn l tail = lines l)
    (htail : ∀ l, d ≤ l + 1 → goesOn l tail = false) :
    (∀ l < d, goesOn l (rows.map depth ++ tail) = branch d rows.isEmpty lines l) ∧
      ∀ l, d ≤ l → goesOn l (rows.map depth ++ tail) = false := by
  constructor
  · intro l hl
    rw [branch]
    split
    · rename_i hlast
      cases hrows : rows with
      | nil => exact htail l hlast.ge
      | cons r rows =>
        rw [← hrows, h.goesOn_eq (by rw [hrows]; exact List.cons_ne_nil _ _) hlast.ge, hlast, hrows]
        exact beq_self_eq_true d
    · rename_i hinner
      rw [goesOn_append (fun e he => ?_), hlines l (by omega)]
      obtain ⟨r, hr, rfl⟩ := List.mem_map.mp he
      have := h.le_depth r hr
      omega
  · intro l hl
    cases hrows : rows with
    | nil => exact htail l (by omega)
    | cons r rows =>
      rw [← hrows, h.goesOn_eq (by rw [hrows]; exact List.cons_ne_nil _ _) (by omega)]
      exact beq_eq_false_iff_ne.mpr (by omega)

/-- Trees that are put together from the top down have the lines that the list of their rows asks for. -/
theorem Siblings.drawn {d : Nat} {lines : Nat → Bool} {rows : List ρ} (h : Siblings depth carries d lines rows) {tail : List Nat}
    (hlines : ∀ l, l + 1 < d → goesOn l tail = lines l) (htail : ∀ l, d ≤ l + 1 → goesOn l tail = false) :
    Drawn depth carries rows tail := by
  induction h generalizing tail with
  | nil => exact fun front r rest hcut => absurd hcut.symm (List.append_ne_nil_of_right_ne_nil _ (List.cons_ne_nil _ _))
  | @cons d lines r under rest hdepth hcarries hunder hrest ihunder ihrest =>
    obtain ⟨hbranch, hbeyond⟩ := hrest.goesOn_branch hlines htail
    have hunder_drawn : Drawn depth carries under (rest.map depth ++ tail) :=
      ihunder (fun l hl => hbranch l (by omega)) fun l hl => hbeyond l (by omega)
    have hrest_drawn := ihrest hlines htail
    intro front s after hcut l hl
    rw [List.cons_append] at hcut
    cases front with
    | nil =>
      -- the row itself: what is under it is below its lines
      obtain ⟨rfl, rfl⟩ := List.cons.inj hcut
      rw [hdepth] at hl
      rw [hcarries l hl, List.map_append, List.append_assoc, goesOn_append (fun e he => ?_), hbranch l hl]
      obtain ⟨t, ht, rfl⟩ := List.mem_map.mp he
      have := hunder.le_depth t ht
      omega
    | cons f front =>
      have hsplit := (List.cons.inj hcut).2
      rcases List.append_eq_append_iff.mp hsplit with ⟨gap, rfl, hgap⟩ | ⟨gap, hgap, hafter⟩
      · exact hrest_drawn gap s after hgap l hl
      · cases gap with
        | nil =>
          rw [List.append_nil] at hgap
          exact hrest_drawn [] s after hafter.symm l hl
        | cons g gap =>
          rw [List.cons_append] at hafter
          obtain ⟨rfl, rfl⟩ := List.cons.inj hafter
          rw [hunder_drawn front s gap hgap l hl, List.map_append, List.append_assoc]

/-- Trees one after the other, each told whether it is the last. -/
theorem siblings_flatMap {β : Type*} {d : Nat} {lines : Nat → Bool} (draw : Bool → β × Nat → List ρ) (items : List β) (n : Nat)
    (h : ∀ p ∈ items.zipIdx n, ∀ last, IsTree depth carries d last lines (draw last p)) :
    Siblings depth carries d lines ((items.zipIdx n).flatMap fun p => draw (p.2 + 1 == n + items.length) p) := by
  induction items generalizing n with
  | nil => exact .nil _ _
  | cons x items ih =>
    rw [List.zipIdx_cons] at h ⊢
    obtain ⟨hx, hitems⟩ := List.forall_mem_cons.mp h
    have hrest := ih (n + 1) hitems
    have hlength : n + (x :: items).length = n + 1 + items.length := by rw [List.length_cons]; omega
    rw [List.flatMap_cons, hlength]
    have hempty : ((items.zipIdx (n + 1)).flatMap fun p => draw (p.2 + 1 == n + 1 + items.length) p).isEmpty =
        (n + 1 == n + 1 + items.length) := by
      cases items with
      | nil => simp
      | cons y items =>
        obtain ⟨r, under, hrows, -⟩ := (hitems (y, n + 1) (by rw [List.zipIdx_cons]; exact List.mem_cons_self)
          (n + 1 + 1 == n + 1 + (y :: items).length)).exists_rows
        rw [List.zipIdx_cons, List.flatMap_cons, hrows, List.cons_append, List.isEmpty_cons]
        symm
        exact beq_eq_false_iff_ne.mpr (by rw [List.length_cons]; omega)
    obtain ⟨r, under, hrows, hdepth, hcarries, hunder⟩ := (hx (n + 1 == n + 1 + items.length)).exists_rows
    rw [hrows]
    rw [← hempty] at hcarries hunder
    exact .cons r under _ hdepth hcarries hunder hrest

end

end Outline

end Soroscan
