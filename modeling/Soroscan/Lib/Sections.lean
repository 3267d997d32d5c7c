import Mathlib.Data.List.TakeWhile
import Mathlib.Tactic

/-!
# Lists in sections

A list is cut at every item that begins a section. A section is the item that begins it and the items up to the next one; what
stands before the first is in no section. Sections can be taken out and put in between others without changing those.
-/

namespace Soroscan

variable {α : Type*} (begins : α → Bool)

/-- The sections of a list, each with the item that begins it. -/
def sections : List α → List (α × List α)
  | [] => []
  | a :: l => if begins a then (a, l.takeWhile fun b => !begins b) :: sections l else sections l

/-- Nothing stands before the first section of a list. -/
def StartsSection (l : List α) : Prop := ∀ a ∈ l.head?, begins a = true

variable {begins}

theorem StartsSection.takeWhile_eq_nil {l : List α} (h : StartsSection begins l) : (l.takeWhile fun b => !begins b) = [] := by
  cases l with
  | nil => rfl
  | cons a l => rw [List.takeWhile_cons_of_neg (by rw [h a rfl]; decide)]

/-- The last section of a list ends where another section begins. -/
theorem takeWhile_append_of_starts {l rest : List α} (h : StartsSection begins rest) :
    ((l ++ rest).takeWhile fun b => !begins b) = l.takeWhile fun b => !begins b := by
  induction l with
  | nil => exact h.takeWhile_eq_nil
  | cons a l ih =>
    rw [List.cons_append, List.takeWhile_cons, List.takeWhile_cons, ih]

/-- The sections of two lists, the second of which begins with one. -/
theorem sections_append {l rest : List α} (h : StartsSection begins rest) :
    sections begins (l ++ rest) = sections begins l ++ sections begins rest := by
  induction l with
  | nil => rfl
  | cons a l ih =>
    rw [List.cons_append, sections, sections, takeWhile_append_of_starts h, ih]
    split
    · rfl
    · rfl

end Soroscan
