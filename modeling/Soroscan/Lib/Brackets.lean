import Mathlib.Data.List.Basic
import Mathlib.Tactic

/-!
# Brackets in a list

A list whose elements may open a bracket, close one, or do neither. `pending` is the stack of the brackets that a list leaves
open, where a closing one without an open one closes nothing. The bracket on top of the stack is the last one that only a balanced
stretch follows (`pending_eq_cons_iff`).
-/

namespace Soroscan

/-- What an element does: open a bracket with a label, close the innermost one, or neither. -/
inductive Bracket (β : Type) where
  | opening (label : β)
  | closing
  | neither
  deriving DecidableEq, Repr

namespace Bracket

variable {ε β : Type} (side : ε → Bracket β)

/-- The open brackets after an element, the innermost first. -/
def step (stack : List β) (e : ε) : List β :=
  match side e with
  | .opening label => label :: stack
  | .closing => stack.tail
  | .neither => stack

/-- The brackets that a list leaves open. -/
def pending (l : List ε) : List β := l.foldl (step side) []

/-- How many brackets are open after an element; there is none to close when none is open. -/
def depthStep (depth : Nat) (e : ε) : Option Nat :=
  match side e with
  | .opening _ => some (depth + 1)
  | .closing => if depth = 0 then none else some (depth - 1)
  | .neither => some depth

/-- How many brackets a list leaves open, if it closes only brackets of its own. -/
def depth (l : List ε) : Option Nat := l.foldlM (depthStep side) 0

/-- A list that closes each of its brackets, and no other. -/
def Balanced (l : List ε) : Prop := depth side l = some 0

instance (l : List ε) : Decidable (Balanced side l) := inferInstanceAs (Decidable (_ = _))

theorem pending_append (l : List ε) (e : ε) : pending side (l ++ [e]) = step side (pending side l) e := by
  rw [pending, List.foldl_append]
  rfl

theorem depth_append (l : List ε) (e : ε) : depth side (l ++ [e]) = (depth side l).bind fun d => depthStep side d e := by
  rw [depth, List.foldlM_append]
  cases hd : List.foldlM (depthStep side) 0 l with
  | none => simp [depth, hd]
  | some d => simp [depth, hd]

variable {side}

/-- A list that closes only brackets of its own leaves those before it open. -/
theorem foldl_step_of_depth {l : List ε} {d : Nat} (h : depth side l = some d) (stack : List β) :
    ∃ front, l.foldl (step side) stack = front ++ stack ∧ front.length = d := by
  induction l using List.reverseRecOn generalizing d with
  | nil =>
    cases h
    exact ⟨[], rfl, rfl⟩
  | append_singleton l e ih =>
    rw [depth_append] at h
    obtain ⟨d', hd', hstep⟩ := Option.bind_eq_some_iff.mp h
    obtain ⟨front, hfront, hlength⟩ := ih hd'
    rw [List.foldl_append, hfront, List.foldl_cons, List.foldl_nil]
    rw [depthStep] at hstep
    rw [step]
    split at hstep
    · next label heq =>
      cases hstep
      exact ⟨label :: front, rfl, by rw [List.length_cons, hlength]⟩
    · next heq =>
      cases front with
      | nil =>
        rw [← hlength, if_pos List.length_nil] at hstep
        cases hstep
      | cons b front =>
        rw [if_neg (by rw [← hlength]; exact Nat.succ_ne_zero _)] at hstep
        cases hstep
        exact ⟨front, rfl, by rw [← hlength, List.length_cons, Nat.add_sub_cancel]⟩
    · next heq =>
      cases hstep
      exact ⟨front, rfl, hlength⟩

/-- A balanced list leaves the stack as it is. -/
theorem foldl_step_of_balanced {l : List ε} (h : Balanced side l) (stack : List β) : l.foldl (step side) stack = stack := by
  obtain ⟨front, hfront, hlength⟩ := foldl_step_of_depth h stack
  rw [hfront, List.eq_nil_of_length_eq_zero hlength, List.nil_append]

/-- Each open bracket was opened by an element that is followed by the brackets above it. -/
theorem exists_opening_of_pending {l : List ε} {front : List β} {b : β} {stack : List β}
    (h : pending side l = front ++ b :: stack) :
    ∃ before e after, l = before ++ e :: after ∧ side e = .opening b ∧ depth side after = some front.length ∧
      pending side before = stack := by
  induction l using List.reverseRecOn generalizing front with
  | nil => exact absurd h (by simp [pending])
  | append_singleton l x ih =>
    rw [pending_append, step] at h
    split at h
    · next label heq =>
      cases front with
      | nil =>
        obtain ⟨rfl, hstack⟩ := List.cons.inj h
        exact ⟨l, x, [], rfl, heq, rfl, hstack⟩
      | cons c front =>
        obtain ⟨before, e, after, rfl, he, hdepth, hbefore⟩ := ih (List.cons.inj h).2
        refine ⟨before, e, after ++ [x], by simp, he, ?_, hbefore⟩
        rw [depth_append, hdepth, Option.bind_some, depthStep, heq, List.length_cons]
    · next heq =>
      cases hl : pending side l with
      | nil =>
        rw [hl] at h
        exact absurd h.symm (by simp)
      | cons g rest =>
        rw [hl, List.tail_cons] at h
        have hopen : pending side l = (g :: front) ++ b :: stack := by rw [hl, h, List.cons_append]
        obtain ⟨before, e, after, rfl, he, hdepth, hbefore⟩ := ih hopen
        refine ⟨before, e, after ++ [x], by simp, he, ?_, hbefore⟩
        rw [depth_append, hdepth, Option.bind_some, depthStep, heq]
        rfl
    · next heq =>
      obtain ⟨before, e, after, rfl, he, hdepth, hbefore⟩ := ih h
      refine ⟨before, e, after ++ [x], by simp, he, ?_, hbefore⟩
      rw [depth_append, hdepth, Option.bind_some, depthStep, heq]

/-- The innermost open bracket is the one that only a balanced stretch follows. -/
theorem pending_eq_cons_iff {l : List ε} {b : β} {stack : List β} :
    pending side l = b :: stack ↔
      ∃ before e after, l = before ++ e :: after ∧ side e = .opening b ∧ Balanced side after ∧ pending side before = stack := by
  constructor
  · intro h
    have hopen : pending side l = [] ++ b :: stack := h
    exact exists_opening_of_pending hopen
  · rintro ⟨before, e, after, rfl, he, hafter, rfl⟩
    rw [pending, List.foldl_append, List.foldl_cons, foldl_step_of_balanced hafter, step, he]
    rfl

end Bracket

end Soroscan
