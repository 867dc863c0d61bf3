import Mathlib.Data.List.Basic
import Mathlib.Order.Lattice

/-!
# Intervals taken one after the other

`Takes a l b`: starting at the mark `a`, the intervals of `l` are taken in turn, each one at or
behind the end of the one before it, and the mark is then at or before `b`.  Such lists compose
(`Takes.append`), and no two of their intervals meet (`Takes.pairwise`).
-/

namespace Allocation

variable {α : Type*} [LinearOrder α]

/-- The intervals `[u.1, u.2)` of `l` lie between `a` and `b`, in this order. -/
def Takes (a : α) : List (α × α) → α → Prop
  | [], b => a ≤ b
  | u :: l, b => a ≤ u.1 ∧ u.1 ≤ u.2 ∧ Takes u.2 l b

/-- No two of the intervals have a point in common. -/
def Apart (l : List (α × α)) : Prop :=
  l.Pairwise fun u v => ∀ p, u.1 ≤ p → p < u.2 → v.1 ≤ p → ¬p < v.2

namespace Takes

variable {a b c : α} {l l' : List (α × α)} {u : α × α}

theorem le (h : Takes a l b) : a ≤ b := by
  induction l generalizing a with
  | nil => exact h
  | cons u l ih => exact (h.1.trans h.2.1).trans (ih h.2.2)

theorem mono_left (hab : a ≤ b) (h : Takes b l c) : Takes a l c := by
  cases l with
  | nil => exact hab.trans h
  | cons u l => exact ⟨hab.trans h.1, h.2⟩

theorem append (h : Takes a l b) (h' : Takes b l' c) : Takes a (l ++ l') c := by
  induction l generalizing a with
  | nil => exact h'.mono_left h
  | cons u l ih => exact ⟨h.1, h.2.1, ih h.2.2⟩

/-- Everything that is taken later lies behind the mark. -/
theorem mark_le (h : Takes a l b) (hu : u ∈ l) : a ≤ u.1 := by
  induction l generalizing a with
  | nil => exact absurd hu List.not_mem_nil
  | cons v l ih =>
    rcases List.mem_cons.1 hu with rfl | hu
    · exact h.1
    · exact (h.1.trans h.2.1).trans (ih h.2.2 hu)

/-- Intervals taken one after the other are apart. -/
theorem pairwise (h : Takes a l b) : Apart l := by
  induction l generalizing a with
  | nil => exact List.Pairwise.nil
  | cons u l ih =>
    refine List.Pairwise.cons (fun v hv p _ hp hp' => ?_) (ih h.2.2)
    exact absurd ((h.2.2.mark_le hv).trans hp') (not_le_of_gt hp)

end Takes

end Allocation
