import Mathlib.Algebra.GroupWithZero.Nat
import Mathlib.Data.List.Basic
import Mathlib.Logic.Relation

/-!
# Breadth-first order

The nodes of a finite forest in breadth-first order: a queue from which the first node is taken and
to which its children are added.  The order goes level by level (`order_eq`) and has the nodes
below those it starts with and no others (`mem_order_iff`).
-/

namespace BreadthFirst

variable {α : Type*} {children : α → List α} {size : α → ℕ}

/-- Every node is larger than its children together. -/
def Shrinks (children : α → List α) (size : α → ℕ) : Prop :=
  ∀ a, ((children a).map size).sum < size a

/-- The nodes reached from a queue, in breadth-first order. -/
def order (h : Shrinks children size) : List α → List α
  | [] => []
  | a :: queue => a :: order h (queue ++ children a)
termination_by queue => (queue.map size).sum
decreasing_by
  have := h a
  simp only [List.map_append, List.sum_append, List.map_cons, List.sum_cons]
  omega

variable (h : Shrinks children size)

/-- Nodes in front are taken in order, their children go to the end of the queue. -/
theorem order_append (l m : List α) :
    order h (l ++ m) = l ++ order h (m ++ l.flatMap children) := by
  induction l generalizing m with
  | nil => simp
  | cons a l ih =>
    rw [List.cons_append, order, List.append_assoc, ih, List.flatMap_cons, List.append_assoc]
    rfl

/-- One level comes before the next. -/
theorem order_eq (l : List α) : order h l = l ++ order h (l.flatMap children) := by
  simpa using order_append h l []

/-- The order has exactly the nodes at and below those of the queue. -/
theorem mem_order_iff {b : α} (l : List α) :
    b ∈ order h l ↔ ∃ a ∈ l, Relation.ReflTransGen (fun a c => c ∈ children a) a b := by
  induction l using order.induct h with
  | case1 => simp [order]
  | case2 a queue ih =>
    rw [order, List.mem_cons, ih]
    constructor
    · rintro (rfl | ⟨c, hc, hcb⟩)
      · exact ⟨b, List.mem_cons_self, .refl⟩
      · rcases List.mem_append.mp hc with hc | hc
        · exact ⟨c, List.mem_cons_of_mem a hc, hcb⟩
        · exact ⟨a, List.mem_cons_self, .head hc hcb⟩
    · rintro ⟨c, hc, hcb⟩
      rcases List.mem_cons.mp hc with rfl | hc
      · rcases Relation.ReflTransGen.cases_head hcb with rfl | ⟨d, hd, hdb⟩
        · exact Or.inl rfl
        · exact Or.inr ⟨d, List.mem_append_right queue hd, hdb⟩
      · exact Or.inr ⟨c, List.mem_append_left _ hc, hcb⟩

end BreadthFirst
