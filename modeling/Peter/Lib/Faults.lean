import Mathlib.Data.List.Basic

/-!
# Loops that a fault ends

A loop over a list changes a state with each element and is left at the first element with a fault.
What it did to the state up to there stays done (`exists_loop_eq`).
-/

namespace Faults

variable {α ε σ : Type*} (fault : α → Option ε)

/-- The elements a loop comes to: those up to the first with a fault, and this one. -/
def upToFault : List α → List α
  | [] => []
  | x :: xs => x :: (fault x).elim (upToFault xs) fun _ => []

variable {fault}

theorem upToFault_cons_of_none {x : α} (h : fault x = none) (xs : List α) :
    upToFault fault (x :: xs) = x :: upToFault fault xs := by
  rw [upToFault, h, Option.elim_none]

theorem upToFault_cons_of_some {x : α} {f : ε} (h : fault x = some f) (xs : List α) :
    upToFault fault (x :: xs) = [x] := by
  rw [upToFault, h, Option.elim_some]

/-- Without a fault it comes to all of them. -/
theorem upToFault_eq_self {xs : List α} (h : xs.findSome? fault = none) :
    upToFault fault xs = xs := by
  induction xs with
  | nil => rfl
  | cons x xs ih =>
    rw [List.findSome?_eq_none_iff] at h ih
    obtain ⟨hx, hxs⟩ := List.forall_mem_cons.1 h
    rw [upToFault_cons_of_none hx, ih hxs]

/-- If `S` relates the state before a round to the state after it, also where the round has a fault,
and `R` the states before and after some rounds, then the loop ends with the first fault, and with
what the elements up to it made of the state. -/
theorem exists_loop_eq {loop : List α → σ → σ × Option ε} {S : α → σ → σ → Prop}
    {R : List α → σ → σ → Prop} (hnil : ∀ s, loop [] s = (s, none))
    (hcons : ∀ x xs s, ∃ s', S x s s' ∧
      loop (x :: xs) s = (fault x).elim (loop xs s') fun f => (s', some f))
    (hrefl : ∀ s, R [] s s)
    (htrans : ∀ {x xs s s' s''}, S x s s' → R xs s' s'' → R (x :: xs) s s'')
    (xs : List α) (s : σ) :
    ∃ s', loop xs s = (s', xs.findSome? fault) ∧ R (upToFault fault xs) s s' := by
  induction xs generalizing s with
  | nil => exact ⟨s, hnil s, hrefl s⟩
  | cons x xs ih =>
    obtain ⟨s', hS, hloop⟩ := hcons x xs s
    rw [hloop, List.findSome?_cons]
    cases hx : fault x with
    | none =>
      obtain ⟨s'', hrest, hR⟩ := ih s'
      rw [upToFault_cons_of_none hx]
      exact ⟨s'', hrest, htrans hS hR⟩
    | some f =>
      rw [upToFault_cons_of_some hx]
      exact ⟨s', rfl, htrans hS (hrefl s')⟩

end Faults
