import Mathlib.Data.List.Nodup

/-!
# What is left of a list of requests

`pending added handled` is what remains of the requests `added` when those in `handled` are done, in
the order in which they came.  A program that keeps its requests in a buffer and marks the used ones
in place keeps exactly this: `filter_set_eq_erase` turns the mark into the removal of one request.
-/

namespace Pending

variable {α : Type*} [DecidableEq α]

/-- The requests that are not handled, in the order in which they came. -/
def pending (added handled : List α) : List α := added.filter (· ∉ handled)

theorem mem_pending {added handled : List α} {a : α} :
    a ∈ pending added handled ↔ a ∈ added ∧ a ∉ handled := by
  simp [pending]

theorem pending_nil (added : List α) : pending added [] = added := by
  simp [pending]

theorem pending_nodup {added : List α} (handled : List α) (h : added.Nodup) :
    (pending added handled).Nodup := h.filter _

/-- A new request is the last one left. -/
theorem pending_append {added handled : List α} {a : α} (h : a ∉ handled) :
    pending (added ++ [a]) handled = pending added handled ++ [a] := by
  simp [pending, h]

/-- A handled request is not left. -/
theorem pending_handle {added : List α} (handled : List α) (h : added.Nodup) (a : α) :
    pending added (handled ++ [a]) = (pending added handled).erase a := by
  rw [(pending_nodup handled h).erase_eq_filter, pending, pending, List.filter_filter]
  apply List.filter_congr
  intro x _
  by_cases hx : x = a <;> simp [hx]

/-- Overwriting a live item of a buffer by a dead one takes it out of the live ones. -/
theorem filter_set_eq_erase {p : α → Bool} {l : List α} {n : ℕ} {a b : α} (hn : l[n]? = some a)
    (ha : p a) (hb : p b = false) (hnd : (l.filter p).Nodup) :
    (l.set n b).filter p = (l.filter p).erase a := by
  induction l generalizing n with
  | nil => simp at hn
  | cons x l ih =>
    cases n with
    | zero =>
      obtain rfl : x = a := by simpa using hn
      simp [ha, hb]
    | succ n =>
      have hn : l[n]? = some a := by simpa using hn
      have hmem : a ∈ l.filter p := List.mem_filter.2 ⟨List.mem_of_getElem? hn, ha⟩
      by_cases hx : p x = true
      · rw [List.filter_cons_of_pos hx, List.nodup_cons] at hnd
        have hne : x ≠ a := fun h => hnd.1 (h ▸ hmem)
        rw [List.set_cons_succ, List.filter_cons_of_pos hx, List.filter_cons_of_pos hx,
          List.erase_cons_tail (by simpa using hne), ih hn hnd.2]
      · rw [List.filter_cons_of_neg hx] at hnd
        rw [List.set_cons_succ, List.filter_cons_of_neg hx, List.filter_cons_of_neg hx, ih hn hnd]

end Pending
