import Mathlib.Algebra.BigOperators.Group.List.Basic
import Mathlib.Algebra.Order.Ring.Nat
import Peter.Lib.Transition

/-!
# Amortised costs of runs

Every label costs something, and a potential pays for it: a step may take no more from the
potential than it costs, unless it earns credit.  A run then costs at most the potential it begins
with and the credit it earns (`exec_amortized`).  With a final condition that no step leaves, a run
that has more labels of one kind than that has met it (`exec_done`).  The rules for the runs whose
steps have a property are `exec_amortized_along` and `exec_done_along`.
-/

namespace Transition

namespace System

variable {σ ℓ ε : Type*} {M : System σ ℓ ε} {I D : σ → Prop} {P : σ → ℓ → σ → Prop} (cost : ℓ → ℕ)
  (φ credit : σ → ℕ)

/-- The labels of a run cost what its potential and credit pay for, or it has come to an end. -/
theorem exec_amortized_along (hI : ∀ l s s', I s → M.step l s = .ok s' → P s l s' → I s')
    (hD : ∀ l s s', I s → M.step l s = .ok s' → P s l s' → D s → D s')
    (hstep : ∀ l s s', I s → M.step l s = .ok s' → P s l s' → ¬D s → ¬D s' →
      cost l + φ s' + credit s ≤ φ s + credit s')
    {ls : List ℓ} {s s' : σ} (hs : I s) (hP : M.Along P ls s) (h : M.exec ls s = .ok s') :
    D s' ∨ (ls.map cost).sum + φ s' + credit s ≤ φ s + credit s' := by
  induction ls generalizing s with
  | nil =>
    cases h
    right
    simp
  | cons l ls ih =>
    obtain ⟨m, hm, h⟩ := exec_cons_eq_ok.1 h
    obtain ⟨hl, hP⟩ := hP m hm
    have hIm := hI l s m hs hm hl
    rcases ih hIm hP h with hd | hrest
    · exact .inl hd
    · by_cases hDm : D m
      · left
        -- the end stays
        have hall := always_of_along (I := fun s => I s ∧ D s)
          (fun l s s' h h' hl => ⟨hI l s s' h.1 h' hl, hD l s s' h.1 h' hl h.2⟩) ⟨hIm, hDm⟩ hP
        exact (always_iff_prefixes.1 hall ls List.prefix_rfl s' h).2
      · right
        have hfirst := hstep l s m hs hm hl (fun h => hDm (hD l s m hs hm hl h)) hDm
        rw [List.map_cons, List.sum_cons]
        omega

theorem exec_amortized (hI : ∀ l s s', I s → M.step l s = .ok s' → I s')
    (hD : ∀ l s s', I s → M.step l s = .ok s' → D s → D s')
    (hstep : ∀ l s s', I s → M.step l s = .ok s' → ¬D s → ¬D s' →
      cost l + φ s' + credit s ≤ φ s + credit s')
    {ls : List ℓ} {s s' : σ} (hs : I s) (h : M.exec ls s = .ok s') :
    D s' ∨ (ls.map cost).sum + φ s' + credit s ≤ φ s + credit s' :=
  exec_amortized_along (P := fun _ _ _ => True) cost φ credit (fun l s s' hs h _ => hI l s s' hs h)
    (fun l s s' hs h _ => hD l s s' hs h) (fun l s s' hs h _ => hstep l s s' hs h) hs
    (along_of_forall (fun _ _ _ _ => trivial) s) h

theorem countP_eq_sum (p : ℓ → Bool) (ls : List ℓ) :
    ls.countP p = (ls.map fun l => if p l then 1 else 0).sum := by
  induction ls with
  | nil => rfl
  | cons l ls ih =>
    rw [List.countP_cons, List.map_cons, List.sum_cons, ← ih]
    exact Nat.add_comm _ _

/-- A run with more labels of one kind than its potential and credit pay for has come to an end. -/
theorem exec_done_along (p : ℓ → Bool) (hI : ∀ l s s', I s → M.step l s = .ok s' → P s l s' → I s')
    (hD : ∀ l s s', I s → M.step l s = .ok s' → P s l s' → D s → D s')
    (hstep : ∀ l s s', I s → M.step l s = .ok s' → P s l s' → ¬D s → ¬D s' →
      (if p l then 1 else 0) + φ s' + credit s ≤ φ s + credit s')
    {ls : List ℓ} {s s' : σ} (hs : I s) (hP : M.Along P ls s) (h : M.exec ls s = .ok s')
    (hcost : φ s + credit s' < ls.countP p + credit s) : D s' := by
  rw [countP_eq_sum] at hcost
  rcases exec_amortized_along (fun l => if p l then 1 else 0) φ credit hI hD hstep hs hP h with
    hd | hle
  · exact hd
  · omega

theorem exec_done (p : ℓ → Bool) (hI : ∀ l s s', I s → M.step l s = .ok s' → I s')
    (hD : ∀ l s s', I s → M.step l s = .ok s' → D s → D s')
    (hstep : ∀ l s s', I s → M.step l s = .ok s' → ¬D s → ¬D s' →
      (if p l then 1 else 0) + φ s' + credit s ≤ φ s + credit s')
    {ls : List ℓ} {s s' : σ} (hs : I s) (h : M.exec ls s = .ok s')
    (hcost : φ s + credit s' < ls.countP p + credit s) : D s' :=
  exec_done_along (P := fun _ _ _ => True) φ credit p (fun l s s' hs h _ => hI l s s' hs h)
    (fun l s s' hs h _ => hD l s s' hs h) (fun l s s' hs h _ => hstep l s s' hs h) hs
    (along_of_forall (fun _ _ _ _ => trivial) s) h hcost

end System

end Transition
