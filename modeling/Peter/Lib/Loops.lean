import Mathlib.Data.List.Basic

/-!
# Loops that end

A loop makes one round after the other until a round leaves it or ends with a fault.  `Ends` says
how it ends, whatever the number of rounds; a measure that every round makes smaller bounds this
number, and an invariant holds where the loop is left (`exists_run_eq`).
-/

namespace Loops

variable {σ ε : Type*} {round : σ → Except ε (Option σ)} {s s' : σ} {r r' : Except ε σ} {n m : ℕ}

/-- At most `n` rounds, the last one included; `none` when the loop has not ended by then. -/
def run (round : σ → Except ε (Option σ)) : ℕ → σ → Option (Except ε σ)
  | 0, _ => none
  | n + 1, s => match round s with
    | .error e => some (.error e)
    | .ok none => some (.ok s)
    | .ok (some s') => run round n s'

/-- The loop from `s` ends in this state, or with this fault. -/
def Ends (round : σ → Except ε (Option σ)) (s : σ) (r : Except ε σ) : Prop :=
  ∃ n, run round n s = some r

theorem run_of_leave (h : round s = .ok none) (n : ℕ) : run round (n + 1) s = some (.ok s) := by
  rw [run, h]

theorem run_of_again (h : round s = .ok (some s')) (n : ℕ) :
    run round (n + 1) s = run round n s' := by
  rw [run, h]

/-- More rounds than needed change nothing. -/
theorem run_of_le (h : run round n s = some r) (hle : n ≤ m) : run round m s = some r := by
  induction n generalizing m s with
  | zero => cases h
  | succ n ih =>
    obtain ⟨m, rfl⟩ : ∃ k, m = k + 1 := ⟨m - 1, by omega⟩
    rw [run] at h ⊢
    cases hround : round s with
    | error e =>
      rw [hround] at h
      exact h
    | ok o =>
      rw [hround] at h
      cases o with
      | none => exact h
      | some s' => exact ih h (by omega)

/-- A loop ends in one way. -/
theorem Ends.unique (h : Ends round s r) (h' : Ends round s r') : r = r' := by
  obtain ⟨n, hn⟩ := h
  obtain ⟨m, hm⟩ := h'
  have hn' := run_of_le hn (Nat.le_max_left n m)
  rw [run_of_le hm (Nat.le_max_right n m)] at hn'
  exact (Option.some.inj hn').symm

theorem ends_iff_of_run (h : run round n s = some r) : Ends round s r' ↔ r' = r := by
  constructor
  · exact fun h' => h'.unique ⟨n, h⟩
  · rintro rfl
    exact ⟨n, h⟩

/-- Where every round leaves the loop or keeps the invariant `I` and makes `μ` smaller, the loop
ends after at most `μ` rounds and a last one, with the invariant. -/
theorem exists_run_eq {I : σ → Prop} {μ : σ → ℕ}
    (hround : ∀ s, I s → round s = .ok none ∨
      ∃ s', round s = .ok (some s') ∧ I s' ∧ μ s' < μ s) (hs : I s) :
    ∃ s', run round (μ s + 1) s = some (.ok s') ∧ I s' ∧ round s' = .ok none := by
  obtain ⟨n, hn⟩ : ∃ n, μ s = n := ⟨_, rfl⟩
  induction n using Nat.strongRecOn generalizing s with
  | ind n ih =>
    rcases hround s hs with hleave | ⟨t, hagain, ht, hlt⟩
    · exact ⟨s, run_of_leave hleave _, hs, hleave⟩
    · obtain ⟨s', hrun, hs', hleave⟩ := ih (μ t) (by omega) ht rfl
      refine ⟨s', ?_, hs', hleave⟩
      rw [run_of_again hagain]
      exact run_of_le hrun (by omega)

end Loops
